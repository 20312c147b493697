import Mathlib.Data.List.Forall2
import Mathlib.Data.List.Nodup
import Mathlib.Tactic.Common

/-!
# Sorting by a key

A list that is sorted by a key, no two elements of which have one key, does not depend on the order it was in before. Elements of
one key keep the order they were in, so that sorting by a number is to take the elements of each number, one number after the other.
-/

namespace Sorting

variable {α κ : Type} {le : κ → κ → Bool}

/-- What `le` has to be for a list sorted by it to be determined by its elements. -/
structure Linear (le : κ → κ → Bool) : Prop where
  trans : ∀ a b c, le a b → le b c → le a c
  total : ∀ a b, (le a b || le b a) = true
  antisymm : ∀ a b, le a b → le b a → a = b

/-- Sorting by a key. -/
def sortBy (le : κ → κ → Bool) (key : α → κ) (as : List α) : List α := as.mergeSort fun a b => le (key a) (key b)

theorem sortBy_singleton (le : κ → κ → Bool) (key : α → κ) (a : α) : sortBy le key [a] = [a] := List.mergeSort_singleton a

theorem sortBy_perm (le : κ → κ → Bool) (key : α → κ) (as : List α) : (sortBy le key as).Perm as := as.mergeSort_perm _

theorem pairwise_sortBy (h : Linear le) (key : α → κ) (as : List α) :
    (sortBy le key as).Pairwise fun a b => le (key a) (key b) = true := by
  refine List.pairwise_mergeSort ?_ ?_ as
  · intro a b c
    exact h.trans _ _ _
  · intro a b
    exact h.total _ _

/-- Elements of distinct keys are sorted to one list, in whatever order they are given. -/
theorem sortBy_eq_of_perm (h : Linear le) {key : α → κ} {as bs : List α} (hperm : as.Perm bs) (hnodup : (as.map key).Nodup) :
    sortBy le key as = sortBy le key bs := by
  have hperm' : (sortBy le key as).Perm (sortBy le key bs) :=
    ((sortBy_perm le key as).trans hperm).trans (sortBy_perm le key bs).symm
  refine List.Perm.eq_of_pairwise ?_ (pairwise_sortBy h key as) (pairwise_sortBy h key bs) hperm'
  intro a b ha hb hab hba
  have hkey : key a = key b := h.antisymm _ _ hab hba
  have ha' : a ∈ as := (sortBy_perm le key as).mem_iff.1 ha
  have hb' : b ∈ as := hperm.mem_iff.2 ((sortBy_perm le key bs).mem_iff.1 hb)
  exact List.inj_on_of_nodup_map hnodup ha' hb' hkey

/-- Sorting what a function makes of the elements, by a key it keeps. -/
theorem map_sortBy {β : Type} {key : α → κ} {key' : β → κ} {f : α → β} (hkey : ∀ a, key' (f a) = key a) (as : List α) :
    (sortBy le key as).map f = sortBy le key' (as.map f) := by
  refine List.map_mergeSort fun a _ b _ => ?_
  rw [hkey, hkey]

/-- Lists which are sorted by the same keys stay related, whether or not the keys are distinct. -/
theorem forall₂_sortBy {β : Type} {R : α × κ → β → Prop} {as : List α} {ks : List κ} {bs : List β} (hlen : ks.length = as.length)
    (h : List.Forall₂ R (as.zip ks) bs) :
    List.Forall₂ R (sortBy le Prod.snd (as.zip ks)) ((sortBy le Prod.fst (ks.zip bs)).map Prod.snd) := by
  -- Both are what is left of sorting all of it
  set all := (as.zip ks).zip bs with hall
  have hleft : all.map Prod.fst = as.zip ks := List.map_fst_zip (Nat.le_of_eq h.length_eq)
  have hright : all.map (fun triple => (triple.1.2, triple.2)) = ks.zip bs := by
    have hks : ks = (as.zip ks).map Prod.snd := (List.map_snd_zip (Nat.le_of_eq hlen)).symm
    conv_rhs => rw [hks, List.zip_map_left]
    rfl
  have hleft' : sortBy le Prod.snd (as.zip ks) = (sortBy le (fun triple => triple.1.2) all).map Prod.fst := by
    rw [← hleft]
    exact (map_sortBy (fun _ => rfl) all).symm
  have hright' : sortBy le Prod.fst (ks.zip bs) =
      (sortBy le (fun triple => triple.1.2) all).map fun triple => (triple.1.2, triple.2) := by
    rw [← hright]
    exact (map_sortBy (fun _ => rfl) all).symm
  rw [hleft', hright', List.map_map, List.forall₂_map_left_iff, List.forall₂_map_right_iff, List.forall₂_same]
  intro triple htriple
  exact List.forall₂_zip h ((sortBy_perm _ _ _).mem_iff.1 htriple)

/-! ## Elements of one key -/

variable [DecidableEq κ]

/-- Elements of one key keep the order they were in. -/
theorem filter_sortBy (h : Linear le) (key : α → κ) (k : κ) (as : List α) :
    (sortBy le key as).filter (fun a => key a = k) = as.filter fun a => key a = k := by
  have hrefl : le k k = true := by simpa using h.total k k
  have hpairwise : (as.filter fun a => key a = k).Pairwise fun a b => le (key a) (key b) = true := by
    refine List.Pairwise.imp_of_mem ?_ (List.pairwise_of_forall (R := fun _ _ => True) fun _ _ => trivial)
    intro a b ha hb _
    rw [of_decide_eq_true (List.mem_filter.1 ha).2, of_decide_eq_true (List.mem_filter.1 hb).2, hrefl]
  have hsublist : (as.filter fun a => key a = k).Sublist (sortBy le key as) := by
    refine List.sublist_mergeSort ?_ ?_ hpairwise List.filter_sublist
    · intro a b c
      exact h.trans _ _ _
    · intro a b
      exact h.total _ _
  have hsublist' := hsublist.filter fun a => decide (key a = k)
  rw [List.filter_filter] at hsublist'
  simp only [Bool.and_self] at hsublist'
  exact (hsublist'.eq_of_length (((sortBy_perm le key as).filter _).length_eq).symm).symm

/-- What is taken of the elements of one key is taken in the order they were in. -/
theorem filterMap_sortBy {β : Type} (h : Linear le) {key : α → κ} {f : α → Option β} {k : κ} (hf : ∀ a, key a ≠ k → f a = none)
    (as : List α) : (sortBy le key as).filterMap f = as.filterMap f := by
  have hfilter : ∀ bs : List α, bs.filterMap f = (bs.filter fun a => key a = k).filterMap f := by
    intro bs
    rw [List.filterMap_filter]
    refine List.filterMap_congr fun a _ => ?_
    by_cases ha : key a = k
    · rw [if_pos (decide_eq_true ha)]
    · rw [if_neg (by simpa using ha), hf a ha]
  rw [hfilter, filter_sortBy h, ← hfilter]

/-- Sorting by a number. -/
def natLe (a b : ℕ) : Bool := a ≤ b

theorem linear_natLe : Linear natLe where
  trans a b c hab hbc := by
    rw [natLe, decide_eq_true_iff] at *
    omega
  total a b := by
    rw [natLe, natLe, Bool.or_eq_true, decide_eq_true_iff, decide_eq_true_iff]
    omega
  antisymm a b hab hba := by
    rw [natLe, decide_eq_true_iff] at *
    omega

/-- Of a sorted list, what is under a number comes first. -/
theorem append_of_pairwise {key : α → ℕ} {as : List α} (h : as.Pairwise fun a b => key a ≤ key b) (n : ℕ) :
    as = as.filter (fun a => key a < n) ++ as.filter fun a => n ≤ key a := by
  induction as with
  | nil => rfl
  | cons a as ih =>
    obtain ⟨ha, has⟩ := List.pairwise_cons.1 h
    by_cases hlt : key a < n
    · rw [List.filter_cons_of_pos (by simpa using hlt), List.filter_cons_of_neg (by simpa using hlt), List.cons_append, ← ih has]
    · have hle : n ≤ key a := Nat.le_of_not_lt hlt
      have hnil : as.filter (fun b => key b < n) = [] := by
        refine List.filter_eq_nil_iff.2 fun b hb => ?_
        have := ha b hb
        simp only [decide_eq_true_eq]
        omega
      rw [List.filter_cons_of_neg (by simpa using hle), List.filter_cons_of_pos (by simpa using hle), hnil, List.nil_append]
      refine congrArg (a :: ·) (List.filter_eq_self.2 fun b hb => ?_).symm
      exact decide_eq_true (Nat.le_trans hle (ha b hb))

theorem filter_lt_eq_flatMap {key : α → ℕ} {as : List α} (h : as.Pairwise fun a b => key a ≤ key b) (n : ℕ) :
    as.filter (fun a => key a < n) = (List.range n).flatMap fun k => as.filter fun a => key a = k := by
  induction n with
  | zero => simp
  | succ n ih =>
    rw [List.range_succ, List.flatMap_append, List.flatMap_singleton, ← ih,
      append_of_pairwise (h.sublist (List.filter_sublist (p := fun a => decide (key a < n + 1)))) n,
      List.filter_filter, List.filter_filter]
    congr 1
    · refine List.filter_congr fun a _ => ?_
      rw [← Bool.decide_and, decide_eq_decide]
      omega
    · refine List.filter_congr fun a _ => ?_
      rw [← Bool.decide_and, decide_eq_decide]
      omega

/-- Sorting by a number is to take the elements of each number, one number after the other. -/
theorem sortBy_natLe_eq_flatMap {key : α → ℕ} {as : List α} {n : ℕ} (h : ∀ a ∈ as, key a < n) :
    sortBy natLe key as = (List.range n).flatMap fun k => as.filter fun a => key a = k := by
  have hpairwise : (sortBy natLe key as).Pairwise fun a b => key a ≤ key b :=
    (pairwise_sortBy linear_natLe key as).imp fun hab => of_decide_eq_true hab
  have hall : (sortBy natLe key as).filter (fun a => key a < n) = sortBy natLe key as :=
    List.filter_eq_self.2 fun a ha => decide_eq_true (h a ((sortBy_perm _ _ _).mem_iff.1 ha))
  rw [← hall, filter_lt_eq_flatMap hpairwise]
  exact List.flatMap_congr fun k _ => filter_sortBy linear_natLe key k as

end Sorting
