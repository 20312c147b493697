import MoneroOxide.Lib.PerfectTree
import Mathlib.Data.List.Chain
import Mathlib.Data.List.Induction

/-!
# What a digest binds

A digest of a value is taken by hashing strings. `Collide H ps qs` says that two different strings, one of each list, have one
hash. A digest is `Binding` when two values with the same digest are alike, unless the strings which were hashed for the one and
for the other collide. Nothing is assumed of the hash function: what would break it is named instead, among finitely many strings.
-/

namespace Digest

variable {σ δ α β γ : Type} {H : σ → δ}

/-- Two different strings, one of each list, have one hash. -/
def Collide (H : σ → δ) (ps qs : List σ) : Prop := ∃ p ∈ ps, ∃ q ∈ qs, p ≠ q ∧ H p = H q

/-- Strings with one hash are equal, or they collide. -/
theorem eq_or_collide {ps qs : List σ} {p q : σ} (hp : p ∈ ps) (hq : q ∈ qs) (h : H p = H q) : p = q ∨ Collide H ps qs := by
  by_cases he : p = q
  · exact Or.inl he
  · exact Or.inr ⟨p, hp, q, hq, he, h⟩

/-- A collision stays one among more strings. -/
theorem Collide.mono {ps qs ps' qs' : List σ} (h : Collide H ps qs) (hp : ps ⊆ ps') (hq : qs ⊆ qs') : Collide H ps' qs' := by
  obtain ⟨p, hpm, q, hqm, hne, heq⟩ := h
  exact ⟨p, hp hpm, q, hq hqm, hne, heq⟩

/-- Values which are encoded before they are hashed collide only if their encodings do. -/
theorem Collide.map {w : α → σ} (hw : Function.Injective w) {as bs : List α} (h : Collide (fun a => H (w a)) as bs) :
    Collide H (as.map w) (bs.map w) := by
  obtain ⟨a, ha, b, hb, hne, heq⟩ := h
  exact ⟨w a, List.mem_map_of_mem ha, w b, List.mem_map_of_mem hb, fun he => hne (hw he), heq⟩

/-- Two values of `V` with the same digest are related by `R`, unless the strings hashed for them collide. -/
def Binding (H : σ → δ) (V : α → Prop) (R : α → α → Prop) (digest : α → γ) (hashed : α → List σ) : Prop :=
  ∀ x y, V x → V y → digest x = digest y → R x y ∨ Collide H (hashed x) (hashed y)

namespace Binding

variable {V : α → Prop} {R : α → α → Prop} {digest : α → γ} {hashed : α → List σ}

/-- The hash of an encoding binds what the encoding determines. -/
theorem of_encoding {w : α → σ} (hw : ∀ x y, V x → V y → w x = w y → R x y) : Binding H V R (fun x => H (w x)) fun x => [w x] := by
  intro x y hx hy h
  rcases eq_or_collide (List.mem_singleton_self (w x)) (List.mem_singleton_self (w y)) h with he | hc
  · exact Or.inl (hw x y hx hy he)
  · exact Or.inr hc

/-- A digest binds when it is hashed once more. -/
theorem hash (h : Binding H V R digest hashed) {w : γ → σ} (hw : Function.Injective w) :
    Binding H V R (fun x => H (w (digest x))) fun x => w (digest x) :: hashed x := by
  intro x y hx hy heq
  rcases eq_or_collide (List.mem_cons_self (l := hashed x)) (List.mem_cons_self (l := hashed y)) heq with he | hc
  · rcases h x y hx hy (hw he) with hR | hc
    · exact Or.inl hR
    · exact Or.inr (hc.mono (List.subset_cons_self _ _) (List.subset_cons_self _ _))
  · exact Or.inr hc

/-- The digest of a part binds that part. -/
theorem comap (h : Binding H V R digest hashed) (f : β → α) :
    Binding H (fun b => V (f b)) (fun b b' => R (f b) (f b')) (fun b => digest (f b)) fun b => hashed (f b) :=
  fun b b' hb hb' heq => h (f b) (f b') hb hb' heq

/-- Two digests side by side bind what each of them does, the second given what the first does. -/
theorem and {R' : α → α → Prop} {digest' : α → β} {hashed' : α → List σ} (h : Binding H V R digest hashed)
    (h' : ∀ x y, V x → V y → R x y → digest' x = digest' y → R' x y ∨ Collide H (hashed' x) (hashed' y)) :
    Binding H V (fun x y => R x y ∧ R' x y) (fun x => (digest x, digest' x)) fun x => hashed x ++ hashed' x := by
  intro x y hx hy heq
  obtain ⟨h1, h2⟩ := Prod.mk.inj heq
  rcases h x y hx hy h1 with hR | hc
  · rcases h' x y hx hy hR h2 with hR' | hc
    · exact Or.inl ⟨hR, hR'⟩
    · exact Or.inr (hc.mono (List.subset_append_right _ _) (List.subset_append_right _ _))
  · exact Or.inr (hc.mono (List.subset_append_left _ _) (List.subset_append_left _ _))

end Binding

/-- Two lists, in each of which a value has the digest of the one before it, end in the same way if their last values have the same
digest, up to where two values have one digest and differ. -/
theorem suffix_of_last {V : α → Prop} {D : α → α → Prop} {digest previous : α → γ}
    (h : ∀ x y, V x → V y → digest x = digest y → x = y ∨ D x y) {xs ys : List α} (hxs : ∀ x ∈ xs, V x) (hys : ∀ y ∈ ys, V y)
    (hlinked : xs.IsChain fun parent x => previous x = digest parent) (hlinked' : ys.IsChain fun parent y => previous y = digest parent)
    (hlast : xs.getLast?.map digest = ys.getLast?.map digest) : (xs <:+ ys ∨ ys <:+ xs) ∨ ∃ x ∈ xs, ∃ y ∈ ys, D x y := by
  induction xs using List.reverseRecOn generalizing ys with
  | nil => exact Or.inl (Or.inl List.nil_suffix)
  | append_singleton xs x ih =>
    rcases List.eq_nil_or_concat ys with rfl | ⟨ys, y, rfl⟩
    · exact Or.inl (Or.inr List.nil_suffix)
    simp only [List.concat_eq_append, List.getLast?_concat, Option.map_some, Option.some.injEq] at *
    rcases h x y (hxs x (by simp)) (hys y (by simp)) hlast with rfl | hdiffer
    · obtain ⟨hchain, -, hprevious⟩ := List.isChain_append.1 hlinked
      obtain ⟨hchain', -, hprevious'⟩ := List.isChain_append.1 hlinked'
      -- What comes before is linked to the same digest.
      rcases hparent : xs.getLast? with _ | parent
      · rw [List.getLast?_eq_none_iff.1 hparent]
        exact Or.inl (Or.inl (List.suffix_append ys [x]))
      rcases hparent' : ys.getLast? with _ | parent'
      · rw [List.getLast?_eq_none_iff.1 hparent']
        exact Or.inl (Or.inr (List.suffix_append xs [x]))
      have hdigest : xs.getLast?.map digest = ys.getLast?.map digest := by
        rw [hparent, hparent', Option.map_some, Option.map_some, ← hprevious parent hparent x rfl, ← hprevious' parent' hparent' x rfl]
      rcases ih (fun a ha => hxs a (List.mem_append_left _ ha)) (fun b hb => hys b (List.mem_append_left _ hb)) hchain hchain'
        hdigest with hsuffix | ⟨a, ha, b, hb, hdiffer⟩
      · exact Or.inl (hsuffix.imp List.suffix_append_self_iff.2 List.suffix_append_self_iff.2)
      · exact Or.inr ⟨a, List.mem_append_left _ ha, b, List.mem_append_left _ hb, hdiffer⟩
    · exact Or.inr ⟨x, by simp, y, by simp, hdiffer⟩

end Digest

namespace PerfectTree

open Digest

variable {α : Type} (pair : α → α → α)

/-- Neighbours, as pairs. -/
def neighbours : List α → List (α × α)
  | left :: right :: as => (left, right) :: neighbours as
  | _ => []

/-- The pairs of branches of a perfect tree, level by level. -/
def branches : ℕ → List α → List (α × α)
  | 0, _ => []
  | k + 1, as => neighbours as ++ branches k (pairUp pair as)

/-- Paired off, as many leaves are bound. -/
theorem binding_pairUp (n : ℕ) :
    Binding (fun p : α × α => pair p.1 p.2) (fun as => as.length = 2 * n) Eq (pairUp pair) neighbours := by
  intro as bs ha hb h
  induction n generalizing as bs with
  | zero =>
    rw [Nat.mul_zero, List.length_eq_zero_iff] at ha hb
    exact Or.inl (ha.trans hb.symm)
  | succ n ih =>
    rcases as with _ | ⟨a, _ | ⟨a', as⟩⟩
    · simp at ha
    · simp at ha
      omega
    rcases bs with _ | ⟨b, _ | ⟨b', bs⟩⟩
    · simp at hb
    · simp at hb
      omega
    simp only [pairUp, List.cons.injEq] at h
    simp only [List.length_cons] at ha hb
    obtain ⟨hpair, hrest⟩ := h
    rcases eq_or_collide (H := fun p : α × α => pair p.1 p.2) (p := (a, a')) (q := (b, b'))
        (List.mem_cons_self (l := neighbours as)) (List.mem_cons_self (l := neighbours bs)) hpair with he | hc
    · obtain ⟨rfl, rfl⟩ := Prod.mk.inj he
      rcases ih as bs (by omega) (by omega) hrest with rfl | hc
      · exact Or.inl rfl
      · exact Or.inr (hc.mono (List.subset_cons_self _ _) (List.subset_cons_self _ _))
    · exact Or.inr hc

/-- The root of a perfect tree binds its leaves. -/
theorem binding_root (k : ℕ) :
    Binding (fun p : α × α => pair p.1 p.2) (fun as => as.length = 2 ^ k) Eq (root pair k) (branches pair k) := by
  induction k with
  | zero =>
    intro as bs ha hb h
    obtain ⟨a, rfl⟩ := List.length_eq_one_iff.1 ha
    obtain ⟨b, rfl⟩ := List.length_eq_one_iff.1 hb
    exact Or.inl (congrArg (fun c => [c]) (Option.some.inj h))
  | succ k ih =>
    intro as bs ha hb h
    rw [Nat.pow_succ'] at ha hb
    have hlen : ∀ cs : List α, cs.length = 2 * 2 ^ k → (pairUp pair cs).length = 2 ^ k := by
      intro cs hc
      rw [length_pairUp, hc, Nat.mul_div_cancel_left _ Nat.two_pos]
    rw [root_succ, root_succ] at h
    -- The level above the leaves is bound by the root, and the leaves by that level.
    rcases ih _ _ (hlen as ha) (hlen bs hb) h with he | hc
    · rcases binding_pairUp pair (2 ^ k) as bs ha hb he with he | hc
      · exact Or.inl he
      · exact Or.inr (hc.mono (List.subset_append_left _ _) (List.subset_append_left _ _))
    · exact Or.inr (hc.mono (List.subset_append_right _ _) (List.subset_append_right _ _))

end PerfectTree
