import Mathlib.Algebra.BigOperators.Group.List.Basic
import Mathlib.Data.List.Forall2
import Mathlib.Tactic.Common

/-!
# Lists related element by element
-/

namespace Lists

variable {α β γ δ : Type}

/-- Lists related element by element are related at each index. -/
theorem forall₂_getElem? {R : α → β → Prop} {as : List α} {bs : List β} (h : List.Forall₂ R as bs) {i : ℕ} {a : α} {b : β}
    (ha : as[i]? = some a) (hb : bs[i]? = some b) : R a b := by
  obtain ⟨hi, rfl⟩ := List.getElem?_eq_some_iff.1 ha
  obtain ⟨hj, rfl⟩ := List.getElem?_eq_some_iff.1 hb
  exact h.get hi hj

theorem exists_of_forall₂ {R : α → β → Prop} {as : List α} {bs : List β} (h : List.Forall₂ R as bs) {a : α} (ha : a ∈ as) :
    ∃ b, R a b := by
  induction h with
  | nil => cases ha
  | cons hR _ ih =>
    rcases List.mem_cons.1 ha with rfl | ha
    · exact ⟨_, hR⟩
    · exact ih ha

/-- An element of the second list is related to one of the first. -/
theorem exists_mem_of_forall₂ {R : α → β → Prop} {as : List α} {bs : List β} (h : List.Forall₂ R as bs) {b : β} (hb : b ∈ bs) :
    ∃ a ∈ as, R a b := by
  obtain ⟨⟨i, hi⟩, rfl⟩ := List.mem_iff_get.1 hb
  have hi' : i < as.length := h.length_eq ▸ hi
  exact ⟨as.get ⟨i, hi'⟩, List.get_mem as _, h.get hi' hi⟩

/-- A list is related to some list if each of its elements is related to something. -/
theorem exists_forall₂ {R : α → β → Prop} {as : List α} (h : ∀ a ∈ as, ∃ b, R a b) : ∃ bs, List.Forall₂ R as bs := by
  induction as with
  | nil => exact ⟨[], .nil⟩
  | cons a as ih =>
    obtain ⟨b, hb⟩ := h a (by simp)
    obtain ⟨bs, hbs⟩ := ih fun a' ha' => h a' (by simp [ha'])
    exact ⟨b :: bs, .cons hb hbs⟩

/-- Strings of fixed lengths are known from their concatenation. -/
theorem flatMap_inj {f g : α → List β} (hlen : ∀ a, (f a).length = (g a).length) {as : List α} (h : as.flatMap f = as.flatMap g) :
    ∀ a ∈ as, f a = g a := by
  induction as with
  | nil => simp
  | cons a as ih =>
    simp only [List.flatMap_cons] at h
    obtain ⟨ha, hrest⟩ := List.append_inj h (hlen a)
    exact List.forall_mem_cons.2 ⟨ha, ih hrest⟩

theorem forall₂_trans {R : α → β → Prop} {S : β → γ → Prop} {as : List α} {bs : List β} {cs : List γ} (h : List.Forall₂ R as bs)
    (h' : List.Forall₂ S bs cs) : List.Forall₂ (fun a c => ∃ b ∈ bs, R a b ∧ S b c) as cs := by
  induction h generalizing cs with
  | nil =>
    cases h'
    exact .nil
  | cons hR _ ih =>
    cases h' with
    | cons hS hrest =>
      refine .cons ⟨_, List.mem_cons_self, hR, hS⟩ ((ih hrest).imp fun a c hac => ?_)
      obtain ⟨b, hb, hRS⟩ := hac
      exact ⟨b, List.mem_cons_of_mem _ hb, hRS⟩

/-- Two lists related element by element to one list are equal, or they have elements which differ. -/
theorem eq_or_exists_of_forall₂ {R : α → β → Prop} {D : α → α → Prop} (hR : ∀ a a' b, R a b → R a' b → a = a' ∨ D a a')
    {as as' : List α} {bs : List β} (h : List.Forall₂ R as bs) (h' : List.Forall₂ R as' bs) :
    as = as' ∨ ∃ a ∈ as, ∃ a' ∈ as', D a a' := by
  induction h generalizing as' with
  | nil =>
    rw [List.forall₂_nil_right_iff.1 h']
    exact Or.inl rfl
  | cons ha _ ih =>
    cases h' with
    | cons ha' hrest' =>
      rcases hR _ _ _ ha ha' with rfl | hdiffer
      · rcases ih hrest' with rfl | ⟨a, hmem, a', hmem', hdiffer⟩
        · exact Or.inl rfl
        · exact Or.inr ⟨a, List.mem_cons_of_mem _ hmem, a', List.mem_cons_of_mem _ hmem', hdiffer⟩
      · exact Or.inr ⟨_, List.mem_cons_self, _, List.mem_cons_self, hdiffer⟩

/-- What the second list is made of. -/
theorem exists_map_of_forall₂ {R : α → γ → Prop} {f : γ → β} {as : List α} {bs : List β}
    (h : List.Forall₂ (fun a b => ∃ c, R a c ∧ b = f c) as bs) : ∃ cs, List.Forall₂ R as cs ∧ bs = cs.map f := by
  induction h with
  | nil => exact ⟨[], .nil, rfl⟩
  | cons hc _ ih =>
    obtain ⟨c, hR, rfl⟩ := hc
    obtain ⟨cs, hall, rfl⟩ := ih
    exact ⟨c :: cs, .cons hR hall, rfl⟩

/-- What functions make of lists which they relate element by element is the same list. -/
theorem map_eq_map {f : α → γ} {g : β → γ} {as : List α} {bs : List β} (h : List.Forall₂ (fun a b => f a = g b) as bs) :
    as.map f = bs.map g := by
  induction h with
  | nil => rfl
  | cons hfg _ ih => rw [List.map_cons, List.map_cons, hfg, ih]

/-- What is known of the pairs of a list holds of the pairs of a list it is related to. -/
theorem forall₂_zip_left {R : α → β → Prop} {S : β × γ → δ → Prop} {as : List α} {bs : List β} {cs : List γ} {ds : List δ}
    (h : List.Forall₂ R as bs) (hzip : List.Forall₂ S (bs.zip cs) ds) :
    List.Forall₂ (fun pair d => ∃ b, R pair.1 b ∧ S (b, pair.2) d) (as.zip cs) ds := by
  induction h generalizing cs ds with
  | nil =>
    cases hzip
    exact .nil
  | cons hR _ ih =>
    cases cs with
    | nil =>
      cases hzip
      exact .nil
    | cons c cs =>
      cases hzip with
      | cons hS hrest => exact .cons ⟨_, hR, hS⟩ (ih hrest)

/-- Two relations with a list between them, of which the second is to pairs, regrouped. -/
theorem forall₂_zip_zip {R : α → β → Prop} {S : β → γ × δ → Prop} {as : List α} {bs : List β} {pairs : List (γ × δ)}
    (h : List.Forall₂ R as bs) (h' : List.Forall₂ S bs pairs) :
    List.Forall₂ (fun ac bd => R ac.1 bd.1 ∧ S bd.1 (ac.2, bd.2)) (as.zip (pairs.map Prod.fst)) (bs.zip (pairs.map Prod.snd)) := by
  induction h generalizing pairs with
  | nil =>
    cases h'
    exact .nil
  | cons hR _ ih =>
    cases h' with
    | cons hS hrest => exact .cons ⟨hR, hS⟩ (ih hrest)

/-- Taking the entry of a key out of a list with each key once. -/
theorem perm_cons_filter [DecidableEq α] {k : α} {v : β} {entries : List (α × β)} (hnodup : (entries.map Prod.fst).Nodup)
    (hin : (k, v) ∈ entries) : entries.Perm ((k, v) :: entries.filter fun entry => entry.1 ≠ k) := by
  induction entries with
  | nil => cases hin
  | cons entry entries ih =>
    rw [List.map_cons, List.nodup_cons] at hnodup
    rcases List.mem_cons.1 hin with rfl | hin
    · have hrest : entries.filter (fun entry => entry.1 ≠ k) = entries := by
        rw [List.filter_eq_self]
        intro entry hentry
        refine decide_eq_true fun heq => hnodup.1 ?_
        exact List.mem_map.2 ⟨entry, hentry, heq⟩
      rw [List.filter_cons_of_neg (by simp), hrest]
    · have hne : entry.1 ≠ k := fun heq => hnodup.1 (List.mem_map.2 ⟨(k, v), hin, heq.symm⟩)
      rw [List.filter_cons_of_pos (by simpa using hne)]
      exact ((ih hnodup.2 hin).cons entry).trans (List.Perm.swap _ _ _)

/-- Pairing each element with a function of it. -/
theorem zip_map_self (f : α → β) (as : List α) : as.zip (as.map f) = as.map fun a => (a, f a) := by
  induction as with
  | nil => rfl
  | cons a as ih => rw [List.map_cons, List.zip_cons_cons, ih, List.map_cons]

/-- If there is a result for one element at most, it is the first. -/
theorem findSome?_of_countP_le_one {f : α → Option β} {as : List α} (h : as.countP (fun a => (f a).isSome) ≤ 1) {a : α} {b : β}
    (hmem : a ∈ as) (hsome : f a = some b) : as.findSome? f = some b := by
  induction as with
  | nil => cases hmem
  | cons a' as ih =>
    cases hfirst : f a' with
    | none =>
      rw [List.findSome?_cons_of_isNone (by rw [hfirst]; rfl)]
      rw [List.countP_cons_of_neg (by rw [hfirst]; simp)] at h
      rcases List.mem_cons.1 hmem with rfl | hmem
      · rw [hfirst] at hsome
        cases hsome
      · exact ih h hmem
    | some b' =>
      rw [List.countP_cons_of_pos (by rw [hfirst]; rfl)] at h
      have hzero := List.countP_eq_zero.1 (Nat.le_zero.1 (Nat.le_of_succ_le_succ h))
      rcases List.mem_cons.1 hmem with rfl | hmem
      · rw [List.findSome?_cons, hsome]
      · exact absurd (by rw [hsome]; rfl) (hzero a hmem)

/-- A sum over those that count. -/
theorem sum_map_filter {M : Type} [AddCommMonoid M] (f : α → M) (p : α → Bool) (l : List α)
    (h : ∀ a ∈ l, p a = false → f a = 0) : ((l.filter p).map f).sum = (l.map f).sum := by
  induction l with
  | nil => rfl
  | cons a l ih =>
    obtain ⟨ha, hl⟩ := List.forall_mem_cons.1 h
    rw [List.map_cons, List.sum_cons, ← ih hl, List.filter_cons]
    cases hp : p a with
    | true => rw [if_pos rfl, List.map_cons, List.sum_cons]
    | false => rw [if_neg (by decide), ha hp, zero_add]

/-- The elements from index `i` on are changed in place, one after another. -/
def modifyFrom (f : α → β → α) : ℕ → List β → List α → List α
  | _, [], as => as
  | i, b :: bs, as => modifyFrom f (i + 1) bs (as.modify i (f · b))

theorem modifyFrom_append (f : α → β → α) (pre as : List α) (bs : List β) (h : as.length = bs.length) :
    modifyFrom f pre.length bs (pre ++ as) = pre ++ List.zipWith f as bs := by
  induction bs generalizing pre as with
  | nil => rw [List.eq_nil_of_length_eq_zero h, modifyFrom, List.zipWith_nil_right]
  | cons b bs ih =>
    obtain ⟨a, as, rfl⟩ := List.exists_cons_of_length_eq_add_one h
    have hmodify : (pre ++ a :: as).modify pre.length (f · b) = pre ++ [f a b] ++ as := by
      simp [List.modify_eq_take_cons_drop]
    have hnext : pre.length + 1 = (pre ++ [f a b]).length := by simp
    rw [modifyFrom, hmodify, hnext, ih _ _ (by simpa using h), List.zipWith_cons_cons, List.append_assoc, List.singleton_append]

/-- A list of the values of a function, zipped with another list. -/
theorem zipWith_map_range (f : α → β → γ) (g : ℕ → α) (bs : List β) (b : β) :
    List.zipWith f ((List.range bs.length).map g) bs = (List.range bs.length).map fun j => f (g j) (bs.getD j b) := by
  refine List.ext_getElem (by simp) ?_
  intro j hj hj'
  simp only [List.length_map, List.length_range] at hj'
  simp [hj']

/-! ## Chunks -/

/-- The rounds of `chunks`. -/
def chunksLoop (n : ℕ) : ℕ → List α → List (List α)
  | 0, _ => []
  | _ + 1, [] => []
  | fuel + 1, a :: as => (a :: as).take n :: chunksLoop n fuel ((a :: as).drop n)

/-- The list in chunks of `n` elements, the last of which may have less. -/
def chunks (n : ℕ) (as : List α) : List (List α) := chunksLoop n as.length as

theorem flatten_chunksLoop {n fuel : ℕ} (hn : 0 < n) {as : List α} (h : as.length ≤ fuel) :
    (chunksLoop n fuel as).flatten = as := by
  induction fuel generalizing as with
  | zero =>
    obtain rfl := List.length_eq_zero_iff.1 (Nat.le_zero.1 h)
    rfl
  | succ fuel ih =>
    cases as with
    | nil => rfl
    | cons a as =>
      rw [chunksLoop, List.flatten_cons, ih ?_, List.take_append_drop]
      rw [List.length_drop]
      rw [List.length_cons] at *
      omega

/-- The chunks are all of the list, in order. -/
theorem flatten_chunks {n : ℕ} (hn : 0 < n) (as : List α) : (chunks n as).flatten = as := flatten_chunksLoop hn (Nat.le_refl _)

theorem length_of_mem_chunksLoop {n fuel : ℕ} {as chunk : List α} (h : chunk ∈ chunksLoop n fuel as) : chunk.length ≤ n := by
  induction fuel generalizing as with
  | zero => cases h
  | succ fuel ih =>
    cases as with
    | nil => cases h
    | cons a as =>
      rcases List.mem_cons.1 h with rfl | h
      · exact List.length_take_le _ _
      · exact ih h

theorem length_of_mem_chunks {n : ℕ} {as chunk : List α} (h : chunk ∈ chunks n as) : chunk.length ≤ n := length_of_mem_chunksLoop h

theorem chunksLoop_eq {n fuel fuel' : ℕ} (hn : 0 < n) {as : List α} (h : as.length ≤ fuel) (h' : as.length ≤ fuel') :
    chunksLoop n fuel as = chunksLoop n fuel' as := by
  induction fuel generalizing as fuel' with
  | zero =>
    obtain rfl := List.length_eq_zero_iff.1 (Nat.le_zero.1 h)
    cases fuel' <;> rfl
  | succ fuel ih =>
    cases as with
    | nil => cases fuel' <;> rfl
    | cons a as =>
      obtain ⟨fuel', rfl⟩ := Nat.exists_eq_add_one_of_ne_zero (show fuel' ≠ 0 by rintro rfl; cases h')
      rw [List.length_cons] at h h'
      have hdrop : ((a :: as).drop n).length ≤ as.length := by
        rw [List.length_drop, List.length_cons]
        omega
      exact congrArg (_ :: ·) (ih (by omega) (by omega))

/-- A list which is not empty is in its first chunk and in those of the rest. -/
theorem chunks_of_ne_nil {n : ℕ} (hn : 0 < n) {as : List α} (h : as ≠ []) : chunks n as = as.take n :: chunks n (as.drop n) := by
  obtain ⟨a, as, rfl⟩ := List.exists_cons_of_ne_nil h
  have hdrop : ((a :: as).drop n).length ≤ as.length := by
    rw [List.length_drop, List.length_cons]
    omega
  exact congrArg (_ :: ·) (chunksLoop_eq hn hdrop (Nat.le_refl _))

theorem chunksLoop_map (f : α → β) (n fuel : ℕ) (as : List α) :
    chunksLoop n fuel (as.map f) = (chunksLoop n fuel as).map fun chunk => chunk.map f := by
  induction fuel generalizing as with
  | zero => rfl
  | succ fuel ih =>
    cases as with
    | nil => rfl
    | cons a as =>
      change _ = ((a :: as).take n).map f :: (chunksLoop n fuel ((a :: as).drop n)).map fun chunk => chunk.map f
      rw [← ih, List.map_take, List.map_drop]
      rfl

/-- The chunks of what is made of each element. -/
theorem chunks_map (f : α → β) (n : ℕ) (as : List α) : chunks n (as.map f) = (chunks n as).map fun chunk => chunk.map f := by
  rw [chunks, List.length_map, chunksLoop_map]
  rfl

/-- The first chunk is as long as it can be. -/
theorem length_head_chunks {n : ℕ} {as chunk : List α} {later : List (List α)} (h : chunks n as = chunk :: later) :
    chunk.length = min as.length n := by
  cases as with
  | nil => cases h
  | cons a as =>
    obtain ⟨rfl, -⟩ := List.cons.inj h
    rw [List.length_take, Nat.min_comm]

end Lists
