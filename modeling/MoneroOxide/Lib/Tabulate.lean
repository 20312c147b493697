import Mathlib.Algebra.BigOperators.Group.Finset.Basic
import Mathlib.Algebra.BigOperators.Ring.Finset
import Mathlib.Data.Nat.Bitwise
import Mathlib.Tactic.Ring

/-!
# Lists as the values of a function

A list of a known length is `tabulate` of a function, and what is done to lists entry by entry, by halves or by blocks is then done
to functions, with sums over `Finset.range`.
-/

namespace Tabulate

variable {α β γ : Type*}

/-- The list of the first `n` values of a function. -/
def tabulate (n : ℕ) (f : ℕ → α) : List α := (List.range n).map f

@[simp]
theorem length_tabulate (n : ℕ) (f : ℕ → α) : (tabulate n f).length = n := by
  simp [tabulate]

@[simp]
theorem tabulate_zero (f : ℕ → α) : tabulate 0 f = [] := rfl

theorem tabulate_congr {n : ℕ} {f g : ℕ → α} (h : ∀ i < n, f i = g i) : tabulate n f = tabulate n g :=
  List.map_congr_left fun i hi => h i (List.mem_range.1 hi)

theorem getElem?_tabulate {n : ℕ} (f : ℕ → α) {i : ℕ} (h : i < n) : (tabulate n f)[i]? = some (f i) := by
  simp [tabulate, h]

theorem getD_tabulate {n : ℕ} (f : ℕ → α) {i : ℕ} (h : i < n) (d : α) : (tabulate n f).getD i d = f i := by
  rw [List.getD_eq_getElem?_getD, getElem?_tabulate f h, Option.getD_some]

/-- Every list is tabulated. -/
theorem eq_tabulate (l : List α) (d : α) : l = tabulate l.length fun i => l.getD i d := by
  refine List.ext_getElem? fun i => ?_
  by_cases hi : i < l.length
  · rw [getElem?_tabulate _ hi, List.getElem?_eq_getElem hi, List.getD_eq_getElem _ _ hi]
  · rw [List.getElem?_eq_none (by omega), List.getElem?_eq_none (by rw [length_tabulate]; omega)]

theorem exists_tabulate {l : List α} {n : ℕ} (h : l.length = n) (d : α) : ∃ f, l = tabulate n f :=
  ⟨fun i => l.getD i d, h ▸ eq_tabulate l d⟩

theorem tabulate_add (m n : ℕ) (f : ℕ → α) : tabulate (m + n) f = tabulate m f ++ tabulate n fun i => f (m + i) := by
  rw [tabulate, List.range_add, List.map_append, List.map_map]
  rfl

theorem tabulate_succ (n : ℕ) (f : ℕ → α) : tabulate (n + 1) f = f 0 :: tabulate n fun i => f (i + 1) := by
  rw [Nat.add_comm, tabulate_add]
  simp [tabulate, Nat.add_comm]

theorem replicate_eq_tabulate (n : ℕ) (a : α) : List.replicate n a = tabulate n fun _ => a := by
  simp [tabulate, List.map_const']

@[simp]
theorem map_tabulate (n : ℕ) (f : ℕ → α) (g : α → β) : (tabulate n f).map g = tabulate n fun i => g (f i) := by
  rw [tabulate, List.map_map]
  rfl

@[simp]
theorem zipWith_tabulate (n : ℕ) (f : ℕ → α) (g : ℕ → β) (op : α → β → γ) :
    List.zipWith op (tabulate n f) (tabulate n g) = tabulate n fun i => op (f i) (g i) := by
  rw [tabulate, tabulate, List.zipWith_map, List.zipWith_self]
  rfl

@[simp]
theorem zip_tabulate (n : ℕ) (f : ℕ → α) (g : ℕ → β) :
    (tabulate n f).zip (tabulate n g) = tabulate n fun i => (f i, g i) := zipWith_tabulate n f g Prod.mk

theorem take_tabulate {m n : ℕ} (f : ℕ → α) (h : m ≤ n) : (tabulate n f).take m = tabulate m f := by
  rw [tabulate, ← List.map_take, List.take_range, Nat.min_eq_left h]
  rfl

/-- A zip with a longer list. -/
theorem zip_tabulate_of_le {n : ℕ} {l : List α} (h : l.length ≤ n) (g : ℕ → β) (d : α) :
    l.zip (tabulate n g) = tabulate l.length fun i => (l.getD i d, g i) := by
  conv_lhs => rw [List.zip_eq_zip_take_min, length_tabulate, Nat.min_eq_left h, List.take_length, take_tabulate g h,
    eq_tabulate l d]
  rw [length_tabulate, zip_tabulate]

theorem drop_tabulate (m n : ℕ) (f : ℕ → α) : (tabulate (m + n) f).drop m = tabulate n fun i => f (m + i) := by
  rw [tabulate_add, List.drop_left' (length_tabulate m f)]

theorem reverse_tabulate (n : ℕ) (f : ℕ → α) : (tabulate n f).reverse = tabulate n fun i => f (n - 1 - i) := by
  refine List.ext_getElem? fun i => ?_
  by_cases hi : i < n
  · rw [List.getElem?_reverse (by rwa [length_tabulate]), length_tabulate, getElem?_tabulate _ (by omega), getElem?_tabulate _ hi]
  · rw [List.getElem?_eq_none (by rw [List.length_reverse, length_tabulate]; omega),
      List.getElem?_eq_none (by rw [length_tabulate]; omega)]

/-- Blocks of one length, one after the other. -/
theorem flatMap_tabulate (m n : ℕ) (f : ℕ → ℕ → α) (hn : 0 < n) :
    (List.range m).flatMap (fun j => tabulate n (f j)) = tabulate (m * n) fun k => f (k / n) (k % n) := by
  induction m with
  | zero => simp
  | succ m ih =>
    rw [List.range_succ, List.flatMap_append, ih, Nat.succ_mul, tabulate_add, List.flatMap_singleton]
    congr 1
    refine tabulate_congr fun i hi => ?_
    rw [Nat.mul_comm m n, Nat.mul_add_div hn, Nat.div_eq_of_lt hi, Nat.add_zero, Nat.mul_add_mod, Nat.mod_eq_of_lt hi]

theorem zipIdx_tabulate (n : ℕ) (f : ℕ → α) : (tabulate n f).zipIdx = tabulate n fun i => (f i, i) := by
  refine List.ext_getElem? fun i => ?_
  by_cases hi : i < n
  · rw [List.getElem?_zipIdx, getElem?_tabulate f hi, getElem?_tabulate _ hi, Option.map_some, Nat.zero_add]
  · rw [List.getElem?_eq_none (by rw [List.length_zipIdx, length_tabulate]; omega),
      List.getElem?_eq_none (by rw [length_tabulate]; omega)]

section

variable {M : Type*} [AddCommMonoid M]

theorem sum_tabulate (n : ℕ) (f : ℕ → M) : (tabulate n f).sum = ∑ i ∈ Finset.range n, f i := by
  induction n with
  | zero => rfl
  | succ n ih => rw [tabulate_add, List.sum_append, ih, Finset.sum_range_succ, tabulate_succ, tabulate_zero, List.sum_singleton,
      Nat.add_zero]

/-- A running sum over a list. -/
theorem foldl_add_tabulate (n : ℕ) (f : ℕ → α) (g : α → M) (s : M) :
    (tabulate n f).foldl (fun s a => s + g a) s = s + ∑ i ∈ Finset.range n, g (f i) := by
  induction n with
  | zero => simp
  | succ n ih =>
    rw [tabulate_add, List.foldl_append, ih, Finset.sum_range_succ, ← add_assoc]
    rfl

/-- A sum over blocks of one length. -/
theorem sum_range_mul (m n : ℕ) (f : ℕ → M) :
    ∑ k ∈ Finset.range (m * n), f k = ∑ j ∈ Finset.range m, ∑ i ∈ Finset.range n, f (j * n + i) := by
  induction m with
  | zero => simp
  | succ m ih => rw [Nat.succ_mul, Finset.sum_range_add, ih, Finset.sum_range_succ]

end

end Tabulate
