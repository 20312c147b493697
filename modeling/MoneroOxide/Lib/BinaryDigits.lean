import Mathlib.Algebra.BigOperators.Intervals
import Mathlib.Algebra.BigOperators.Ring.Finset
import Mathlib.Data.List.Basic
import Mathlib.Tactic.Linarith
import Mathlib.Tactic.Ring

/-!
# Signed binary digits

Digits, least significant first, which need not be bits: `value` is what they add up to. Bits may be incremented in place
(`increment`), with a carry that may fall off the top of them.
-/

namespace BinaryDigits

/-- The sum of the digits, each times its power of two. -/
def value : List ℤ → ℤ
  | [] => 0
  | d :: ds => d + 2 * value ds

/-- The digits are bits. -/
def IsBits (ds : List ℤ) : Prop := ∀ d ∈ ds, d = 0 ∨ d = 1

/-- Ones are cleared until there is a zero, which is set. -/
def increment : List ℤ → List ℤ
  | [] => []
  | d :: ds => if d = 0 then 1 :: ds else 0 :: increment ds

theorem value_eq_sum (ds : List ℤ) : value ds = ∑ i ∈ Finset.range ds.length, ds.getD i 0 * 2 ^ i := by
  induction ds with
  | nil => rfl
  | cons d ds ih =>
    rw [value, ih, List.length_cons, Finset.sum_range_succ', Finset.mul_sum, pow_zero, mul_one, List.getD_cons_zero, add_comm]
    congr 1
    refine Finset.sum_congr rfl ?_
    intro i _
    rw [List.getD_cons_succ, pow_succ]
    ring

theorem value_append (ds es : List ℤ) : value (ds ++ es) = value ds + 2 ^ ds.length * value es := by
  induction ds with
  | nil => simp [value]
  | cons d ds ih =>
    rw [List.cons_append, value, ih, value, List.length_cons, pow_succ]
    ring

@[simp]
theorem value_zeros (n : ℕ) : value (List.replicate n 0) = 0 := by
  induction n with
  | zero => rfl
  | succ n ih => rw [List.replicate_succ, value, ih]; rfl

theorem isBits_cons {d : ℤ} {ds : List ℤ} : IsBits (d :: ds) ↔ (d = 0 ∨ d = 1) ∧ IsBits ds := List.forall_mem_cons

theorem isBits_zeros (n : ℕ) : IsBits (List.replicate n 0) := by
  intro d hd
  exact Or.inl (List.eq_of_mem_replicate hd)

theorem IsBits.append {ds es : List ℤ} (hds : IsBits ds) (hes : IsBits es) : IsBits (ds ++ es) := by
  intro d hd
  rcases List.mem_append.1 hd with hd | hd
  · exact hds d hd
  · exact hes d hd

@[simp]
theorem length_increment (ds : List ℤ) : (increment ds).length = ds.length := by
  induction ds with
  | nil => rfl
  | cons d ds ih =>
    rw [increment]
    split
    · rfl
    · rw [List.length_cons, ih, List.length_cons]

theorem IsBits.increment {ds : List ℤ} (h : IsBits ds) : IsBits (increment ds) := by
  induction ds with
  | nil => exact h
  | cons d ds ih =>
    obtain ⟨-, hds⟩ := isBits_cons.1 h
    rw [BinaryDigits.increment]
    split
    · exact isBits_cons.2 ⟨Or.inr rfl, hds⟩
    · exact isBits_cons.2 ⟨Or.inl rfl, ih hds⟩

/-- Incrementing adds one, unless all of the bits are set and the carry falls off. -/
theorem IsBits.value_increment {ds : List ℤ} (h : IsBits ds) :
    value (BinaryDigits.increment ds) = value ds + 1 ∨
      value ds = 2 ^ ds.length - 1 ∧ BinaryDigits.increment ds = List.replicate ds.length 0 := by
  induction ds with
  | nil => exact Or.inr ⟨rfl, rfl⟩
  | cons d ds ih =>
    obtain ⟨hd, hds⟩ := isBits_cons.1 h
    rw [BinaryDigits.increment]
    rcases hd with rfl | rfl
    · left
      rw [if_pos rfl, value, value]
      ring
    · rw [if_neg one_ne_zero, value, value]
      rcases ih hds with hvalue | ⟨hones, hzeros⟩
      · left
        rw [hvalue]
        ring
      · right
        refine ⟨?_, by rw [hzeros, List.length_cons, List.replicate_succ]⟩
        rw [hones, List.length_cons, pow_succ]
        ring

/-- The bits of a number, from one of them on. -/
theorem value_bits (v s n : ℕ) :
    value ((List.range' s n).map fun i => ((v / 2 ^ i % 2 : ℕ) : ℤ)) = ((v / 2 ^ s % 2 ^ n : ℕ) : ℤ) := by
  induction n generalizing s with
  | zero => simp [value, Nat.mod_one]
  | succ n ih =>
    rw [List.range'_succ, List.map_cons, value, ih, pow_succ' 2 n, Nat.mod_mul, pow_succ, ← Nat.div_div_eq_div_mul]
    push_cast
    rfl

end BinaryDigits
