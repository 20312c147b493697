import Mathlib.Algebra.BigOperators.Group.Finset.Basic
import Mathlib.Algebra.BigOperators.Ring.Finset
import Mathlib.Algebra.Field.Basic
import Mathlib.Algebra.Module.BigOperators
import Mathlib.Data.Nat.Bitwise
import Mathlib.Tactic.Abel
import Mathlib.Tactic.LinearCombination
import Mathlib.Tactic.Module

/-!
# Folding of inner products

The algebra of an inner-product argument: a combination of coefficients and generators is folded in halves by a challenge
(`combine_fold`), and the generators folded by a list of challenges are a combination of the first ones, with a product of
challenges and inverses selected by the bits of the index as coefficients (`folded_cons`).
-/

namespace InnerProduct

open Finset

variable {F M : Type*} [Field F] [AddCommGroup M] [Module F M]

/-- The combination of the first `n` generators. With the scalars as generators it is the inner product. -/
def combine (n : ℕ) (a : ℕ → F) (g : ℕ → M) : M := ∑ i ∈ range n, a i • g i

theorem combine_congr {n : ℕ} {a a' : ℕ → F} {g g' : ℕ → M} (ha : ∀ i < n, a i = a' i) (hg : ∀ i < n, g i = g' i) :
    combine n a g = combine n a' g' := by
  refine sum_congr rfl fun i hi => ?_
  rw [ha i (mem_range.1 hi), hg i (mem_range.1 hi)]

/-- Coefficients of zero do not count. -/
theorem combine_eq_zero {n : ℕ} {a : ℕ → F} (ha : ∀ i < n, a i = 0) (g : ℕ → M) : combine n a g = 0 := by
  refine sum_eq_zero fun i hi => ?_
  rw [ha i (mem_range.1 hi), zero_smul]

theorem combine_one (a : ℕ → F) (g : ℕ → M) : combine 1 a g = a 0 • g 0 := sum_range_one _

theorem combine_add (m n : ℕ) (a : ℕ → F) (g : ℕ → M) :
    combine (m + n) a g = combine m a g + combine n (fun i => a (m + i)) fun i => g (m + i) := sum_range_add _ _ _

theorem combine_add_left (n : ℕ) (a b : ℕ → F) (g : ℕ → M) :
    combine n (fun i => a i + b i) g = combine n a g + combine n b g := by
  simp only [combine, add_smul, sum_add_distrib]

theorem combine_sub_left (n : ℕ) (a b : ℕ → F) (g : ℕ → M) :
    combine n (fun i => a i - b i) g = combine n a g - combine n b g := by
  simp only [combine, sub_smul, sum_sub_distrib]

theorem combine_smul_left (n : ℕ) (c : F) (a : ℕ → F) (g : ℕ → M) :
    combine n (fun i => c * a i) g = c • combine n a g := by
  simp only [combine, mul_smul, smul_sum]

/-- The coefficients may be moved to the generators. -/
theorem combine_mul_left (n : ℕ) (a b : ℕ → F) (g : ℕ → M) :
    combine n (fun i => a i * b i) g = combine n a fun i => b i • g i := by
  simp only [combine, mul_smul]

/-- Folding in halves by a challenge `x` with the inverse `w`, where the second half is weighted by `Y` with the inverse `Y'`: the
combination of what is folded is that of the whole, and the two cross terms. -/
theorem combine_fold {x w Y Y' : F} (hx : x * w = 1) (hY : Y * Y' = 1) (n : ℕ) (a : ℕ → F) (g : ℕ → M) :
    combine n (fun i => a i * x + a (n + i) * (Y * w)) (fun i => w • g i + (x * Y') • g (n + i)) =
      combine (n + n) a g + (x * x) • combine n (fun i => a i * Y') (fun i => g (n + i)) +
        (w * w) • combine n (fun i => a (n + i) * Y) g := by
  rw [combine_add]
  simp only [combine, smul_sum, ← sum_add_distrib]
  refine sum_congr rfl fun i _ => ?_
  match_scalars
  · linear_combination a i * hx
  · linear_combination a (n + i) * (Y * Y' * hx + hY)

/-- What an inner-product argument is about: two vectors are committed to, and their inner product, weighted by `y`. -/
def relation (n : ℕ) (y a b : ℕ → F) (g h : ℕ → M) (u : M) : M :=
  combine n a g + combine n b h + combine n a (fun i => b i * y i) • u

/-- One round of an inner-product argument. -/
theorem relation_fold {x w Y Y' : F} (hx : x * w = 1) (hY : Y * Y' = 1) (n : ℕ) {y : ℕ → F} (hy : ∀ i < n, y (n + i) = Y * y i)
    (a b : ℕ → F) (g h : ℕ → M) (u : M) :
    relation n y (fun i => a i * x + a (n + i) * (Y * w)) (fun i => b i * w + b (n + i) * x)
        (fun i => w • g i + (x * Y') • g (n + i)) (fun i => x • h i + w • h (n + i)) u =
      relation (n + n) y a b g h u +
        (x * x) • (combine n (fun i => a i * Y') (fun i => g (n + i)) + combine n (fun i => b (n + i)) h +
          combine n a (fun i => b (n + i) * y i) • u) +
        (w * w) • (combine n (fun i => a (n + i) * Y) g + combine n b (fun i => h (n + i)) +
          combine n (fun i => a (n + i) * Y) (fun i => b i * y i) • u) := by
  have hg := combine_fold hx hY n a g
  have hh := combine_fold ((mul_comm w x).trans hx) (one_mul (1 : F)) n b h
  have hyFold := combine_fold hx hY n a fun i => b i * y i
  have hweights : combine n (fun i => a i * x + a (n + i) * (Y * w))
    (fun i => w • (b i * y i) + (x * Y') • (b (n + i) * y (n + i))) =
      combine n (fun i => a i * x + a (n + i) * (Y * w)) fun i => (b i * w + b (n + i) * x) * y i := by
    refine combine_congr (fun _ _ => rfl) fun i hi => ?_
    rw [hy i hi, smul_eq_mul, smul_eq_mul]
    linear_combination x * b (n + i) * y i * hY
  have hleft : combine n (fun i => a i * Y') (fun i => b (n + i) * y (n + i)) = combine n a fun i => b (n + i) * y i := by
    refine sum_congr rfl fun i hi => ?_
    show a i * Y' * (b (n + i) * y (n + i)) = a i * (b (n + i) * y i)
    rw [hy i (mem_range.1 hi)]
    linear_combination a i * b (n + i) * y i * hY
  simp only [mul_one, one_mul] at hh
  rw [hweights, hleft] at hyFold
  rw [relation, relation, hg, hh, hyFold]
  simp only [add_smul, smul_add, smul_smul, smul_eq_mul]
  abel

/-- The product of challenges and inverses that the bits of an index select, where the first challenge is selected by the highest
bit. -/
def bitProduct : List (F × F) → ℕ → F
  | [], _ => 1
  | (x, w) :: challenges, i => (if i.testBit challenges.length then x else w) * bitProduct challenges i

/-- Bits above those of the challenges do not matter. -/
theorem bitProduct_add (challenges : List (F × F)) {k : ℕ} (hk : challenges.length ≤ k) (i : ℕ) :
    bitProduct challenges (2 ^ k + i) = bitProduct challenges i := by
  induction challenges generalizing k with
  | nil => rfl
  | cons challenge challenges ih =>
    have hlt : challenges.length < k := hk
    rw [bitProduct, bitProduct, ih (by omega), Nat.testBit_two_pow_add_gt hlt]

/-- A last challenge is selected by the lowest bit. -/
theorem bitProduct_concat (challenges : List (F × F)) (x w : F) (i : ℕ) :
    bitProduct (challenges ++ [(x, w)]) i = bitProduct challenges (i / 2) * if i.testBit 0 then x else w := by
  induction challenges with
  | nil => simp [bitProduct]
  | cons challenge challenges ih =>
    rw [List.cons_append, bitProduct, ih, bitProduct, List.length_append, List.length_singleton, Nat.testBit_succ]
    ring

/-- The complement of an index selects the inverses where the index selects the challenges. -/
theorem bitProduct_complement (challenges : List (F × F)) {k : ℕ} (hk : challenges.length ≤ k) {i : ℕ} (hi : i < 2 ^ k) :
    bitProduct challenges (2 ^ k - 1 - i) = bitProduct (challenges.map Prod.swap) i := by
  have hsub : 2 ^ k - 1 - i = 2 ^ k - (i + 1) := by omega
  induction challenges with
  | nil => rfl
  | cons challenge challenges ih =>
    have hlt : challenges.length < k := hk
    rw [List.map_cons, ← Prod.mk.eta (p := challenge), Prod.swap_prod_mk, bitProduct, bitProduct, ih (by omega), List.length_map, hsub, Nat.testBit_two_pow_sub_succ hi]
    cases hbit : i.testBit challenges.length <;> simp [hlt]

/-- What generators are folded to by a list of challenges, with the second halves weighted by powers of `y`. -/
def folded (challenges : List (F × F)) (y : F) (g : ℕ → M) : M :=
  combine (2 ^ challenges.length) (fun i => bitProduct challenges i * y ^ i) g

theorem folded_nil (y : F) (g : ℕ → M) : folded [] y g = g 0 := by
  simp [folded, combine_one, bitProduct]

/-- The first challenge folds the generators in halves. -/
theorem folded_cons (x w y : F) (challenges : List (F × F)) (g : ℕ → M) :
    folded ((x, w) :: challenges) y g =
      folded challenges y fun i => w • g i + (x * y ^ 2 ^ challenges.length) • g (2 ^ challenges.length + i) := by
  set n := 2 ^ challenges.length with hn
  have hlen : 2 ^ ((x, w) :: challenges).length = n + n := by rw [List.length_cons, Nat.pow_succ, hn]; ring
  rw [folded, folded, hlen, combine_add]
  simp only [combine, ← sum_add_distrib]
  refine sum_congr rfl fun i hi => ?_
  have hi : i < n := mem_range.1 hi
  have hlow : bitProduct ((x, w) :: challenges) i = w * bitProduct challenges i := by
    rw [bitProduct, Nat.testBit_lt_two_pow hi, if_neg (by decide)]
  have hhigh : bitProduct ((x, w) :: challenges) (n + i) = x * bitProduct challenges i := by
    rw [bitProduct, hn, Nat.testBit_two_pow_add_eq, Nat.testBit_lt_two_pow hi, bitProduct_add challenges le_rfl]
    rfl
  rw [hlow, hhigh]
  module

end InnerProduct
