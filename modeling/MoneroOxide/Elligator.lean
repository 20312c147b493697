import MoneroOxide.Lib.Pratt
import Mathlib.NumberTheory.LegendreSymbol.QuadraticReciprocity
import Mathlib.Tactic.LinearCombination

/-!
# Elligator 2 over Curve25519 (`ed25519/src/point.rs`)

`Point::biased_hash` maps a field element to the `u` coordinate of a point of Curve25519, the Montgomery curve
`v ^ 2 = u ^ 3 + 486662 * u ^ 2 + u`. Of two candidates it takes the first if it is on the curve and the other one if not, and it
expects the one taken to be on the curve. Here this is shown for every field element, so that the hash of a point is a point.
-/

namespace MoneroOxide

/-- The order of the base field of Ed25519. -/
def p : ℕ := 2 ^ 255 - 19

/-- The certificates of `p`, which is the last, and of the factors it takes. -/
def pCertificate : List Pratt.Entry := [
  ⟨32573, 2, [(2, 2), (17, 1), (479, 1)]⟩,
  ⟨65147, 2, [(2, 1), (32573, 1)]⟩,
  ⟨57467, 2, [(2, 1), (59, 1), (487, 1)]⟩,
  ⟨132049, 26, [(2, 4), (3, 2), (7, 1), (131, 1)]⟩,
  ⟨3727, 3, [(2, 1), (3, 4), (23, 1)]⟩,
  ⟨1923133, 2, [(2, 2), (3, 1), (43, 1), (3727, 1)]⟩,
  ⟨4153, 5, [(2, 3), (3, 1), (173, 1)]⟩,
  ⟨1723, 3, [(2, 1), (3, 1), (7, 1), (41, 1)]⟩,
  ⟨430751, 17, [(2, 1), (5, 3), (1723, 1)]⟩,
  ⟨31757755568855353, 10, [(2, 3), (3, 1), (31, 1), (107, 1), (223, 1), (4153, 1), (430751, 1)]⟩,
  ⟨9463, 3, [(2, 1), (3, 1), (19, 1), (83, 1)]⟩,
  ⟨37853, 2, [(2, 2), (9463, 1)]⟩,
  ⟨75707, 2, [(2, 1), (37853, 1)]⟩,
  ⟨2437, 2, [(2, 2), (3, 1), (7, 1), (29, 1)]⟩,
  ⟨569003, 2, [(2, 1), (7, 1), (97, 1), (419, 1)]⟩,
  ⟨2773320623, 5, [(2, 1), (2437, 1), (569003, 1)]⟩,
  ⟨72106336199, 7, [(2, 1), (13, 1), (2773320623, 1)]⟩,
  ⟨8574133, 2, [(2, 2), (3, 1), (7, 1), (103, 1), (991, 1)]⟩,
  ⟨1919519569386763, 2, [(2, 1), (3, 1), (7, 1), (19, 1), (47, 2), (127, 1), (8574133, 1)]⟩,
  ⟨75445702479781427272750846543864801, 7, [(2, 5), (3, 2), (5, 2), (75707, 1), (72106336199, 1), (1919519569386763, 1)]⟩,
  ⟨74058212732561358302231226437062788676166966415465897661863160754340907, 2, [(2, 1), (3, 1), (353, 1), (57467, 1),
    (132049, 1), (1923133, 1), (31757755568855353, 1), (75445702479781427272750846543864801, 1)]⟩,
  ⟨57896044618658097711785492504343953926634992332820282019728792003956564819949, 2, [(2, 2), (3, 1), (65147, 1),
    (74058212732561358302231226437062788676166966415465897661863160754340907, 1)]⟩]

/-- The field is of prime order. -/
theorem prime_p : Nat.Prime p := by
  have hmem : ∃ e ∈ pCertificate, e.p = p := ⟨_, List.getLast_mem (by simp [pCertificate]), rfl⟩
  obtain ⟨e, he, hp⟩ := hmem
  rw [← hp]
  exact Pratt.prime_of_checkChain (by simp) (by decide +kernel : Pratt.checkChain [] pCertificate = true) e he

instance : Fact (Nat.Prime p) := ⟨prime_p⟩

namespace Elligator

open Pratt

/-- `A`: the coefficient of Curve25519. -/
def A : ZMod p := 486662

/-- The right side of the equation of Curve25519. -/
def curve (u : ZMod p) : ZMod p := (u + A) * u ^ 2 + u

/-- `upsilon`: the first candidate. -/
def upsilon (r : ZMod p) : ZMod p := -A * (1 + (r ^ 2 + r ^ 2))⁻¹

/-- `other_candidate`. -/
def otherCandidate (r : ZMod p) : ZMod p := -upsilon r - A

/-- `is_quadratic_residue_8_mod_5`. -/
def isQuadraticResidue8Mod5 (value : ZMod p) : Bool :=
  let sqrtExp := p / 8 + 1
  let Z : ZMod p := (1 + 1) ^ (p / 4)
  let y := value ^ sqrtExp
  let otherCandidate := y * Z
  y ^ 2 = value ∨ otherCandidate ^ 2 = value

/-- `epsilon`: whether the first candidate is on the curve. -/
def epsilon (r : ZMod p) : Bool := isQuadraticResidue8Mod5 (curve (upsilon r))

/-- The `u` coordinate chosen. -/
def u (r : ZMod p) : ZMod p := if epsilon r then upsilon r else otherCandidate r

/-! ## Squares -/

theorem p_ne_two : p ≠ 2 := by decide +kernel

theorem not_isSquare_two : ¬IsSquare (2 : ZMod p) := by
  rw [ZMod.exists_sq_eq_two_iff p_ne_two]
  decide +kernel

theorem isSquare_neg_one : IsSquare (-1 : ZMod p) := by
  rw [ZMod.exists_sq_eq_neg_one_iff]
  decide +kernel

/-- The power that tells squares apart is minus one for what is not a square. -/
theorem pow_eq_neg_one {a : ZMod p} (h : ¬IsSquare a) : a ^ (p / 2) = -1 := by
  have ha : a ≠ 0 := by
    rintro rfl
    exact h IsSquare.zero
  rcases ZMod.pow_div_two_eq_neg_one_or_one p ha with h1 | h1
  · exact absurd ((ZMod.euler_criterion p ha).2 h1) h
  · exact h1

/-- The product of two elements that are not squares is a square. -/
theorem isSquare_mul {a b : ZMod p} (ha : ¬IsSquare a) (hb : ¬IsSquare b) : IsSquare (a * b) := by
  have hab : a * b ≠ 0 := by
    intro h
    rcases mul_eq_zero.1 h with rfl | rfl
    · exact ha IsSquare.zero
    · exact hb IsSquare.zero
  rw [ZMod.euler_criterion p hab, mul_pow, pow_eq_neg_one ha, pow_eq_neg_one hb]
  ring

/-- `is_quadratic_residue_8_mod_5` decides being a square. -/
theorem isQuadraticResidue_iff (value : ZMod p) : isQuadraticResidue8Mod5 value = true ↔ IsSquare value := by
  have h8 : (p / 8 + 1) * 2 = p / 4 + 1 := by decide +kernel
  have h4 : p / 4 * 2 = p / 2 := by decide +kernel
  have hZ : ((1 + 1 : ZMod p) ^ (p / 4)) ^ 2 = -1 := by
    rw [← pow_mul, h4, one_add_one_eq_two]
    exact pow_eq_neg_one not_isSquare_two
  simp only [isQuadraticResidue8Mod5, Bool.decide_or, Bool.or_eq_true, decide_eq_true_eq]
  constructor
  · rintro (h | h)
    · exact ⟨_, by rw [← pow_two, h]⟩
    · exact ⟨_, by rw [← pow_two, h]⟩
  · rintro ⟨w, rfl⟩
    have hy : ((w * w) ^ (p / 8 + 1)) ^ 2 = w ^ (p / 2) * (w * w) := by
      rw [← pow_mul, h8, pow_succ, ← pow_two, ← pow_mul, Nat.mul_comm 2, h4]
    by_cases hw : w = 0
    · left
      rw [hy, hw]
      ring
    · rcases ZMod.pow_div_two_eq_neg_one_or_one p hw with h | h
      · left
        rw [hy, h, one_mul]
      · right
        rw [mul_pow, hy, hZ, h]
        ring

/-! ## The candidates -/

/-- The denominator of the first candidate is not zero. -/
theorem one_add_ne_zero (r : ZMod p) : 1 + (r ^ 2 + r ^ 2) ≠ 0 := by
  intro h
  obtain ⟨i, hi⟩ := isSquare_neg_one
  have hr : r ≠ 0 := by
    rintro rfl
    simp at h
  refine not_isSquare_two ⟨i / r, ?_⟩
  field_simp
  linear_combination h + hi

/-- The candidates add up to `-A`, and differ by a factor that is not a square unless it is zero. -/
theorem otherCandidate_eq (r : ZMod p) : otherCandidate r = 2 * r ^ 2 * upsilon r := by
  have h := mul_inv_cancel₀ (one_add_ne_zero r)
  unfold otherCandidate upsilon
  linear_combination A * h

theorem curve_otherCandidate (r : ZMod p) : curve (otherCandidate r) = 2 * r ^ 2 * curve (upsilon r) := by
  have h : otherCandidate r + upsilon r + A = 0 := by
    unfold otherCandidate
    ring
  have h' := otherCandidate_eq r
  generalize otherCandidate r = w at h h' ⊢
  generalize upsilon r = v at h h' ⊢
  unfold curve
  linear_combination (w ^ 2 - w * v) * h + (v ^ 2 + A * v + 1) * h'

/-- The candidate chosen is on the curve. -/
theorem isSquare_curve_u (r : ZMod p) : IsSquare (curve (u r)) := by
  unfold u
  by_cases h : epsilon r = true
  · rw [if_pos h]
    exact (isQuadraticResidue_iff _).1 h
  · rw [if_neg h, curve_otherCandidate]
    have hv : ¬IsSquare (curve (upsilon r)) := fun hs => h ((isQuadraticResidue_iff _).2 hs)
    rw [mul_right_comm]
    exact (isSquare_mul not_isSquare_two hv).mul (IsSquare.sq r)

/-- A coordinate on the curve is not minus one, the only one the map to Ed25519 is not defined for. -/
theorem ne_neg_one {v : ZMod p} (h : IsSquare (curve v)) : v ≠ -1 := by
  rintro rfl
  have h0 : ((486660 : ℕ) : ZMod p) ≠ 0 := by
    rw [ne_eq, ZMod.natCast_eq_zero_iff]
    decide +kernel
  have hc : curve (-1) = ((486660 : ℕ) : ZMod p) := by
    unfold curve A
    norm_num
  have hk : p / 2 < 2 ^ 255 := by decide +kernel
  have hpow : powMod p 255 486660 (p / 2) ≠ 1 := by decide +kernel
  rw [hc, ZMod.euler_criterion p h0, pow_eq_one_iff (by decide +kernel), ← powMod_eq p 255 _ _ hk] at h
  exact hpow h

end Elligator

end MoneroOxide
