import Mathlib.Algebra.Module.Basic
import Mathlib.Algebra.Field.Basic
import Mathlib.Tactic.Module

/-!
# Proofs of knowledge of a discrete logarithm

A response `s` to a challenge `c` is checked by computing the commitment `s • G + c • P` from it, where the prover has committed to
`r • G`. Two responses to different challenges with one commitment give the discrete logarithm away. Where two sums with independent
coefficients have known discrete logarithms, so do the summands.
-/

namespace Schnorr

variable {F V : Type} [Field F] [AddCommGroup V] [Module F V]

/-- The commitment which the response `s` to the challenge `c` is for, with the key `P`. -/
def commitment (G P : V) (c s : F) : V := s • G + c • P

/-- The response to a challenge, for the commitment `r • G`. -/
def respond (x r c : F) : F := r - c * x

/-- What two responses to different challenges give away. -/
def extract (c s c' s' : F) : F := (s' - s) / (c - c')

/-- Two responses to different challenges, with one commitment, give the discrete logarithm. -/
theorem extract_smul {G P : V} {c s c' s' : F} (hc : c ≠ c') (h : commitment G P c s = commitment G P c' s') :
    P = extract c s c' s' • G := by
  have hne : c - c' ≠ 0 := sub_ne_zero.2 hc
  have hsub : (c - c') • P = (s' - s) • G := by
    rw [sub_smul, sub_smul, sub_eq_sub_iff_add_eq_add, add_comm, add_comm (s' • G)]
    simp only [commitment] at h
    rw [h, add_comm]
  rw [extract, div_eq_inv_mul, mul_smul, ← hsub, smul_smul, inv_mul_cancel₀ hne, one_smul]

/-- Two equations for a sum with coefficients give both summands, if the coefficients are independent. -/
theorem eq_smul_of_two {G P C : V} {a b a' b' w w' : F} (hdet : a * b' - a' * b ≠ 0) (h : a • P + b • C = w • G)
    (h' : a' • P + b' • C = w' • G) :
    P = ((b' * w - b * w') / (a * b' - a' * b)) • G ∧ C = ((a * w' - a' * w) / (a * b' - a' * b)) • G := by
  have hP : (a * b' - a' * b) • P = (b' * w - b * w') • G := by
    have : (a * b' - a' * b) • P = b' • (a • P + b • C) - b • (a' • P + b' • C) := by module
    rw [this, h, h']
    module
  have hC : (a * b' - a' * b) • C = (a * w' - a' * w) • G := by
    have : (a * b' - a' * b) • C = a • (a' • P + b' • C) - a' • (a • P + b • C) := by module
    rw [this, h, h']
    module
  constructor
  · rw [div_eq_inv_mul, mul_smul, ← hP, smul_smul, inv_mul_cancel₀ hdet, one_smul]
  · rw [div_eq_inv_mul, mul_smul, ← hC, smul_smul, inv_mul_cancel₀ hdet, one_smul]

end Schnorr
