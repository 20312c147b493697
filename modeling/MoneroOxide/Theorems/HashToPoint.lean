import MoneroOxide.Ed25519

/-!
# The hash to a point is a point

`Point::biased_hash` has one `expect`, on a candidate of Elligator 2 being the coordinate of a point. Here this is put together
from what Elligator.lean shows about the candidates of a field element, which is any the hash function gives.
-/

namespace MoneroOxide

namespace Elligator

theorem curve_eq (v : ZMod p) : curve v = v ^ 3 + A * v ^ 2 + v := by
  unfold curve
  ring

/-- At most one of the candidates has a non-zero square as the right side of its equation: the two differ by twice a square. -/
theorem not_both_isSquare (r : ZMod p) :
    ¬((curve (upsilon r) ≠ 0 ∧ IsSquare (curve (upsilon r))) ∧ curve (otherCandidate r) ≠ 0 ∧
    IsSquare (curve (otherCandidate r))) := by
  rintro ⟨⟨hv, a, ha⟩, hw, b, hb⟩
  rw [curve_otherCandidate, ha] at hb hw
  rw [ha] at hv
  have ha0 : a ≠ 0 := by
    rintro rfl
    simp at hv
  have hr0 : r ≠ 0 := by
    rintro rfl
    simp at hw
  refine not_isSquare_two ⟨b / (r * a), ?_⟩
  field_simp
  linear_combination hb

end Elligator

open Elligator in
/-- `Point::biased_hash` does not fail, whichever field element `r` the hash function gives. -/
theorem Point.biasedHash_expect (Γ : Ctx) :
    (∀ value : ZMod p, isQuadraticResidue8Mod5 value = true ↔ IsSquare value) ∧
    (∀ r : ZMod p, 1 + 2 * r ^ 2 ≠ 0 ∧ -upsilon r - A = 2 * r ^ 2 * upsilon r ∧
      u r = (if epsilon r then upsilon r else -upsilon r - A) ∧
      IsSquare (u r ^ 3 + A * u r ^ 2 + u r) ∧
      ¬((curve (upsilon r) ≠ 0 ∧ IsSquare (curve (upsilon r))) ∧
        curve (-upsilon r - A) ≠ 0 ∧ IsSquare (curve (-upsilon r - A))) ∧
      u r ≠ -1 ∧ ∀ sign, (Γ.toEdwards (leBytes 32 (u r).val) sign).isSome) ∧
    ∀ bytes : Bytes 32, ∃ res,
      Γ.toEdwards (leBytes 32 (u (hashToField Γ bytes)).val) (if epsilon (hashToField Γ bytes) then 1 else 0) = some res ∧
        biasedHash Γ bytes = 8 • res := by
  refine ⟨isQuadraticResidue_iff, ?_, ?_⟩
  · intro r
    have hsquare := isSquare_curve_u r
    refine ⟨?_, otherCandidate_eq r, rfl, ?_, not_both_isSquare r, ne_neg_one hsquare, ?_⟩
    · rw [two_mul]
      exact one_add_ne_zero r
    · rw [← curve_eq]
      exact hsquare
    · exact Γ.toEdwards_isSome _ (ne_neg_one hsquare) hsquare
  · intro bytes
    exact ⟨_, (Option.some_get _).symm, rfl⟩

end MoneroOxide
