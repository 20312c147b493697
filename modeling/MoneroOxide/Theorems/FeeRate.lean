import Mathlib.Order.Bounds.Basic
import MoneroOxide.FeeRate
import MoneroOxide.Lib.Results

/-!
# Fee rates are exact

The product of a fee rate and a weight is at most `(2 ^ 64 - 1) ^ 2`, and rounding it up adds less than a mask, so that neither
overflows a `u128` (`mul_add_mask_lt`). What is rounded up is the least multiple of the mask which is not below. It follows that the
fee is monotone, and that the weight calculated from a fee, the largest one which the fee pays for, is not below the one it was
calculated from.
-/

namespace MoneroOxide

namespace FeeRate

/-- Rounding up. -/
theorem isLeast_roundUp {mask : ℕ} (hmask : 0 < mask) (n : ℕ) :
    IsLeast {fee | mask ∣ fee ∧ n ≤ fee} ((n + mask - 1) / mask * mask) := by
  have hlt := Nat.lt_div_mul_add (a := n + mask - 1) hmask
  refine ⟨⟨Nat.dvd_mul_left _ _, by omega⟩, ?_⟩
  rintro fee ⟨⟨quotient, rfl⟩, hle⟩
  have hquotient : (n + mask - 1) / mask < quotient + 1 := by
    refine (Nat.div_lt_iff_lt_mul hmask).2 ?_
    rw [Nat.add_mul, Nat.mul_comm quotient]
    omega
  rw [Nat.mul_comm mask]
  exact Nat.mul_le_mul_right _ (Nat.lt_succ_iff.1 hquotient)

variable (feeRate : FeeRate)

theorem perWeight_pos : 0 < feeRate.perWeight.toNat := by
  have h := feeRate.valid
  rw [not_or, ← UInt64.toNat_inj] at h
  exact Nat.pos_of_ne_zero h.1

theorem mask_pos : 0 < feeRate.mask.toNat := by
  have h := feeRate.valid
  rw [not_or, ← UInt64.toNat_inj (a := feeRate.mask)] at h
  exact Nat.pos_of_ne_zero h.2

/-- The product is further from the bound than the mask is from zero. -/
theorem mul_add_mask_lt (weight : UInt64) : feeRate.perWeight.toNat * weight.toNat + feeRate.mask.toNat < 2 ^ 128 := by
  have hweight := weight.toNat_lt
  have hperWeight := feeRate.perWeight.toNat_lt
  have hmask := feeRate.mask.toNat_lt
  have hmul : feeRate.perWeight.toNat * weight.toNat ≤ (2 ^ 64 - 1) * (2 ^ 64 - 1) := Nat.mul_le_mul (by omega) (by omega)
  omega

/-- The calculation does not overflow. -/
theorem checkedFeeFromWeight_eq (weight : UInt64) :
    feeRate.checkedFeeFromWeight weight = .ok (feeRate.calculateFeeFromWeight weight.toNat) := by
  have hlt := feeRate.mul_add_mask_lt weight
  have hmask := feeRate.mask_pos
  set fee := feeRate.perWeight.toNat * weight.toNat with hfee
  have hround : (fee + feeRate.mask.toNat - 1) / feeRate.mask.toNat * feeRate.mask.toNat ≤ fee + feeRate.mask.toNat - 1 :=
    Nat.div_mul_le_self _ _
  rw [checkedFeeFromWeight, Checked.mul_eq (by omega), Results.ok_bind, ← hfee, Checked.divCeil_eq (by omega) hmask,
    Results.ok_bind, Checked.mul_eq (by omega)]
  rfl

theorem isLeast_calculateFeeFromWeight (weight : ℕ) :
    IsLeast {fee | feeRate.mask.toNat ∣ fee ∧ feeRate.perWeight.toNat * weight ≤ fee} (feeRate.calculateFeeFromWeight weight) :=
  isLeast_roundUp feeRate.mask_pos _

/-- The quotient is the largest weight that a fee pays for. -/
theorem isGreatest_div (fee : ℕ) :
    IsGreatest {weight | feeRate.perWeight.toNat * weight ≤ fee} (fee / feeRate.perWeight.toNat) := by
  have hle : ∀ weight, feeRate.perWeight.toNat * weight ≤ fee ↔ weight ≤ fee / feeRate.perWeight.toNat := by
    intro weight
    rw [Nat.le_div_iff_mul_le feeRate.perWeight_pos, Nat.mul_comm]
  exact ⟨(hle _).2 le_rfl, fun weight h => (hle weight).1 h⟩

theorem calculateWeightFromFee_eq {usizeBits : ℕ} {fee : UInt64}
    (h : fee.toNat / feeRate.perWeight.toNat < 2 ^ usizeBits) :
    feeRate.calculateWeightFromFee usizeBits fee = .ok (some (fee.toNat / feeRate.perWeight.toNat)) := by
  rw [calculateWeightFromFee, Checked.div_eq feeRate.perWeight_pos, Results.ok_bind, if_pos h, Results.pure_eq]

/-- What holds of the fee for a weight. -/
structure Exact (feeRate : FeeRate) (weight : UInt64) (fee : ℕ) : Prop where
  /-- It is calculated without an overflow. -/
  calculated : feeRate.checkedFeeFromWeight weight = .ok fee
  /-- It is the least multiple of the mask that is not below the product. -/
  least : IsLeast {fee | feeRate.mask.toNat ∣ fee ∧ feeRate.perWeight.toNat * weight.toNat ≤ fee} fee
  /-- The fee for a heavier transaction is not lower. -/
  mono : ∀ weight' fee', weight ≤ weight' → feeRate.checkedFeeFromWeight weight' = .ok fee' → fee ≤ fee'
  /-- If it fits in a `u64`, and the quotient in a `usize`, the weight calculated from it is the largest one it pays for. -/
  inverse : ∀ (usizeBits : ℕ) (feeU64 : UInt64), feeU64.toNat = fee → fee / feeRate.perWeight.toNat < 2 ^ usizeBits →
    ∃ w, feeRate.calculateWeightFromFee usizeBits feeU64 = .ok (some w) ∧ weight.toNat ≤ w ∧
      IsGreatest {w | feeRate.perWeight.toNat * w ≤ fee} w

/-- Fee rates are exact. -/
theorem feeRate_exact {perWeight mask : UInt64} {feeRate : FeeRate} (h : new perWeight mask = some feeRate) (weight : UInt64) :
    (feeRate.perWeight = perWeight ∧ feeRate.mask = mask) ∧ ∃ fee, feeRate.Exact weight fee := by
  have hfields : feeRate.perWeight = perWeight ∧ feeRate.mask = mask := by
    rw [new] at h
    split at h
    · cases h
    · cases h
      exact ⟨rfl, rfl⟩
  have hleast := feeRate.isLeast_calculateFeeFromWeight weight.toNat
  refine ⟨hfields, feeRate.calculateFeeFromWeight weight.toNat, feeRate.checkedFeeFromWeight_eq weight, hleast, ?_, ?_⟩
  · intro weight' fee' hle hfee'
    rw [checkedFeeFromWeight_eq, Except.ok.injEq] at hfee'
    obtain ⟨⟨hdvd, hle'⟩, -⟩ := feeRate.isLeast_calculateFeeFromWeight weight'.toNat
    rw [← hfee']
    exact hleast.2 ⟨hdvd, (Nat.mul_le_mul_left _ hle).trans hle'⟩
  · intro usizeBits feeU64 hfee hfits
    rw [← hfee] at hfits hleast ⊢
    have hgreatest := feeRate.isGreatest_div feeU64.toNat
    exact ⟨_, feeRate.calculateWeightFromFee_eq hfits, hgreatest.2 hleast.1.2, hgreatest⟩

theorem feeRate_exact_highest :
    ∃ feeRate, new 0xffffffffffffffff 0xfffffffffffffffe = some feeRate ∧ ∃ fee, feeRate.Exact 0xffffffffffffffff fee := by
  obtain ⟨feeRate, h⟩ : ∃ feeRate, new 0xffffffffffffffff 0xfffffffffffffffe = some feeRate := ⟨_, rfl⟩
  exact ⟨feeRate, h, (feeRate_exact h _).2⟩

end FeeRate

end MoneroOxide
