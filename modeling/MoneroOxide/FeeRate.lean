import MoneroOxide.Lib.Checked
import MoneroOxide.WalletOutput

/-!
# The arithmetic of fee rates (`interface/src/provides_fee_rates.rs`)

`FeeRate.calculateFeeFromWeight` computes with natural numbers. Here its operators are those of `u128`, which panic if they
overflow, and a weight is calculated from a fee as well.
-/

namespace MoneroOxide

namespace FeeRate

/-- `FeeRate::calculate_fee_from_weight`. -/
def checkedFeeFromWeight (feeRate : FeeRate) (weight : UInt64) : Except String ℕ := do
  let fee ← Checked.mul 128 feeRate.perWeight.toNat weight.toNat
  let quotient ← Checked.divCeil 128 fee feeRate.mask.toNat
  Checked.mul 128 quotient feeRate.mask.toNat

/-- `FeeRate::calculate_weight_from_fee`, with a `usize` of `usizeBits` bits: `none` if the weight does not fit within it. -/
def calculateWeightFromFee (usizeBits : ℕ) (feeRate : FeeRate) (fee : UInt64) : Except String (Option ℕ) := do
  let weight ← Checked.div fee.toNat feeRate.perWeight.toNat
  pure (if weight < 2 ^ usizeBits then some weight else none)

end FeeRate

end MoneroOxide
