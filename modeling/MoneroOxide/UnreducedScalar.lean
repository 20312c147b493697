import MoneroOxide.Ed25519

/-!
# Unreduced scalars (`ed25519/src/unreduced_scalar.rs`)

How `slide` of ref10 understands 32 bytes which are not a reduced scalar, which Borromean range proofs are verified with. The digits
are an array of `i8`, here integers that are checked to be in the range of one after each addition and subtraction. No result
stands for a panic: an overflow, an index out of range, or a conversion which is expected not to fail.
-/

namespace MoneroOxide

namespace UnreducedScalar

/-- The result of an operation on `i8`, which overflows if it is out of range. -/
def i8 (value : ℤ) : Option ℤ := if -128 ≤ value ∧ value ≤ 127 then some value else none

/-- `<<` on `i8`, which drops the bits shifted out. -/
def shl (value : ℤ) (b : ℕ) : ℤ := Int.bmod (value * 2 ^ b) 256

/-- `UnreducedScalar::as_bits`. -/
def asBits (scalar : UnreducedScalar) : List UInt8 :=
  (List.range 256).map fun i => 1 &&& (scalar.toList.getD (i / 8) 0 >>> UInt8.ofNat (i % 8))

/-- The loop over `k` that carries into the digits from `k` on, of which there are `n`. -/
def carry : ℕ → ℕ → List ℤ → Option (List ℤ)
  | 0, _, naf => some naf
  | n + 1, k, naf => do
    if (← naf[k]?) = 0 then some (naf.set k 1)
    else carry n (k + 1) (naf.set k 0)

/-- The loop over the window of the digit `i`, for the `b` left of it. -/
def window (i : ℕ) : List ℕ → List ℤ → Option (List ℤ)
  | [], naf => some naf
  | b :: bs, naf =>
    if 256 ≤ i + b then some naf
    else do
      let potentialCarry := shl (← naf[i + b]?) b
      if potentialCarry = 0 then window i bs naf
      else
        let digit ← naf[i]?
        let added ← i8 (digit + potentialCarry)
        if added ≤ 15 then window i bs ((naf.set i added).set (i + b) 0)
        else
          let subtracted ← i8 (digit - potentialCarry)
          if -15 ≤ subtracted then do
            let naf ← carry (256 - (i + b)) (i + b) (naf.set i subtracted)
            window i bs naf
          else some naf

/-- The loop over the digits from `i` on, of which there are `n`. -/
def slide : ℕ → ℕ → List ℤ → Option (List ℤ)
  | 0, _, naf => some naf
  | n + 1, i, naf => do
    let naf ← if (← naf[i]?) ≠ 0 then window i [1, 2, 3, 4, 5] naf else some naf
    slide n (i + 1) naf

/-- `UnreducedScalar::non_adjacent_form`. -/
def nonAdjacentForm (scalar : UnreducedScalar) : Option (List ℤ) := do
  let naf ← (asBits scalar).mapM fun bit => i8 bit.toNat
  slide 256 0 naf

/-- `PRECOMPUTED_SCALARS`. -/
def PRECOMPUTED_SCALARS : List Scalar := (List.range 8).map fun i => ((i * 2 + 1 : ℕ) : Scalar)

/-- The body of the loop over the digits, from the most significant one on. -/
def recoverStep (recovered : Scalar) (numb : ℤ) : Option Scalar := do
  let recovered := recovered + recovered
  if 0 < numb then return recovered + (← PRECOMPUTED_SCALARS[numb.toNat / 2]?)
  else if numb < 0 then
    let negated ← i8 (-numb)
    return recovered - (← PRECOMPUTED_SCALARS[negated.toNat / 2]?)
  else return recovered

/-- The scalar recovered from its digits. -/
def recover (naf : List ℤ) : Option Scalar := naf.reverse.foldlM recoverStep 0

/-- `UnreducedScalar::ref10_slide_scalar_vartime`. -/
def ref10SlideScalarVartime (scalar : UnreducedScalar) : Option Scalar :=
  if scalar.toList.getD 31 0 &&& 128 = 0 then some (Scalar.fromBytesModOrder scalar)
  else do recover (← nonAdjacentForm scalar)

end UnreducedScalar

end MoneroOxide
