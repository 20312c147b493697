import MoneroOxide.UnreducedScalar
import MoneroOxide.Proofs

/-!
# Borromean range proofs (`ringct/borromean/src/lib.rs`)

There is a commitment for each of the 64 bits of an amount, and a ring of two for each of them: the commitment is to zero, or it is
to the power of two. No result stands for a panic.
-/

namespace MoneroOxide

/-- `H_pow_2`. -/
def HPow2 (Γ : Ctx) : List Γ.Point := List.iterate (fun P => P + P) Γ.H 64

namespace BorromeanSignatures

/-- The part of the transcript for the bit `i`. -/
def bitTranscript (Γ : Ctx) (sigs : BorromeanSignatures) (keysA keysB : List Γ.Point) (i : Fin 64) : Option (List UInt8) := do
  let s0 ← UnreducedScalar.ref10SlideScalarVartime (sigs.s0.get i)
  let LL := sigs.ee • (← keysA[i.val]?) + s0 • Γ.G
  let s1 ← UnreducedScalar.ref10SlideScalarVartime (sigs.s1.get i)
  let LV := Scalar.hash Γ (Γ.compress LL).toList • (← keysB[i.val]?) + s1 • Γ.G
  some (Γ.compress LV).toList

/-- `BorromeanSignatures::verify`. -/
def verify (Γ : Ctx) (sigs : BorromeanSignatures) (keysA keysB : List Γ.Point) : Option Bool := do
  let transcript ← (List.finRange 64).mapM (bitTranscript Γ sigs keysA keysB)
  some (decide (Scalar.hash Γ transcript.flatten = sigs.ee))

end BorromeanSignatures

namespace BorromeanRange

/-- `BorromeanRange::verify`. -/
def verify (Γ : Ctx) (range : BorromeanRange) (commitment : CompressedPoint) : Option Bool :=
  match range.bitCommitments.toList.mapM (CompressedPoint.decompress Γ) with
  | none => some false
  | some bitCommitments =>
    if Γ.compress bitCommitments.sum ≠ commitment then some false
    else range.sigs.verify Γ bitCommitments (List.zipWith (· - ·) bitCommitments (HPow2 Γ))

end BorromeanRange

end MoneroOxide
