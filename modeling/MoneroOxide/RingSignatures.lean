import MoneroOxide.Proofs

/-!
# Ring signatures (`src/ring_signatures.rs`)

The signatures of version 1 transactions. Each member of the ring has a challenge of its own, and these add up to the hash of the
transcript.
-/

namespace MoneroOxide

namespace RingSignature

variable (Γ : Ctx)

/-- The loop of `RingSignature::verify` over the members of the ring and their signatures: the transcript and the sum of the
challenges. There is no result where a member is not the encoding of a point. -/
def verifyLoop (keyImage : Γ.Point) : List (CompressedPoint × Signature) → List UInt8 → Scalar → Option (List UInt8 × Scalar)
  | [], buf, sum => some (buf, sum)
  | (ringMember, sig) :: members, buf, sum => do
    let decompRingMember ← CompressedPoint.decompress Γ ringMember
    let Li := sig.c • decompRingMember + sig.s • Γ.G
    let Ri := sig.s • Point.biasedHash Γ ringMember + sig.c • keyImage
    verifyLoop keyImage members (buf ++ (Γ.compress Li).toList ++ (Γ.compress Ri).toList) (sum + sig.c)

/-- `RingSignature::verify`. -/
def verify (signature : RingSignature) (msgHash : Bytes 32) (ring : List CompressedPoint) (keyImage : CompressedPoint) : Bool :=
  if ring.length ≠ signature.sigs.length then false
  else match (CompressedPoint.decompress Γ keyImage).bind (Point.keyImage Γ) with
    | none => false
    | some keyImage => match verifyLoop Γ keyImage (ring.zip signature.sigs) msgHash.toList 0 with
      | none => false
      | some (buf, sum) => decide (sum = Scalar.hash Γ buf)

end RingSignature

end MoneroOxide
