import MoneroOxide.Lib.Call
import MoneroOxide.Proofs

/-!
# MLSAGs (`ringct/mlsag/src/lib.rs`)

The ring matrix of an aggregate MLSAG is built by calls: the builder is a state which `push_ring` changes, also where it fails, so
that what it did until then stays. An MLSAG is verified by going around the ring once, member by member, each an array of entries of
which all but the last have a key image.
-/

namespace MoneroOxide

/-- `MlsagError`. -/
inductive MlsagError
  | InvalidRing
  | InvalidAmountOfKeyImages
  | InvalidSs
  | InvalidKeyImage
  | InvalidCi
  deriving DecidableEq

/-- `RingMatrix`: a matrix with more than one member, all of one length which is not zero. -/
structure RingMatrix (Γ : Ctx) where
  matrix : List (List Γ.Point)
  members : 2 ≤ matrix.length
  uniform : ∀ member ∈ matrix, ¬(member = [] ∨ member.length ≠ (matrix.headD []).length)

/-- `RingMatrix::new`. -/
def RingMatrix.new {Γ : Ctx} (matrix : List (List Γ.Point)) : Except MlsagError (RingMatrix Γ) :=
  if hmembers : matrix.length < 2 then .error .InvalidRing
  else if huniform : ∃ member ∈ matrix, member = [] ∨ member.length ≠ (matrix.headD []).length then .error .InvalidRing
  else .ok ⟨matrix, not_lt.1 hmembers, fun member hmember h => huniform ⟨member, hmember, h⟩⟩

/-- `AggregateRingMatrixBuilder`. There is an amount for each member of the rings. -/
@[ext]
structure AggregateRingMatrixBuilder (Γ : Ctx) where
  keyRing : List (List Γ.Point)
  amountsRing : List Γ.Point
  sumOut : Γ.Point
  length_eq : amountsRing.length = keyRing.length

namespace AggregateRingMatrixBuilder

variable {Γ : Ctx}

/-- A call on the builder. -/
abbrev Method (Γ : Ctx) (α : Type) : Type := EStateM MlsagError (AggregateRingMatrixBuilder Γ) α

/-- `AggregateRingMatrixBuilder::new`. -/
def new (Γ : Ctx) (commitments : List CompressedPoint) (fee : UInt64) : Except MlsagError (AggregateRingMatrixBuilder Γ) :=
  match commitments.mapM (CompressedPoint.decompress Γ) with
  | none => .error .InvalidRing
  | some commitments =>
    .ok { keyRing := [], amountsRing := [], sumOut := commitments.sum + (fee.toNat : Scalar) • Γ.H, length_eq := rfl }

/-- The length of the rings, now that it is known. -/
def start (builder : AggregateRingMatrixBuilder Γ) (len : ℕ) : AggregateRingMatrixBuilder Γ where
  keyRing := List.replicate len []
  amountsRing := List.replicate len (-builder.sumOut)
  sumOut := builder.sumOut
  length_eq := by simp

/-- `self.key_ring[i].push(..)`. -/
def pushKey (i : ℕ) (key : Γ.Point) (builder : AggregateRingMatrixBuilder Γ) : AggregateRingMatrixBuilder Γ :=
  { builder with keyRing := builder.keyRing.modify i (· ++ [key]), length_eq := by simp [builder.length_eq] }

/-- `self.amounts_ring[i] += ..`. -/
def addAmount (i : ℕ) (commitment : Γ.Point) (builder : AggregateRingMatrixBuilder Γ) : AggregateRingMatrixBuilder Γ :=
  { builder with amountsRing := builder.amountsRing.modify i (· + commitment), length_eq := by simp [builder.length_eq] }

/-- `decompress().ok_or(MlsagError::InvalidRing)?`. -/
def decompress (Γ : Ctx) (P : CompressedPoint) : Method Γ Γ.Point :=
  match CompressedPoint.decompress Γ P with
  | some point => pure point
  | none => throw .InvalidRing

/-- The loop of `push_ring` over the members from `i` on, each an output key and a commitment. -/
def pushMembers : ℕ → List (CompressedPoint × CompressedPoint) → Method Γ Unit
  | _, [] => pure ()
  | i, ringMember :: ring => do
    let key ← decompress Γ ringMember.1
    modify (pushKey i key)
    let commitment ← decompress Γ ringMember.2
    modify (addAmount i commitment)
    pushMembers (i + 1) ring

/-- `AggregateRingMatrixBuilder::push_ring`. -/
def pushRing (ring : List (CompressedPoint × CompressedPoint)) : Method Γ Unit := do
  if (← get).keyRing = [] then modify fun builder => builder.start ring.length
  if (← get).amountsRing.length ≠ ring.length ∨ ring = [] then throw .InvalidRing
  pushMembers 0 ring

/-- `AggregateRingMatrixBuilder::build`. -/
def build (builder : AggregateRingMatrixBuilder Γ) : Except MlsagError (RingMatrix Γ) :=
  RingMatrix.new (List.zipWith (fun keys amountCommitment => keys ++ [amountCommitment]) builder.keyRing builder.amountsRing)

end AggregateRingMatrixBuilder

/-! ## Verification -/

namespace RingMatrix

variable {Γ : Ctx}

/-- `decompress().ok_or(MlsagError::InvalidRing)?`. -/
def decomp (Γ : Ctx) (P : CompressedPoint) : Except MlsagError Γ.Point :=
  match CompressedPoint.decompress Γ P with
  | some point => .ok point
  | none => .error .InvalidRing

/-- `RingMatrix::individual`. -/
def individual (Γ : Ctx) (ring : List (CompressedPoint × CompressedPoint)) (pseudoOut : CompressedPoint) :
    Except MlsagError (RingMatrix Γ) := do
  let matrix ← ring.mapM fun ringMember => do
    let key ← decomp Γ ringMember.1
    let commitment ← decomp Γ ringMember.2
    let pseudoOut ← decomp Γ pseudoOut
    pure [key, commitment - pseudoOut]
  RingMatrix.new matrix

/-- `RingMatrix::member_len`. -/
def memberLen (ring : RingMatrix Γ) : ℕ := (ring.matrix.headD []).length

end RingMatrix

namespace Mlsag

variable (Γ : Ctx)

/-- What an entry of a member adds to the buffer. Entries which need not be linkable have no key image. -/
def entryBuf (ci : Scalar) (entry : Γ.Point) (s : Scalar) (ki : Option CompressedPoint) : Except MlsagError (List UInt8) :=
  let L := ci • entry + s • Γ.G
  let buf := (Γ.compress entry).toList ++ (Γ.compress L).toList
  match ki with
  | none => .ok buf
  | some ki =>
    match (CompressedPoint.decompress Γ ki).bind (Point.keyImage Γ) with
    | none => .error .InvalidKeyImage
    | some ki =>
      let R := s • Point.biasedHash Γ (Γ.compress entry) + ci • ki
      .ok (buf ++ (Γ.compress R).toList)

/-- The loop over the entries of a member, with their responses and key images. -/
def memberBuf (ci : Scalar) : List ((Γ.Point × Scalar) × Option CompressedPoint) → List UInt8 → Except MlsagError (List UInt8)
  | [], buf => .ok buf
  | ((entry, s), ki) :: entries, buf => do
    let added ← entryBuf Γ ci entry s ki
    memberBuf ci entries (buf ++ added)

/-- The loop over the members of the ring, with their responses. -/
def verifyLoop (msg : Bytes 32) (keyImages : List (Option CompressedPoint)) :
    List (List Γ.Point × List Scalar) → Scalar → Except MlsagError Scalar
  | [], ci => .ok ci
  | (ringMember, ss) :: members, ci =>
    if ringMember.length ≠ ss.length then .error .InvalidSs
    else do
      let buf ← memberBuf Γ ci ((ringMember.zip ss).zip keyImages) msg.toList
      verifyLoop msg keyImages members (Scalar.hash Γ buf)

/-- `Mlsag::verify`. There is no key image for the last layer. -/
def verify (mlsag : Mlsag) (msg : Bytes 32) (ring : RingMatrix Γ) (keyImages : List CompressedPoint) : Except MlsagError Unit :=
  if ring.memberLen ≠ keyImages.length + 1 then .error .InvalidAmountOfKeyImages
  else if ring.matrix.length ≠ mlsag.ss.length then .error .InvalidSs
  else do
    let ci ← verifyLoop Γ msg (keyImages.map some ++ [none]) (ring.matrix.zip mlsag.ss) mlsag.cc
    if ci ≠ mlsag.cc then .error .InvalidCi else .ok ()

end Mlsag

end MoneroOxide
