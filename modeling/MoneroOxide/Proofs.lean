import MoneroOxide.Ed25519

/-!
# The proofs within a transaction, as data

What a transaction carries to show it is valid, with the encoding of each: ring signatures (`src/ring_signatures.rs`), Borromean
range proofs (`ringct/borromean`), MLSAGs (`ringct/mlsag`), CLSAGs (`ringct/clsag`) and Bulletproofs (`ringct/bulletproofs`).
Points are kept compressed, as the source keeps them.

A reader of one of these takes the lengths that the encoding leaves out, and so has its own predicate on what it reads.
-/

namespace MoneroOxide

/-- `Signature`: one member's part of a ring signature. -/
structure Signature where
  c : Scalar
  s : Scalar
  deriving DecidableEq

namespace Signature

/-- `Signature::write`. -/
def write (sig : Signature) : List UInt8 := sig.c.write ++ sig.s.write

/-- `Signature::read`. -/
def read : Read Signature := do
  let c ← Scalar.read
  let s ← Scalar.read
  pure { c, s }

end Signature

/-- `RingSignature`: the signature of a version 1 transaction for one of its inputs. -/
structure RingSignature where
  sigs : List Signature
  deriving DecidableEq

namespace RingSignature

/-- `RingSignature::write`. -/
def write (sig : RingSignature) : List UInt8 := writeRawVec Signature.write sig.sigs

/-- `RingSignature::read`. -/
def read (members : ℕ) : Read RingSignature := do
  let sigs ← readRawVec Signature.read members
  pure { sigs }

end RingSignature

/-- `BorromeanSignatures`: 64 ring signatures, one for each bit. The responses need not be reduced. -/
structure BorromeanSignatures where
  s0 : List.Vector UnreducedScalar 64
  s1 : List.Vector UnreducedScalar 64
  ee : Scalar
  deriving DecidableEq

namespace BorromeanSignatures

/-- `BorromeanSignatures::write`. -/
def write (sigs : BorromeanSignatures) : List UInt8 :=
  writeRawVec Bytes.toList sigs.s0.toList ++ writeRawVec Bytes.toList sigs.s1.toList ++ sigs.ee.write

/-- `BorromeanSignatures::read`. -/
def read : Read BorromeanSignatures := do
  let s0 ← readArray (readBytes 32) 64
  let s1 ← readArray (readBytes 32) 64
  let ee ← Scalar.read
  pure { s0, s1, ee }

end BorromeanSignatures

/-- `BorromeanRange`: a range proof of before Bulletproofs. -/
structure BorromeanRange where
  sigs : BorromeanSignatures
  bitCommitments : List.Vector CompressedPoint 64
  deriving DecidableEq

namespace BorromeanRange

/-- `BorromeanRange::write`. -/
def write (range : BorromeanRange) : List UInt8 :=
  range.sigs.write ++ writeRawVec CompressedPoint.write range.bitCommitments.toList

/-- `BorromeanRange::read`. -/
def read : Read BorromeanRange := do
  let sigs ← BorromeanSignatures.read
  let bitCommitments ← readArray CompressedPoint.read 64
  pure { sigs, bitCommitments }

end BorromeanRange

/-- `Mlsag`. -/
structure Mlsag where
  ss : List (List Scalar)
  cc : Scalar
  deriving DecidableEq

namespace Mlsag

/-- `Mlsag::write`. -/
def write (mlsag : Mlsag) : List UInt8 := writeRawVec (writeRawVec Scalar.write) mlsag.ss ++ mlsag.cc.write

/-- `Mlsag::read`. -/
def read (decoys ss2Elements : ℕ) : Read Mlsag := do
  let ss ← readRawVec (readRawVec Scalar.read ss2Elements) decoys
  let cc ← Scalar.read
  pure { ss, cc }

end Mlsag

/-- `Clsag`. -/
structure Clsag where
  D : CompressedPoint
  s : List Scalar
  c1 : Scalar
  deriving DecidableEq

namespace Clsag

/-- `Clsag::write`. -/
def write (clsag : Clsag) : List UInt8 := writeRawVec Scalar.write clsag.s ++ clsag.c1.write ++ clsag.D.write

/-- `Clsag::read`. -/
def read (decoys : ℕ) : Read Clsag := do
  let s ← readRawVec Scalar.read decoys
  let c1 ← Scalar.read
  let D ← CompressedPoint.read
  pure { D, s, c1 }

end Clsag

/-- `original::IpProof`: an inner-product argument. -/
structure IpProof where
  L : List CompressedPoint
  R : List CompressedPoint
  a : Scalar
  b : Scalar
  deriving DecidableEq

/-- `original::AggregateRangeProof`: a Bulletproof. -/
structure Original.AggregateRangeProof where
  A : CompressedPoint
  S : CompressedPoint
  T1 : CompressedPoint
  T2 : CompressedPoint
  tauX : Scalar
  mu : Scalar
  tHat : Scalar
  ip : IpProof
  deriving DecidableEq

/-- `plus::WipProof`: a weighted inner-product argument. -/
structure WipProof where
  L : List CompressedPoint
  R : List CompressedPoint
  A : CompressedPoint
  B : CompressedPoint
  rAnswer : Scalar
  sAnswer : Scalar
  deltaAnswer : Scalar
  deriving DecidableEq

/-- `plus::AggregateRangeProof`: a Bulletproof+. -/
structure Plus.AggregateRangeProof where
  A : CompressedPoint
  wip : WipProof
  deriving DecidableEq

/-- `Bulletproof`: a range proof of either kind. -/
inductive Bulletproof where
  | original (bp : Original.AggregateRangeProof)
  | plus (bp : Plus.AggregateRangeProof)
  deriving DecidableEq

namespace Bulletproof

/-- `MAX_BULLETPROOF_COMMITMENTS`: the most commitments one proof may be for. -/
def MAX_COMMITMENTS : ℕ := 16

/-- `COMMITMENT_BITS`. -/
def COMMITMENT_BITS : ℕ := 64

/-- `LOG_COMMITMENT_BITS`. -/
def LOG_COMMITMENT_BITS : ℕ := Nat.log2 COMMITMENT_BITS

/-- `MAX_LR`: the maximum length of the `L` and `R` lists. -/
def MAX_LR : ℕ := Nat.log2 MAX_COMMITMENTS + LOG_COMMITMENT_BITS

/-- `Bulletproof::write_core`: the lists of points are written by the function given. -/
def writeCore (specificWriteVec : List CompressedPoint → List UInt8) : Bulletproof → List UInt8
  | .original bp =>
    bp.A.write ++ bp.S.write ++ bp.T1.write ++ bp.T2.write ++ bp.tauX.write ++ bp.mu.write ++
      specificWriteVec bp.ip.L ++ specificWriteVec bp.ip.R ++ bp.ip.a.write ++ bp.ip.b.write ++ bp.tHat.write
  | .plus bp =>
    bp.A.write ++ bp.wip.A.write ++ bp.wip.B.write ++
      bp.wip.rAnswer.write ++ bp.wip.sAnswer.write ++ bp.wip.deltaAnswer.write ++
      specificWriteVec bp.wip.L ++ specificWriteVec bp.wip.R

/-- `Bulletproof::signature_write`: as part of what is signed, the lists carry no lengths. -/
def signatureWrite (bp : Bulletproof) : List UInt8 := bp.writeCore (writeRawVec CompressedPoint.write)

/-- `Bulletproof::write`. -/
def write (bp : Bulletproof) : List UInt8 := bp.writeCore (writeVec CompressedPoint.write)

/-- `Bulletproof::read`: read a Bulletproof. -/
def read : Read Bulletproof := do
  let A ← CompressedPoint.read
  let S ← CompressedPoint.read
  let T1 ← CompressedPoint.read
  let T2 ← CompressedPoint.read
  let tauX ← Scalar.read
  let mu ← Scalar.read
  let L ← readVec CompressedPoint.read (some MAX_LR)
  let R ← readVec CompressedPoint.read (some MAX_LR)
  let a ← Scalar.read
  let b ← Scalar.read
  let tHat ← Scalar.read
  pure (.original { A, S, T1, T2, tauX, mu, tHat, ip := { L, R, a, b } })

/-- `Bulletproof::read_plus`: read a Bulletproof+. -/
def readPlus : Read Bulletproof := do
  let A ← CompressedPoint.read
  let wipA ← CompressedPoint.read
  let B ← CompressedPoint.read
  let rAnswer ← Scalar.read
  let sAnswer ← Scalar.read
  let deltaAnswer ← Scalar.read
  let L ← readVec CompressedPoint.read (some MAX_LR)
  let R ← readVec CompressedPoint.read (some MAX_LR)
  pure (.plus { A, wip := { A := wipA, B, rAnswer, sAnswer, deltaAnswer, L, R } })

/-- `Bulletproof::bp_fields`. -/
def bpFields (plus : Bool) : ℕ := if plus then 6 else 9

/-- The loop of `calculate_clawback`: the least `LR_len` from the given one on for which `1 << LR_len`, the padded amount of
outputs, reaches `n`. -/
def padLoop (n LRLen : ℕ) : ℕ := if 2 ^ LRLen < n then padLoop n (LRLen + 1) else LRLen
termination_by n - 2 ^ LRLen
decreasing_by
  have := Nat.pow_lt_pow_succ (a := 2) (n := LRLen) (by omega)
  omega

/-- `Bulletproof::calculate_clawback`: the clawback within the weight of a transaction, and the length of `L` and `R`. -/
def calculateClawback (plus : Bool) (nOutputs : ℕ) : ℕ × ℕ :=
  let padLog := padLoop (min nOutputs MAX_COMMITMENTS) 0
  let nPaddedOutputs := 2 ^ padLog
  let LRLen := padLog + LOG_COMMITMENT_BITS
  let clawback :=
    if 2 < nPaddedOutputs then
      let fields := bpFields plus
      let base := ((fields + 2 * (LOG_COMMITMENT_BITS + 1)) * 32) / 2
      let size := (fields + 2 * LRLen) * 32
      (base * nPaddedOutputs - size) * 4 / 5
    else 0
  (clawback, LRLen)

end Bulletproof

/-! ## What the readers read

Each proof inverts the reader one operation at a time; what is left is the bytes of the fields in the order they are written.
-/

theorem Signature.reads_read : Reader.Reads Signature.read (fun _ => True) Signature.write := by
  rintro s ⟨c, sc⟩ rest
  simp [Signature.read, Signature.write]

theorem RingSignature.reads_read (members : ℕ) :
    Reader.Reads (RingSignature.read members) (fun sig => sig.sigs.length = members) RingSignature.write := by
  rintro s ⟨sigs⟩ rest
  simp [RingSignature.read, RingSignature.write, (reads_readRawVec Signature.reads_read members).iff]

theorem BorromeanSignatures.reads_read :
    Reader.Reads BorromeanSignatures.read (fun _ => True) BorromeanSignatures.write := by
  rintro s ⟨s0, s1, ee⟩ rest
  simp [BorromeanSignatures.read, BorromeanSignatures.write, (reads_readArray (reads_bytes 32) 64).iff]

theorem BorromeanRange.reads_read : Reader.Reads BorromeanRange.read (fun _ => True) BorromeanRange.write := by
  rintro s ⟨sigs, bitCommitments⟩ rest
  simp [BorromeanRange.read, BorromeanRange.write, BorromeanSignatures.reads_read.iff,
    (reads_readArray CompressedPoint.reads_read 64).iff]

/-- The MLSAGs over a ring of `decoys` members with `ss2Elements` responses for each. -/
def Mlsag.HasShape (decoys ss2Elements : ℕ) (mlsag : Mlsag) : Prop :=
  mlsag.ss.length = decoys ∧ ∀ ss ∈ mlsag.ss, ss.length = ss2Elements

theorem Mlsag.reads_read (decoys ss2Elements : ℕ) :
    Reader.Reads (Mlsag.read decoys ss2Elements) (Mlsag.HasShape decoys ss2Elements) Mlsag.write := by
  rintro s ⟨ss, cc⟩ rest
  simp [Mlsag.read, Mlsag.write, Mlsag.HasShape,
    (reads_readRawVec (reads_readRawVec Scalar.reads_read ss2Elements) decoys).iff, and_assoc]

theorem Clsag.reads_read (decoys : ℕ) :
    Reader.Reads (Clsag.read decoys) (fun clsag => clsag.s.length = decoys) Clsag.write := by
  rintro s ⟨D, sv, c1⟩ rest
  simp [Clsag.read, Clsag.write, (reads_readRawVec Scalar.reads_read decoys).iff]

namespace Bulletproof

/-- A proof is one of the original Bulletproofs. -/
def isOriginal : Bulletproof → Bool
  | .original _ => true
  | .plus _ => false

/-- The `L` and the `R` of a proof. -/
def LR : Bulletproof → List CompressedPoint × List CompressedPoint
  | .original bp => (bp.ip.L, bp.ip.R)
  | .plus bp => (bp.wip.L, bp.wip.R)

/-- The lists of a proof are no longer than the code accepts. -/
def Bounded (bp : Bulletproof) : Prop := bp.LR.1.length ≤ MAX_LR ∧ bp.LR.2.length ≤ MAX_LR

theorem lengthOk_maxLR {n : ℕ} : lengthOk (some MAX_LR) n ↔ n ≤ MAX_LR := by
  have : MAX_LR < 2 ^ 64 := by decide
  simp only [lengthOk, Option.some.injEq, forall_eq']
  omega

theorem reads_read : Reader.Reads Bulletproof.read (fun bp => bp.isOriginal = true ∧ bp.Bounded) Bulletproof.write := by
  intro s bp rest
  cases bp with
  | original bp =>
    obtain ⟨A, S, T1, T2, tauX, mu, tHat, L, R, a, b⟩ := bp
    simp [Bulletproof.read, Bulletproof.write, writeCore, isOriginal, Bounded, LR,
      (reads_readVec CompressedPoint.reads_read (some MAX_LR)).iff, lengthOk_maxLR, and_assoc, and_left_comm]
  | plus bp => simp [Bulletproof.read, isOriginal]

theorem reads_readPlus :
    Reader.Reads Bulletproof.readPlus (fun bp => bp.isOriginal = false ∧ bp.Bounded) Bulletproof.write := by
  intro s bp rest
  cases bp with
  | original bp => simp [Bulletproof.readPlus, isOriginal]
  | plus bp =>
    obtain ⟨A, L, R, wipA, B, rAnswer, sAnswer, deltaAnswer⟩ := bp
    simp [Bulletproof.readPlus, Bulletproof.write, writeCore, isOriginal, Bounded, LR,
      (reads_readVec CompressedPoint.reads_read (some MAX_LR)).iff, lengthOk_maxLR, and_assoc, and_left_comm]

end Bulletproof

end MoneroOxide
