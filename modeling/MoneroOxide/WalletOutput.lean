import MoneroOxide.Clsag
import MoneroOxide.Extra

/-!
# Outputs as a wallet holds them (`wallet/src/output.rs`, `wallet/src/decoys.rs`)

An output as it was scanned, and an output to be spent with the decoys selected for it.
-/

namespace MoneroOxide

/-- `AbsoluteId`. -/
structure AbsoluteId where
  transaction : Bytes 32
  indexInTransaction : UInt64
  deriving DecidableEq

/-- `RelativeId`. -/
structure RelativeId where
  indexOnBlockchain : UInt64
  deriving DecidableEq

/-- `OutputData`. -/
structure OutputData (Γ : Ctx) where
  key : Γ.Point
  keyOffset : Scalar
  commitment : Commitment

/-- `Metadata`. -/
structure Metadata where
  additionalTimelock : Timelock
  subaddress : Option SubaddressIndex
  paymentId : Option PaymentId
  arbitraryData : List (List UInt8)
  deriving DecidableEq

/-- `WalletOutput`. -/
structure WalletOutput (Γ : Ctx) where
  absoluteId : AbsoluteId
  relativeId : RelativeId
  data : OutputData Γ
  metadata : Metadata

/-- Read a point, with the error for an encoding that is not one of a point. -/
def readPoint (Γ : Ctx) (message : String) : Read Γ.Point := do
  let compressed ← CompressedPoint.read
  match CompressedPoint.decompress Γ compressed with
  | some point => pure point
  | none => throw (.other message)

namespace OutputData

variable {Γ : Ctx}

/-- `OutputData::write`. -/
def write (data : OutputData Γ) : List UInt8 := (Γ.compress data.key).toList ++ data.keyOffset.write ++ data.commitment.write

/-- `OutputData::read`. -/
def read (Γ : Ctx) : Read (OutputData Γ) := do
  let key ← readPoint Γ "output data included an invalid key"
  let keyOffset ← Scalar.read
  let commitment ← Commitment.read
  pure { key, keyOffset, commitment }

end OutputData

namespace AbsoluteId

/-- `AbsoluteId::write`. -/
def write (id : AbsoluteId) : List UInt8 := id.transaction.toList ++ (u64Bytes id.indexInTransaction).toList

/-- `AbsoluteId::read`. -/
def read : Read AbsoluteId := do
  let transaction ← readBytes 32
  let indexInTransaction ← readU64
  pure { transaction, indexInTransaction }

end AbsoluteId

namespace RelativeId

/-- `RelativeId::write`. -/
def write (id : RelativeId) : List UInt8 := (u64Bytes id.indexOnBlockchain).toList

/-- `RelativeId::read`. -/
def read : Read RelativeId := do
  let indexOnBlockchain ← readU64
  pure { indexOnBlockchain }

end RelativeId

namespace Metadata

/-- The subaddress of an output, after whether there is one. -/
def writeSubaddress : Option SubaddressIndex → List UInt8
  | some subaddress => [1] ++ (u32Bytes subaddress.account).toList ++ (u32Bytes subaddress.address).toList
  | none => [0]

/-- The payment ID of an output, after whether there is one. -/
def writePaymentId : Option PaymentId → List UInt8
  | some paymentId => [1] ++ paymentId.write
  | none => [0]

/-- A piece of arbitrary data, after its length. The source panics on one the length of which is not a `u8`. -/
def writePart (part : List UInt8) : Option (List UInt8) :=
  if part.length < 2 ^ 8 then some (UInt8.ofNat part.length :: part) else none

/-- `Metadata::write`. -/
def write (metadata : Metadata) : Option (List UInt8) := do
  let parts ← metadata.arbitraryData.mapM writePart
  some (metadata.additionalTimelock.write ++ writeSubaddress metadata.subaddress ++ writePaymentId metadata.paymentId ++
    VarInt.write metadata.arbitraryData.length ++ parts.flatten)

/-- What `Metadata::read` reads as the subaddress. -/
def readSubaddress : Read (Option SubaddressIndex) := do
  let isSome ← readByte
  if isSome = 0 then pure none
  else if isSome = 1 then do
    let account ← readU32
    let address ← readU32
    match SubaddressIndex.new account address with
    | some subaddress => pure (some subaddress)
    | none => throw (.other "invalid subaddress in metadata")
  else throw (.other "invalid subaddress is_some boolean in metadata")

/-- `Result::ok`, of what a reader returns: an error is taken for none, with what was read until then gone. -/
def readOk {α : Type} (read : Read α) : Read (Option α) := fun s =>
  match read s with
  | .ok a rest => .ok (some a) rest
  | .error _ rest => .ok none rest

/-- What `Metadata::read` reads as the payment ID. -/
def readPaymentId : Read (Option PaymentId) := do
  let isSome ← readByte
  if isSome = 1 then readOk PaymentId.read else pure none

/-- The loop over the chunks of arbitrary data, the ones read so far being `totalLen` long. -/
def readChunks : ℕ → ℕ → Read (List (List UInt8))
  | 0, _ => pure []
  | chunks + 1, totalLen => do
    let len ← readByte
    let chunk ← readRawVec readByte len.toNat
    let totalLen := totalLen + chunk.length
    if MAX_EXTRA_SIZE_BY_RELAY_RULE < totalLen then
      throw (.other "amount of arbitrary data exceeded amount allowed by policy")
    else do
      let data ← readChunks chunks totalLen
      pure (chunk :: data)

/-- What `Metadata::read` reads as the arbitrary data. -/
def readArbitraryData : Read (List (List UInt8)) := do
  let chunks ← VarInt.readU64
  if MAX_EXTRA_SIZE_BY_RELAY_RULE < chunks.toNat then
    throw (.other "amount of arbitrary data chunks exceeded amount possible under policy")
  else readChunks chunks.toNat 0

/-- `Metadata::read`. -/
def read : Read Metadata := do
  let additionalTimelock ← Timelock.read
  let subaddress ← readSubaddress
  let paymentId ← readPaymentId
  let arbitraryData ← readArbitraryData
  pure { additionalTimelock, subaddress, paymentId, arbitraryData }

end Metadata

namespace WalletOutput

variable {Γ : Ctx}

/-- `WalletOutput::serialize`. -/
def serialize (output : WalletOutput Γ) : Option (List UInt8) := do
  let metadata ← output.metadata.write
  some (output.absoluteId.write ++ output.relativeId.write ++ output.data.write ++ metadata)

/-- `WalletOutput::read`. -/
def read (Γ : Ctx) : Read (WalletOutput Γ) := do
  let absoluteId ← AbsoluteId.read
  let relativeId ← RelativeId.read
  let data ← OutputData.read Γ
  let metadata ← Metadata.read
  pure { absoluteId, relativeId, data, metadata }

end WalletOutput

namespace Decoys

variable {Γ : Ctx}

/-- `Decoys::write`. -/
def write (decoys : Decoys Γ) : List UInt8 :=
  writeVec (fun offset : UInt64 => VarInt.write offset.toNat) decoys.offsets ++ [decoys.signerIndex] ++
    writeRawVec (fun pair => (Γ.compress pair.1).write ++ (Γ.compress pair.2).write) decoys.ring

/-- `Decoys::read`. -/
def read (Γ : Ctx) : Read (Decoys Γ) := do
  let offsets ← readVec VarInt.readU64 (some MAX_RING_SIZE.toNat)
  let signerIndex ← readByte
  let ring ← readRawVec (do
    let key ← readPoint Γ "Decoys had invalid key in ring"
    let commitment ← readPoint Γ "Decoys had invalid commitment in ring"
    pure (key, commitment)) offsets.length
  match Decoys.new offsets signerIndex ring with
  | some decoys => pure decoys
  | none => throw (.other "invalid Decoys")

end Decoys

/-- `OutputWithDecoys`. -/
structure OutputWithDecoys (Γ : Ctx) where
  output : OutputData Γ
  decoys : Decoys Γ

namespace OutputWithDecoys

variable {Γ : Ctx}

/-- `OutputWithDecoys::key`. -/
def key (input : OutputWithDecoys Γ) : Γ.Point := input.output.key

/-- `OutputWithDecoys::key_offset`. -/
def keyOffset (input : OutputWithDecoys Γ) : Scalar := input.output.keyOffset

/-- `OutputWithDecoys::commitment`. -/
def commitment (input : OutputWithDecoys Γ) : Commitment := input.output.commitment

/-- `OutputWithDecoys::write`. -/
def write (input : OutputWithDecoys Γ) : List UInt8 := input.output.write ++ input.decoys.write

/-- `OutputWithDecoys::read`. -/
def read (Γ : Ctx) : Read (OutputWithDecoys Γ) := do
  let output ← OutputData.read Γ
  let decoys ← Decoys.read Γ
  pure { output, decoys }

end OutputWithDecoys

/-! ## Fee rates (`interface/src/provides_fee_rates.rs`) -/

/-- `FeeRate`. The fields are private, so that each value has passed the check of `FeeRate::new`. -/
structure FeeRate where
  perWeight : UInt64
  mask : UInt64
  valid : ¬(perWeight = 0 ∨ mask = 0)

namespace FeeRate

/-- `FeeRate::new`. -/
def new (perWeight mask : UInt64) : Option FeeRate :=
  if h : perWeight = 0 ∨ mask = 0 then none else some { perWeight, mask, valid := h }

/-- `FeeRate::write`. -/
def write (feeRate : FeeRate) : List UInt8 := (u64Bytes feeRate.perWeight).toList ++ (u64Bytes feeRate.mask).toList

/-- `FeeRate::read`. -/
def read : Read FeeRate := do
  let perWeight ← readU64
  let mask ← readU64
  match new perWeight mask with
  | some feeRate => pure feeRate
  | none => throw (.other "fee rate was invalid")

/-- `FeeRate::calculate_fee_from_weight`. A `u128` is a natural number here, which this does not exceed for a `u64`. -/
def calculateFeeFromWeight (feeRate : FeeRate) (weight : ℕ) : ℕ :=
  let fee := feeRate.perWeight.toNat * weight
  (fee + feeRate.mask.toNat - 1) / feeRate.mask.toNat * feeRate.mask.toNat

end FeeRate

end MoneroOxide
