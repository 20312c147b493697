import MoneroOxide.Merkle
import MoneroOxide.Transaction

/-!
# Blocks (`src/block.rs`, `interface/src/provides_scannable_blocks.rs`)
-/

namespace MoneroOxide

/-! ## Blocks -/

/-- `BlockHeader`. -/
structure BlockHeader where
  hardforkVersion : UInt8
  hardforkSignal : UInt8
  timestamp : UInt64
  previous : Bytes 32
  nonce : UInt32
  deriving DecidableEq

namespace BlockHeader

/-- `BlockHeader::SIZE_UPPER_BOUND`. -/
def SIZE_UPPER_BOUND : ℕ := VarInt.upperBound 8 + VarInt.upperBound 8 + VarInt.upperBound 64 + 32 + 4

/-- `BlockHeader::write`. -/
def write (header : BlockHeader) : List UInt8 :=
  VarInt.write header.hardforkVersion.toNat ++ VarInt.write header.hardforkSignal.toNat ++ VarInt.write header.timestamp.toNat ++
    header.previous.toList ++ (u32Bytes header.nonce).toList

/-- `BlockHeader::read`. -/
def read : Read BlockHeader := do
  let hardforkVersion ← VarInt.readU8
  let hardforkSignal ← VarInt.readU8
  let timestamp ← VarInt.readU64
  let previous ← readBytes 32
  let nonce ← readU32
  pure { hardforkVersion, hardforkSignal, timestamp, previous, nonce }

end BlockHeader

/-- `Block`. The miner transaction is private, so that it has the one input that `Block::new` checks it to have. -/
structure Block where
  header : BlockHeader
  minerTransaction : Transaction NotPruned
  transactions : List (Bytes 32)
  isMiner : minerTransaction.txPrefix.isMiner = true

namespace Block

/-- `Block::MAX_TRANSACTIONS`. -/
def MAX_TRANSACTIONS : ℕ := 0x10000000

/-- `CORRECT_BLOCK_HASH_202612`. -/
def CORRECT_BLOCK_HASH_202612 : Bytes 32 :=
  ⟨[0x42, 0x6d, 0x16, 0xcf, 0xf0, 0x4c, 0x71, 0xf8, 0xb1, 0x63, 0x40, 0xb7, 0x22, 0xdc, 0x40, 0x10,
    0xa2, 0xdd, 0x38, 0x31, 0xc2, 0x20, 0x41, 0x43, 0x1f, 0x77, 0x25, 0x47, 0xba, 0x6e, 0x33, 0x1a], rfl⟩

/-- `EXISTING_BLOCK_HASH_202612`. -/
def EXISTING_BLOCK_HASH_202612 : Bytes 32 :=
  ⟨[0xbb, 0xd6, 0x04, 0xd2, 0xba, 0x11, 0xba, 0x27, 0x93, 0x5e, 0x00, 0x6e, 0xd3, 0x9c, 0x9b, 0xfd,
    0xd9, 0x9b, 0x76, 0xbf, 0x4a, 0x50, 0x65, 0x4b, 0xc1, 0xe1, 0xe6, 0x12, 0x17, 0x96, 0x26, 0x98], rfl⟩

/-- `Block::new`. -/
def new (header : BlockHeader) (minerTransaction : Transaction NotPruned) (transactions : List (Bytes 32)) : Option Block :=
  if h : minerTransaction.txPrefix.isMiner = true then some { header, minerTransaction, transactions, isMiner := h } else none

/-- `Block::number`. The miner transaction was checked to have a `Gen` input, so that the panic is not reached. -/
def number (block : Block) : UInt64 :=
  match h : block.minerTransaction.txPrefix.inputs with
  | .Gen number :: _ => number
  | [] => absurd block.isMiner (by rw [TransactionPrefix.isMiner, h]; exact Bool.false_ne_true)
  | .ToKey amount keyOffsets keyImage :: inputs =>
    absurd block.isMiner (by cases inputs <;> simp [TransactionPrefix.isMiner, h, Input.isGen])

/-- `Block::write`. -/
def write (block : Block) : List UInt8 :=
  block.header.write ++ block.minerTransaction.write ++ VarInt.write block.transactions.length ++
    block.transactions.flatMap Bytes.toList

/-- `Block::serialize_pow_hash`. The tree is not empty, as the miner transaction is always present. -/
def serializePowHash (Γ : Ctx) (block : Block) : List UInt8 :=
  block.header.write ++
    ((merkleRoot Γ (block.minerTransaction.hash Γ :: block.transactions)).get (isSome_merkleRoot Γ _ _)).toList ++
    VarInt.write (1 + block.transactions.length)

/-- `Block::hash`. -/
def hash (Γ : Ctx) (block : Block) : Bytes 32 :=
  let hashable := block.serializePowHash Γ
  let hash := Γ.keccak256 (VarInt.write hashable.length ++ hashable)
  if hash = CORRECT_BLOCK_HASH_202612 then EXISTING_BLOCK_HASH_202612 else hash

/-- `Block::read`. -/
def read : Read Block := do
  let header ← BlockHeader.read
  let minerTransaction ← Transaction.read NotPruned
  let transactions ← VarInt.readU64
  if MAX_TRANSACTIONS ≤ transactions.toNat then throw (.other "amount of transaction exceeds limit")
  else do
    let transactions ← readRawVec (readBytes 32) transactions.toNat
    match new header minerTransaction transactions with
    | some block => pure block
    | none => throw (.other "block failed sanity checks")

end Block

/-- `ScannableBlock`. -/
structure ScannableBlock where
  block : Block
  transactions : List (Transaction Pruned)
  outputIndexForFirstRingctOutput : Option UInt64

end MoneroOxide
