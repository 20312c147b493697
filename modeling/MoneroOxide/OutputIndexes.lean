import MoneroOxide.BlocksBin
import MoneroOxide.EpeeObject

/-!
# Blocks with the indexes of their outputs, and the answers to `get_blocks.bin` which hold them

What the paths to a scannable block are for: a block, its transactions, and an index for each output. `firstRingctIndex` is the index a
scannable block is to have. `AnswerIs` says which objects are an answer with these blocks: the order of the fields is not fixed, there may
be others, and an array without items may be missing, as for the indexes of a transaction without outputs.
-/

namespace MoneroOxide

namespace BinRpc

/-! ## Indexes -/

/-- A block with its transactions, and the indexes of the outputs of each transaction, the miner transaction first. -/
structure IndexedBlock where
  block : Block
  transactions : List PrunedTransactionWithPrunableHash
  indexes : List (List UInt64)

/-- The index of the first output of the first RingCT transaction with outputs. -/
def firstRingctIndex : List (Transaction Pruned × List UInt64) → Option UInt64
  | [] => none
  | (transaction, indexes) :: rest =>
    if transaction.isV1 = true ∨ transaction.txPrefix.outputs = [] then firstRingctIndex rest else indexes.head?

/-- The indexes of the outputs of the RingCT transactions, in their order. -/
def ringctIndexes : List (Transaction Pruned × List UInt64) → List UInt64
  | [] => []
  | (transaction, indexes) :: rest => if transaction.isV1 = true then ringctIndexes rest else indexes ++ ringctIndexes rest

namespace IndexedBlock

/-- The transactions with the indexes of their outputs. -/
def outputs (b : IndexedBlock) : List (Transaction Pruned × List UInt64) := (blockTransactions b.block b.transactions).zip b.indexes

/-- The scannable block to build. -/
def scannable (b : IndexedBlock) : UnvalidatedScannableBlock where
  block := b.block
  transactions := b.transactions
  outputIndexForFirstRingctOutput := firstRingctIndex b.outputs

/-- The assignment of indexes is consistent: one for each output, and the RingCT outputs of the block have consecutive ones. -/
structure Consistent (b : IndexedBlock) : Prop where
  present : b.transactions.length = b.block.transactions.length
  amounts : List.Forall₂ (fun transaction indexes => transaction.txPrefix.outputs.length = indexes.length)
    (blockTransactions b.block b.transactions) b.indexes
  consecutive : ∃ first, (ringctIndexes b.outputs).map UInt64.toNat = List.range' first (ringctIndexes b.outputs).length

end IndexedBlock

/-! ## Answers -/

open Epee (Item Field Kind)

/-- The key of a field. -/
def keyOf : Field → List UInt8
  | .mk key _ _ _ => key

/-- The fields with a key. -/
def withKey (key : String) (fields : List Field) : List Field := fields.filter fun field => keyOf field = ascii key

/-- There is one field with the key, of the type and with the items. -/
def HasField (fields : List Field) (key : String) (kind : Kind) (items : List Item) : Prop :=
  ∃ array, withKey key fields = [.mk (ascii key) kind array items]

/-- There is a field with the key and the items of an array, or there are no items, and the field is missing. -/
def HasArray (fields : List Field) (key : String) (kind : Kind) (items : List Item) : Prop :=
  HasField fields key kind items ∨ items = [] ∧ withKey key fields = []

/-- There is a field with the key and a string of these bytes. -/
def HasString (fields : List Field) (key : String) (bytes : List UInt8) : Prop :=
  ∃ width, HasField fields key .String [.string width bytes]

/-- The object holds the indexes of the outputs of a transaction. -/
def TransactionIndexesAre (item : Item) (indexes : List UInt64) : Prop :=
  ∃ width fields, item = .object width fields ∧
    HasArray fields "indices" .Uint64 (indexes.map fun index => .int (index.toNat : ℤ))

/-- The object holds the indexes of the outputs of the transactions of a block. -/
def BlockIndexesAre (item : Item) (indexes : List (List UInt64)) : Prop :=
  ∃ width fields items, item = .object width fields ∧ HasArray fields "indices" .Object items ∧
    List.Forall₂ TransactionIndexesAre items indexes

/-- The object may have a prunable hash. -/
def PrunableHashIs (fields : List Field) : Option (Bytes 32) → Prop
  | none => withKey "prunable_hash" fields = []
  | some hash => HasString fields "prunable_hash" hash.toList

/-- The prunable hash of an answer is one for the transaction: there is one for a transaction of version 2, and with proofs it is that
of the transaction, and not zero. -/
def PrunableHashFor (transaction : PrunedTransactionWithPrunableHash) (prunableHash : Option (Bytes 32)) : Prop :=
  (transaction.transaction.isV1 = false → prunableHash.isSome = true) ∧
  (transaction.transaction.hasProofs = true →
    prunableHash = transaction.prunableHash ∧ prunableHash ≠ some (Bytes.replicate 32 0))

/-- The object holds a transaction. -/
def TransactionIs (item : Item) (transaction : PrunedTransactionWithPrunableHash) : Prop :=
  ∃ width fields blob prunableHash, item = .object width fields ∧ HasString fields "blob" blob ∧
    Transaction.read Pruned blob = .ok transaction.transaction [] ∧ PrunableHashIs fields prunableHash ∧
    PrunableHashFor transaction prunableHash

/-- The object holds a block and its transactions. -/
def BlockIs (item : Item) (b : IndexedBlock) : Prop :=
  ∃ width fields blob items, item = .object width fields ∧ HasString fields "block" blob ∧ Block.read blob = .ok b.block [] ∧
    HasArray fields "txs" .Object items ∧ List.Forall₂ TransactionIs items b.transactions

/-- The object is an answer to `get_blocks.bin` with these blocks. -/
def AnswerIs (root : Item) (blocks : List IndexedBlock) : Prop :=
  ∃ width fields blockItems indexItems, root = .object width fields ∧
    HasArray fields "blocks" .Object blockItems ∧ List.Forall₂ BlockIs blockItems blocks ∧
    HasArray fields "output_indices" .Object indexItems ∧
    List.Forall₂ (fun item b => BlockIndexesAre item b.indexes) indexItems blocks

end BinRpc

end MoneroOxide
