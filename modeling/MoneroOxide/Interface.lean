import MoneroOxide.Block
import MoneroOxide.Lib.Call

/-!
# Interfaces to the blockchain (`interface/src`)

An interface is untrusted: it is a party with a state `σ` of its own, and its methods are arbitrary calls, so that it may answer
the same request differently each time. The `ProvidesUnvalidated*` traits are the records of these methods. What the crate
implements over them (`ProvidesTransactions`, `ProvidesBlockchain`, `ProvidesScannableBlocks`) is modelled below, with the
checks that make their answers valid.
-/

namespace MoneroOxide

/-- `InterfaceError`. -/
inductive InterfaceError where
  | InternalError (message : String)
  | InterfaceError (message : String)
  | InvalidInterface (message : String)
  deriving DecidableEq, Repr

/-- `TransactionsError`. -/
inductive TransactionsError where
  | InterfaceError (error : InterfaceError)
  | TransactionNotFound
  | PrunedTransaction
  deriving DecidableEq, Repr

/-- An `async fn` of an interface of state `σ`, which returns a `Result`. -/
abbrev Call (σ ε α : Type) : Type := EStateM (Failure ε) σ α

/-- `Result::map_err`. -/
def Call.mapErr {σ ε ε' α : Type} (f : ε → ε') (x : Call σ ε α) : Call σ ε' α := fun s =>
  match x s with
  | .ok a t => .ok a t
  | .error (.error e) t => .error (.error (f e)) t
  | .error (.panic message) t => .error (.panic message) t

/-- A hexadecimal digit. -/
def hexDigit (n : ℕ) : Char := if n < 10 then Char.ofNat ('0'.toNat + n) else Char.ofNat ('a'.toNat + (n - 10))

/-- `hex::encode`. -/
def hexEncode (bytes : List UInt8) : String :=
  String.ofList (bytes.flatMap fun b => [hexDigit (b.toNat / 16), hexDigit (b.toNat % 16)])

/-- `RangeInclusive<usize>`. -/
structure RangeInclusive where
  start : UInt64
  stop : UInt64
  deriving DecidableEq, Repr

/-- The integers of a range, in the order its iterator yields them. -/
def RangeInclusive.toList (range : RangeInclusive) : List ℕ :=
  List.range' range.start.toNat (range.stop.toNat + 1 - range.start.toNat)

/-- The message of an interface that did not return the expected amount of items. -/
def returnedMessage (method items : String) (returned expected : ℕ) : String :=
  "`" ++ method ++ "` returned " ++ toString returned ++ " " ++ items ++ ", expected " ++ toString expected

/-! ## Transactions (`provides_transactions.rs`) -/

/-- Whether a prunable hash is present exactly for a version 2 transaction, and zero for one without proofs. -/
def PrunableHashOk : Transaction Pruned → Option (Bytes 32) → Prop
  | .V1 .., prunableHash => prunableHash = none
  | .V2 _ proofs, prunableHash => prunableHash.isSome ∧ (proofs = none → prunableHash = some (Bytes.replicate 32 0))

/-- `PrunedTransactionWithPrunableHash`. Its fields are private, so that they satisfy what `new` checks. -/
structure PrunedTransactionWithPrunableHash where
  transaction : Transaction Pruned
  prunableHash : Option (Bytes 32)
  ok : PrunableHashOk transaction prunableHash

namespace PrunedTransactionWithPrunableHash

/-- `PrunedTransactionWithPrunableHash::new`. -/
def new (transaction : Transaction Pruned) (prunableHash : Option (Bytes 32)) : Option PrunedTransactionWithPrunableHash :=
  match transaction, prunableHash with
  | .V1 txPrefix signatures, none => some { transaction := .V1 txPrefix signatures, prunableHash := none, ok := rfl }
  | .V1 .., some _ => none
  | .V2 .., none => none
  | .V2 txPrefix none, some _ =>
    some { transaction := .V2 txPrefix none, prunableHash := some (Bytes.replicate 32 0), ok := ⟨rfl, fun _ => rfl⟩ }
  | .V2 txPrefix (some proofs), some hash =>
    some { transaction := .V2 txPrefix (some proofs), prunableHash := some hash, ok := ⟨rfl, nofun⟩ }

/-- A transaction with a prunable hash can be hashed with it. -/
theorem isSome_hashWithPrunableHash (Γ : Ctx) {transaction : Transaction Pruned} {hash : Bytes 32}
    (h : PrunableHashOk transaction (some hash)) : (transaction.hashWithPrunableHash Γ hash).isSome := by
  cases transaction with
  | V1 txPrefix signatures => exact nomatch h
  | V2 txPrefix proofs => rfl

/-- `verify_as_possible`. A transaction of version 1 is returned without any verification. -/
def verifyAsPossible (Γ : Ctx) (tx : PrunedTransactionWithPrunableHash) (hash : Bytes 32) :
    Except (Bytes 32) (Transaction Pruned) :=
  match tx with
  | { transaction, prunableHash := some prunableHash, ok } =>
    let actualHash := (transaction.hashWithPrunableHash Γ prunableHash).get (isSome_hashWithPrunableHash Γ ok)
    if actualHash ≠ hash then .error actualHash else .ok transaction
  | { transaction, prunableHash := none, .. } => .ok transaction

end PrunedTransactionWithPrunableHash

/-- `ProvidesUnvalidatedTransactions`. -/
structure ProvidesUnvalidatedTransactions (σ : Type) where
  transactions : List (Bytes 32) → Call σ TransactionsError (List (Transaction NotPruned))
  prunedTransactions : List (Bytes 32) → Call σ TransactionsError (List PrunedTransactionWithPrunableHash)
  transaction : Bytes 32 → Call σ TransactionsError (Transaction NotPruned)
  prunedTransaction : Bytes 32 → Call σ TransactionsError PrunedTransactionWithPrunableHash

/-- `ProvidesTransactions`. -/
structure ProvidesTransactions (σ : Type) where
  transactions : List (Bytes 32) → Call σ TransactionsError (List (Transaction NotPruned))
  prunedTransactions : List (Bytes 32) → Call σ TransactionsError (List (Transaction Pruned))
  transaction : Bytes 32 → Call σ TransactionsError (Transaction NotPruned)
  prunedTransaction : Bytes 32 → Call σ TransactionsError (Transaction Pruned)

/-- The error for a transaction which is not the one requested. -/
def wrongTransaction (hash expectedHash : Bytes 32) : Failure TransactionsError :=
  .error (.InterfaceError (.InvalidInterface ("interface returned TX " ++ hexEncode hash.toList ++ " when " ++
    hexEncode expectedHash.toList ++ " was requested")))

/-- The error for an amount of transactions which is not the one requested. -/
def wrongAmount (method : String) (returned expected : ℕ) : Failure TransactionsError :=
  .error (.InterfaceError (.InternalError (returnedMessage ("ProvidesUnvalidatedTransactions::" ++ method) "transactions"
    returned expected)))

/-- `matches!(tx, Transaction::V1 { .. })`. -/
def Transaction.isV1 {P : PotentiallyPruned} : Transaction P → Bool
  | .V1 .. => true
  | .V2 .. => false

instance {P : PotentiallyPruned} [DecidableEq P.RingSignatures] [DecidableEq P.RctProofs] : DecidableEq (Transaction P)
  | .V1 txPrefix signatures, .V1 txPrefix' signatures' =>
    decidable_of_iff (txPrefix = txPrefix' ∧ signatures = signatures') (by simp)
  | .V2 txPrefix proofs, .V2 txPrefix' proofs' => decidable_of_iff (txPrefix = txPrefix' ∧ proofs = proofs') (by simp)
  | .V1 .., .V2 .. => isFalse nofun
  | .V2 .., .V1 .. => isFalse nofun

instance : DecidableEq Pruned.RingSignatures := inferInstanceAs (DecidableEq Unit)

instance : DecidableEq Pruned.RctProofs := inferInstanceAs (DecidableEq PrunedRctProofs)

/-- What the first loop of `validate_pruned_transactions` collects: the transactions, and the indexes and hashes of those of
version 1. -/
structure Verified where
  txs : List (Transaction Pruned)
  v1Indexes : List ℕ
  v1Hashes : List (Bytes 32)

/-- The first loop of `validate_pruned_transactions`. -/
def verifyLoop (Γ : Ctx) : Verified → List (PrunedTransactionWithPrunableHash × Bytes 32) →
    Except (Failure TransactionsError) Verified
  | acc, [] => .ok acc
  | acc, (tx, expectedHash) :: rest =>
    match tx.verifyAsPossible Γ expectedHash with
    | .ok tx =>
      verifyLoop Γ
        { txs := acc.txs ++ [tx]
          v1Indexes := if tx.isV1 then acc.v1Indexes ++ [acc.txs.length] else acc.v1Indexes
          v1Hashes := if tx.isV1 then acc.v1Hashes ++ [expectedHash] else acc.v1Hashes } rest
    | .error hash => .error (wrongTransaction hash expectedHash)

/-- The second loop of `validate_pruned_transactions`, over the transactions of version 1 and what they were pruned from. An
index out of range panics. -/
def checkV1Loop (txs : List (Transaction Pruned)) : List ((ℕ × Bytes 32) × Transaction NotPruned) →
    Except (Failure TransactionsError) Unit
  | [] => .ok ()
  | ((i, hash), tx) :: rest =>
    match txs[i]? with
    | none => .error (.panic "index out of bounds")
    | some prunedTx =>
      if tx.toPruned ≠ prunedTx then
        .error (.error (.InterfaceError (.InvalidInterface
          ("interface returned pruned V1 TX which didn't match TX " ++ hexEncode hash.toList))))
      else checkV1Loop txs rest

/-- `validate_pruned_transactions`, of an interface which provides transactions with the function given. -/
def validatePrunedTransactions {σ : Type} (Γ : Ctx)
    (transactions : List (Bytes 32) → Call σ TransactionsError (List (Transaction NotPruned)))
    (unvalidated : List PrunedTransactionWithPrunableHash) (hashes : List (Bytes 32)) :
    Call σ TransactionsError (List (Transaction Pruned)) :=
  if unvalidated.length ≠ hashes.length then throw (wrongAmount "pruned_transactions" unvalidated.length hashes.length)
  else do
    let verified ← Call.ofExcept (verifyLoop Γ { txs := [], v1Indexes := [], v1Hashes := [] } (unvalidated.zip hashes))
    if verified.v1Indexes ≠ [] then do
      let fullTxs ← transactions verified.v1Hashes
      Call.ofExcept (checkV1Loop verified.txs ((verified.v1Indexes.zip verified.v1Hashes).zip fullTxs))
      pure verified.txs
    else pure verified.txs

/-- The loop of `ProvidesTransactions::transactions` over the transactions and the hashes they were requested by. -/
def checkHashes (Γ : Ctx) : List (Transaction NotPruned × Bytes 32) → Except (Failure TransactionsError) Unit
  | [] => .ok ()
  | (tx, expectedHash) :: rest =>
    if tx.hash Γ ≠ expectedHash then .error (wrongTransaction (tx.hash Γ) expectedHash) else checkHashes Γ rest

namespace ProvidesUnvalidatedTransactions

variable {σ : Type} (Γ : Ctx) (P : ProvidesUnvalidatedTransactions σ)

/-- `<P as ProvidesTransactions>::transactions`. -/
def validTransactions (hashes : List (Bytes 32)) : Call σ TransactionsError (List (Transaction NotPruned)) := do
  let txs ← P.transactions hashes
  if txs.length ≠ hashes.length then throw (wrongAmount "transactions" txs.length hashes.length)
  else do
    Call.ofExcept (checkHashes Γ (txs.zip hashes))
    pure txs

/-- `<P as ProvidesTransactions>::pruned_transactions`. -/
def validPrunedTransactions (hashes : List (Bytes 32)) : Call σ TransactionsError (List (Transaction Pruned)) := do
  let unvalidated ← P.prunedTransactions hashes
  validatePrunedTransactions Γ (P.validTransactions Γ) unvalidated hashes

/-- `<P as ProvidesTransactions>::transaction`. -/
def validTransaction (hash : Bytes 32) : Call σ TransactionsError (Transaction NotPruned) := do
  let tx ← P.transaction hash
  if tx.hash Γ ≠ hash then throw (wrongTransaction (tx.hash Γ) hash) else pure tx

/-- `<P as ProvidesTransactions>::pruned_transaction`. `swap_remove(0)` panics on an empty list. -/
def validPrunedTransaction (hash : Bytes 32) : Call σ TransactionsError (Transaction Pruned) := do
  let unvalidated ← P.prunedTransaction hash
  let txs ← validatePrunedTransactions Γ (P.validTransactions Γ) [unvalidated] [hash]
  match txs with
  | tx :: _ => pure tx
  | [] => throw (.panic "swap_remove index out of bounds")

/-- `impl<P: ProvidesUnvalidatedTransactions> ProvidesTransactions for P`. -/
def providesTransactions : ProvidesTransactions σ where
  transactions := P.validTransactions Γ
  prunedTransactions := P.validPrunedTransactions Γ
  transaction := P.validTransaction Γ
  prunedTransaction := P.validPrunedTransaction Γ

end ProvidesUnvalidatedTransactions

/-! ## The blockchain (`provides_blockchain.rs`) -/

/-- `ProvidesUnvalidatedBlockchain`. -/
structure ProvidesUnvalidatedBlockchain (σ : Type) where
  contiguousBlocks : RangeInclusive → Call σ InterfaceError (List Block)
  block : Bytes 32 → Call σ InterfaceError Block
  blockByNumber : UInt64 → Call σ InterfaceError Block
  blockHash : UInt64 → Call σ InterfaceError (Bytes 32)

/-- `ProvidesBlockchain`. -/
structure ProvidesBlockchain (σ : Type) where
  contiguousBlocks : RangeInclusive → Call σ InterfaceError (List Block)
  block : Bytes 32 → Call σ InterfaceError Block
  blockByNumber : UInt64 → Call σ InterfaceError Block
  blockHash : UInt64 → Call σ InterfaceError (Bytes 32)

/-- The error for a block whose number is not the one requested. -/
def wrongNumber (number : ℕ) (block : Block) : Failure InterfaceError :=
  .error (.InvalidInterface ("requested block #" ++ toString number ++ ", received #" ++ toString block.number.toNat))

/-- The text of the error for a block which does not build on the one before it, with the indentation of its literal. -/
def notContiguous : String :=
  "\n            interface returned a block which doesn't build on the prior block when requesting a contiguous series\n          "

/-- The loop of `sanity_check_contiguous_blocks`, with the hash of the block before, if there was one. -/
def sanityCheckLoop (Γ : Ctx) : Option (Bytes 32) → List (ℕ × Block) → Except (Failure InterfaceError) Unit
  | _, [] => .ok ()
  | parent, (number, block) :: rest =>
    if block.number.toNat ≠ number then .error (wrongNumber number block)
    else
      let blockHash := block.hash Γ
      match parent.or (if number = 0 then some (Bytes.replicate 32 0) else none) with
      | some parent =>
        if parent ≠ block.header.previous then .error (.error (.InvalidInterface notContiguous))
        else sanityCheckLoop Γ (some blockHash) rest
      | none => sanityCheckLoop Γ (some blockHash) rest

/-- `sanity_check_contiguous_blocks`. The blocks are zipped with the numbers of the range, so that what is beyond the shorter of
the two is not looked at. -/
def sanityCheckContiguousBlocks (Γ : Ctx) (range : RangeInclusive) (blocks : List Block) : Except (Failure InterfaceError) Unit :=
  sanityCheckLoop Γ none (range.toList.zip blocks)

/-- `sanity_check_block_by_hash`. -/
def sanityCheckBlockByHash (Γ : Ctx) (hash : Bytes 32) (block : Block) : Except (Failure InterfaceError) Unit :=
  if block.hash Γ ≠ hash then
    .error (.error (.InvalidInterface ("requested block " ++ hexEncode hash.toList ++ ", received " ++
      hexEncode (block.hash Γ).toList)))
  else .ok ()

/-- `sanity_check_block_by_number`. -/
def sanityCheckBlockByNumber (number : UInt64) (block : Block) : Except (Failure InterfaceError) Unit :=
  if block.number ≠ number then .error (wrongNumber number.toNat block) else .ok ()

/-- `range.end().saturating_sub(*range.start()).checked_add(1)`: how many blocks are expected for a range. -/
def RangeInclusive.expectedBlocks (range : RangeInclusive) : Except (Failure InterfaceError) ℕ :=
  let expectedBlocks := range.stop.toNat - range.start.toNat + 1
  if expectedBlocks < 2 ^ 64 then .ok expectedBlocks
  else .error (.error (.InternalError "amount of blocks requested wasn't representable in a `usize`"))

namespace ProvidesUnvalidatedBlockchain

variable {σ : Type} (Γ : Ctx) (P : ProvidesUnvalidatedBlockchain σ)

/-- `<P as ProvidesBlockchain>::contiguous_blocks`. -/
def validContiguousBlocks (range : RangeInclusive) : Call σ InterfaceError (List Block) := do
  let blocks ← P.contiguousBlocks range
  let expectedBlocks ← Call.ofExcept range.expectedBlocks
  if blocks.length ≠ expectedBlocks then
    throw (.error (.InternalError (returnedMessage "ProvidesUnvalidatedBlockchain::contiguous_blocks" "blocks" blocks.length
      expectedBlocks)))
  else do
    Call.ofExcept (sanityCheckContiguousBlocks Γ range blocks)
    pure blocks

/-- `<P as ProvidesBlockchain>::block`. -/
def validBlock (hash : Bytes 32) : Call σ InterfaceError Block := do
  let block ← P.block hash
  Call.ofExcept (sanityCheckBlockByHash Γ hash block)
  pure block

/-- `<P as ProvidesBlockchain>::block_by_number`. -/
def validBlockByNumber (number : UInt64) : Call σ InterfaceError Block := do
  let block ← P.blockByNumber number
  Call.ofExcept (sanityCheckBlockByNumber number block)
  pure block

/-- `impl<P: ProvidesUnvalidatedBlockchain> ProvidesBlockchain for P`. -/
def providesBlockchain : ProvidesBlockchain σ where
  contiguousBlocks := P.validContiguousBlocks Γ
  block := P.validBlock Γ
  blockByNumber := P.validBlockByNumber
  blockHash := P.blockHash

end ProvidesUnvalidatedBlockchain

/-! ## Scannable blocks (`provides_scannable_blocks.rs`) -/

/-- The loop of `expand_to_scannable_block` over the hashes and transactions of a block, the miner transaction first. -/
def firstRingctOutputIndex {σ : Type} (outputIndexes : Bytes 32 → Call σ InterfaceError (List UInt64)) :
    List (Bytes 32 × Transaction Pruned) → Call σ TransactionsError (Option UInt64)
  | [] => pure none
  | (hash, tx) :: rest =>
    -- If this isn't a RingCT transaction, or there are no outputs, move to the next one.
    if tx.isV1 = true ∨ tx.txPrefix.outputs = [] then firstRingctOutputIndex outputIndexes rest
    else do
      let indexes ← (outputIndexes hash).mapErr TransactionsError.InterfaceError
      match indexes with
      | [] => throw (.error (.InterfaceError (.InvalidInterface "requested output indexes for a TX with outputs and got none")))
      | index :: _ => pure (some index)

/-- `ExpandToScannableBlock::expand_to_scannable_block`, of an interface which provides pruned transactions and output indexes with the
functions given. -/
def expandToScannableBlock {σ : Type} (Γ : Ctx)
    (prunedTransactions : List (Bytes 32) → Call σ TransactionsError (List (Transaction Pruned)))
    (outputIndexes : Bytes 32 → Call σ InterfaceError (List UInt64)) (block : Block) : Call σ TransactionsError ScannableBlock := do
  let transactions ← prunedTransactions block.transactions
  let index ← firstRingctOutputIndex outputIndexes
    ((block.minerTransaction.hash Γ, block.minerTransaction.toPruned) :: block.transactions.zip transactions)
  pure { block, transactions, outputIndexForFirstRingctOutput := index }

/-- `UnvalidatedScannableBlock`. -/
structure UnvalidatedScannableBlock where
  block : Block
  transactions : List PrunedTransactionWithPrunableHash
  outputIndexForFirstRingctOutput : Option UInt64

/-- `ProvidesUnvalidatedScannableBlocks`. -/
structure ProvidesUnvalidatedScannableBlocks (σ : Type) where
  contiguousScannableBlocks : RangeInclusive → Call σ InterfaceError (List UnvalidatedScannableBlock)
  scannableBlock : Bytes 32 → Call σ InterfaceError UnvalidatedScannableBlock
  scannableBlockByNumber : UInt64 → Call σ InterfaceError UnvalidatedScannableBlock

/-- `ProvidesScannableBlocks`. -/
structure ProvidesScannableBlocks (σ : Type) where
  contiguousScannableBlocks : RangeInclusive → Call σ InterfaceError (List ScannableBlock)
  scannableBlock : Bytes 32 → Call σ InterfaceError ScannableBlock
  scannableBlockByNumber : UInt64 → Call σ InterfaceError ScannableBlock

/-- The error of `validate_scannable_block` for an error of its transactions. -/
def scannableBlockError : TransactionsError → InterfaceError
  | .InterfaceError e => e
  | .TransactionNotFound => .InvalidInterface "interface sent us a scannable block it doesn't have the transactions for"
  | .PrunedTransaction => .InvalidInterface "interface sent us pruned transaction when validating a scannable block"

/-- `validate_scannable_block`, of an interface which provides transactions with the function given. -/
def validateScannableBlock {σ : Type} (Γ : Ctx)
    (transactions : List (Bytes 32) → Call σ TransactionsError (List (Transaction NotPruned))) (block : UnvalidatedScannableBlock) :
    Call σ InterfaceError ScannableBlock := do
  let transactions ←
    (validatePrunedTransactions Γ transactions block.transactions block.block.transactions).mapErr scannableBlockError
  pure { block := block.block, transactions,
         outputIndexForFirstRingctOutput := block.outputIndexForFirstRingctOutput }

namespace ProvidesUnvalidatedScannableBlocks

variable {σ : Type} (Γ : Ctx) (P : ProvidesUnvalidatedScannableBlocks σ) (T : ProvidesTransactions σ)

/-- `<P as ProvidesScannableBlocks>::contiguous_scannable_blocks`. -/
def validContiguousScannableBlocks (range : RangeInclusive) : Call σ InterfaceError (List ScannableBlock) := do
  let blocks ← P.contiguousScannableBlocks range
  let expectedBlocks ← Call.ofExcept range.expectedBlocks
  if blocks.length ≠ expectedBlocks then
    throw (.error (.InternalError (returnedMessage "ProvidesUnvalidatedScannableBlocks::contiguous_scannable_blocks" "blocks"
      blocks.length expectedBlocks)))
  else do
    Call.ofExcept (sanityCheckContiguousBlocks Γ range (blocks.map fun scannableBlock => scannableBlock.block))
    blocks.mapM (validateScannableBlock Γ T.transactions)

/-- `<P as ProvidesScannableBlocks>::scannable_block`. -/
def validScannableBlock (hash : Bytes 32) : Call σ InterfaceError ScannableBlock := do
  let block ← P.scannableBlock hash
  Call.ofExcept (sanityCheckBlockByHash Γ hash block.block)
  validateScannableBlock Γ T.transactions block

/-- `<P as ProvidesScannableBlocks>::scannable_block_by_number`. -/
def validScannableBlockByNumber (number : UInt64) : Call σ InterfaceError ScannableBlock := do
  let block ← P.scannableBlockByNumber number
  Call.ofExcept (sanityCheckBlockByNumber number block.block)
  validateScannableBlock Γ T.transactions block

/-- `impl<P: ProvidesTransactions + ProvidesUnvalidatedScannableBlocks> ProvidesScannableBlocks for P`. -/
def providesScannableBlocks : ProvidesScannableBlocks σ where
  contiguousScannableBlocks := P.validContiguousScannableBlocks Γ T
  scannableBlock := P.validScannableBlock Γ T
  scannableBlockByNumber := P.validScannableBlockByNumber Γ T

end ProvidesUnvalidatedScannableBlocks

end MoneroOxide
