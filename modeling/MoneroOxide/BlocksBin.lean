import MoneroOxide.BinRpc

/-!
# Scannable blocks from a daemon (`interface/daemon/src/bin_rpc/epee.rs`, `interface/daemon/src/bin_rpc/blocks_bin.rs`)

Blocks are fetched with `get_blocks.bin`, and from where that is not applicable on, with the JSON methods. The JSON methods for one
block, for the hash of a block and for transactions are arbitrary calls (`JsonMethods`). A `u64` and a `usize` are both 64 bits wide,
where they would overflow or underflow there is a panic. The loop over the requests is run for as many rounds as `fuel` says, and it
panics when that is used up.
-/

namespace MoneroOxide

/-- `matches!(tx, Transaction::V2 { proofs: Some(_), .. })`. -/
def Transaction.hasProofs {P : PotentiallyPruned} : Transaction P → Bool
  | .V2 _ (some _) => true
  | _ => false

namespace BinRpc

/-! ## The answer to `get_blocks.bin` -/

/-- A value read from the whole of an encoding. -/
def readWhole {α : Type} (read : Read α) (name : String) (encoding : List UInt8) : Walk α :=
  match read encoding with
  | .error e _ => throw (invalid ("invalid " ++ name ++ ": " ++ debugIoError e))
  | .ok _ (_ :: _) => throw (invalid (name ++ " had extraneous bytes after it"))
  | .ok a [] => pure a

/-- A field of a transaction: its encoding, its prunable hash, or one which is not read. -/
def transactionField (key : List UInt8) (acc : Option (Transaction Pruned) × Option (Bytes 32)) :
    Walk (Option (Transaction Pruned) × Option (Bytes 32)) :=
  if key = ascii "blob" then do
    let encoding ← toStr
    let transaction ← readWhole (Transaction.read Pruned) "transaction" encoding
    pure (some transaction, acc.2)
  else if key = ascii "prunable_hash" then do
    let hash ← epee32
    pure (acc.1, some hash)
  else do
    dropInnermost
    pure acc

/-- The checks on a transaction and its prunable hash. A transaction with proofs and without a hash, or with one of zeroes, is one which
this methodology is not applicable to. -/
def checkPrunableHash (transaction : Transaction Pruned) (prunableHash : Option (Bytes 32)) :
    Walk PrunedTransactionWithPrunableHash :=
  -- Only use the prunable hash if this transaction has one which is well-defined.
  let prunableHash := prunableHash.filter fun _ => !transaction.isV1
  if transaction.hasProofs = true ∧ (prunableHash = none ∨ prunableHash = some (Bytes.replicate 32 0)) then throw .notApplicable
  else
    match PrunedTransactionWithPrunableHash.new transaction prunableHash with
    | none => throw (invalid "non-v1 transaction missing prunable hash")
    | some transaction => pure transaction

/-- A round of the loop over `txs`. -/
def transactionItem (transactions : List PrunedTransactionWithPrunableHash) : Walk (List PrunedTransactionWithPrunableHash) := do
  fields
  let read ← forFields transactionField (none, none)
  match read.1 with
  | none => throw (invalid "transaction without transaction encoding")
  | some transaction => do
    let transaction ← checkPrunableHash transaction read.2
    dropInnermost
    pure (transactions ++ [transaction])

/-- A field of an entry of `blocks`: the block, its transactions, or one which is not read. -/
def blockField (key : List UInt8) (acc : Option Block × List PrunedTransactionWithPrunableHash) :
    Walk (Option Block × List PrunedTransactionWithPrunableHash) :=
  if key = ascii "block" then do
    let encoding ← toStr
    let block ← readWhole Block.read "block" encoding
    pure (some block, acc.2)
  else if key = ascii "txs" then do
    iterate
    let transactions ← forItems transactionItem acc.2
    dropInnermost
    pure (acc.1, transactions)
  else do
    dropInnermost
    pure acc

/-- A round of the loop over `blocks`. -/
def blockItem (res : List (Block × List PrunedTransactionWithPrunableHash)) :
    Walk (List (Block × List PrunedTransactionWithPrunableHash)) := do
  fields
  let read ← forFields blockField (none, [])
  match read.1 with
  | none => throw (invalid "block entry itself was missing the block")
  | some block => do
    dropInnermost
    pure (res ++ [(block, read.2)])

/-- A round of the loop over an array of objects with a field `indices`, with the body of the loop over these. An object without the
field is passed over. -/
def indicesItem (body : List UInt64 → Walk (List UInt64)) (allOutputIndexes : List UInt64) : Walk (List UInt64) := do
  fields
  let found ← optionalField "indices" iterate
  match found with
  | none => do
    dropInnermost
    pure allOutputIndexes
  | some () => do
    let allOutputIndexes ← forItems body allOutputIndexes
    dropInnermost
    dropInnermost
    pure allOutputIndexes

/-- A field of the answer: the blocks, the indexes of their outputs by block and transaction, or one which is not read. -/
def answerField (key : List UInt8) (acc : List (Block × List PrunedTransactionWithPrunableHash) × List UInt64) :
    Walk (List (Block × List PrunedTransactionWithPrunableHash) × List UInt64) :=
  if key = ascii "blocks" then do
    iterate
    let res ← forItems blockItem acc.1
    dropInnermost
    pure (res, acc.2)
  else if key = ascii "output_indices" then do
    iterate
    let allOutputIndexes ← forItems (indicesItem (indicesItem indexItem)) acc.2
    dropInnermost
    pure (acc.1, allOutputIndexes)
  else do
    dropInnermost
    pure acc

/-- `handle_transaction`: the index for the first RingCT output, and the indexes left. -/
def handleTransaction (index : Option UInt64) (allOutputIndexes : List UInt64) (transaction : Transaction Pruned) :
    Except (Failure InterfaceError) (Option UInt64 × List UInt64) :=
  let outputs := transaction.txPrefix.outputs.length
  if allOutputIndexes.length < outputs then
    .error (.error (.InvalidInterface "block entry omitted output indexes for present transactions"))
  else if !transaction.isV1 ∧ outputs ≠ 0 then
    match allOutputIndexes with
    | [] => .error (.panic "index out of bounds")
    | first :: _ => .ok (index.or (some first), allOutputIndexes.drop outputs)
  else .ok (index, allOutputIndexes.drop outputs)

/-- The calls of `handle_transaction` for the transactions of a block. -/
def handleTransactions (index : Option UInt64) (allOutputIndexes : List UInt64) :
    List (Transaction Pruned) → Except (Failure InterfaceError) (Option UInt64 × List UInt64)
  | [] => .ok (index, allOutputIndexes)
  | transaction :: transactions => do
    let handled ← handleTransaction index allOutputIndexes transaction
    handleTransactions handled.1 handled.2 transactions

/-- The transactions of a block, the miner transaction first. -/
def blockTransactions (block : Block) (transactions : List PrunedTransactionWithPrunableHash) : List (Transaction Pruned) :=
  block.minerTransaction.toPruned :: transactions.map fun transaction => transaction.transaction

/-- The loop which identifies the index for the first RingCT output of each block: the blocks, and the indexes left. -/
def handleBlocks (allOutputIndexes : List UInt64) :
    List (Block × List PrunedTransactionWithPrunableHash) →
      Except (Failure InterfaceError) (List UnvalidatedScannableBlock × List UInt64)
  | [] => .ok ([], allOutputIndexes)
  | (block, transactions) :: res => do
    let handled ← handleTransactions none allOutputIndexes (blockTransactions block transactions)
    let rest ← handleBlocks handled.2 res
    pure ({ block, transactions, outputIndexForFirstRingctOutput := handled.1 } :: rest.1, rest.2)

/-- `extract_blocks_from_blocks_bin`. -/
def extractBlocksFromBlocksBin (blocksBin : List UInt8) :
    Except (Failure InterfaceError) (Option (List UnvalidatedScannableBlock)) := do
  let read ← decode blocksBin (forFields answerField ([], []))
  match read with
  | none => pure none
  | some (res, allOutputIndexes) => do
    let result ← handleBlocks allOutputIndexes res
    if result.2 ≠ [] then
      .error (.error (.InvalidInterface "`get_blocks.bin` had a distinct amount of output indexes than transaction outputs"))
    else pure (some result.1)

/-! ## Fetching contiguous blocks -/

/-- What the loop of `fetch_contiguous_blocks` works on. -/
structure FetchState where
  start : ℕ
  stop : ℕ
  remainingBlocks : ℕ
  res : List UnvalidatedScannableBlock

/-- How a round of the loop ends when it does not fail: with another one, or with whether this methodology is applicable, and what was
fetched. -/
inductive FetchOutcome where
  | again (state : FetchState)
  | returned (applicable : Bool) (res : List UnvalidatedScannableBlock)

/-- What is done before the loop. -/
def fetchInitial (range : RangeInclusive) (res : List UnvalidatedScannableBlock) : Except (Failure InterfaceError) FetchOutcome :=
  let start := range.start.toNat
  let stop := range.stop.toNat
  if start = 0 then .error (.error (.InternalError "attempting to fetch contiguous blocks from 0"))
  else if stop < start then .ok (.returned true res)
  else if USIZE_MAX < stop - start + 1 then
    .error (.error (.InternalError "requested more blocks than representable in a `usize`"))
  else .ok (.again { start, stop, remainingBlocks := stop - start + 1, res })

/-- The request for the blocks from `start` on. -/
def fetchRequest (state : FetchState) : List UInt8 :=
  Epee.HEADER ++ [Epee.VERSION] ++ [4 * 3] ++
    epeeKey "prune" ++ [UInt8.ofNat Epee.Kind.Bool.discriminant] ++ [1] ++
    epeeKey "start_height" ++ [UInt8.ofNat Epee.Kind.Uint64.discriminant] ++ (leBytes 8 state.start).toList ++
    epeeKey "max_block_count" ++ [UInt8.ofNat Epee.Kind.Uint64.discriminant] ++ (leBytes 8 state.remainingBlocks).toList

/-- `blocks_received += 1`, which is an `i32`. -/
def countBlock (blocksReceived : ℕ) : Except (Failure InterfaceError) ℕ :=
  if blocksReceived + 1 < 2 ^ 31 then .ok (blocksReceived + 1) else .error (.panic "attempt to add with overflow")

/-- The loop over the blocks of an answer: what is left, and how many were received, or nothing if none remain to be. -/
def pushBlocks (state : FetchState) (blocksReceived : ℕ) :
    List UnvalidatedScannableBlock → Except (Failure InterfaceError) (FetchState × Option ℕ)
  | [] => .ok (state, some blocksReceived)
  | block :: blocks => do
    let blocksReceived ← countBlock blocksReceived
    let remainingBlocks ← Blocks.checkedSub state.remainingBlocks 1
    let state := { state with remainingBlocks, res := state.res ++ [block] }
    -- Any blocks which were not requested are left.
    if remainingBlocks = 0 then .ok (state, none) else pushBlocks state blocksReceived blocks

/-- `(end - remaining_blocks) + 1`. -/
def nextStart (state : FetchState) : Except (Failure InterfaceError) ℕ := do
  let last ← Blocks.checkedSub state.stop state.remainingBlocks
  Blocks.checkedAdd last 1

/-- A round of the loop from the blocks of the answer. -/
def receiveBlocks (state : FetchState) : Option (List UnvalidatedScannableBlock) → Except (Failure InterfaceError) FetchOutcome
  | none => .ok (.returned false state.res)
  | some blocks => do
    let pushed ← pushBlocks state 0 blocks
    match pushed with
    | (state, none) => .ok (.returned true state.res)
    | (_, some 0) => .error (.error (.InvalidInterface "received zero blocks when requesting multiple"))
    | (state, some _) => do
      let start ← nextStart state
      pure (.again { state with start })

/-- The loop of `fetch_contiguous_blocks`. -/
def fetchLoop {σ : Type} (daemon : MoneroDaemon σ) : ℕ → FetchState → Call σ InterfaceError (Bool × List UnvalidatedScannableBlock)
  | 0, _ => throw (.panic "out of fuel")
  | fuel + 1, state =>
    if state.start ≤ state.stop then do
      let epee ← binCall daemon "get_blocks.bin" (fetchRequest state) MAX_RESPONSE_SIZE
      let blocks ← Call.ofExcept (extractBlocksFromBlocksBin epee)
      let outcome ← Call.ofExcept (receiveBlocks state blocks)
      match outcome with
      | .again state => fetchLoop daemon fuel state
      | .returned applicable res => pure (applicable, res)
    else pure (true, state.res)

/-- `fetch_contiguous_blocks`: whether this methodology is applicable, and what was fetched after `res`. -/
def fetchContiguousBlocks {σ : Type} (daemon : MoneroDaemon σ) (range : RangeInclusive) (res : List UnvalidatedScannableBlock) :
    Call σ InterfaceError (Bool × List UnvalidatedScannableBlock) := do
  let outcome ← Call.ofExcept (fetchInitial range res)
  match outcome with
  | .again state => fetchLoop daemon (range.toList.length + 1) state
  | .returned applicable res => pure (applicable, res)

/-! ## Expanding blocks -/

/-- The two indexes `expand` keeps: that of the next RingCT output, and that of the first one of the block. -/
structure OutputIndexes where
  next : Option UInt64
  first : Option UInt64

/-- `update_output_index`. -/
def updateOutputIndex {P : PotentiallyPruned} (indexes : OutputIndexes) (tx : Transaction P) :
    Except (Failure InterfaceError) OutputIndexes :=
  if tx.isV1 then .ok indexes
  else if indexes.next = none ∧ tx.txPrefix.outputs ≠ [] then
    .error (.error (.InternalError "RingCT transactions yet no RingCT output index"))
  else
    let first := indexes.first.or indexes.next
    match indexes.next with
    | none => .ok { next := none, first }
    | some next =>
      if next.toNat + tx.txPrefix.outputs.length < 2 ^ 64 then
        .ok { next := some (UInt64.ofNat (next.toNat + tx.txPrefix.outputs.length)), first }
      else .error (.error (.InvalidInterface "output index exceeded `u64::MAX`"))

/-- The index of the next RingCT output, from the indexes of the outputs of a transaction. -/
def firstOfFetched (outputs : ℕ) (fetched : List UInt64) : Except (Failure InterfaceError) UInt64 :=
  if outputs ≠ fetched.length then
    .error (.error (.InvalidInterface ("TX had " ++ toString outputs ++ " outputs yet `get_o_indexes` returned " ++
      toString fetched.length)))
  else
    match fetched with
    | [] => .error (.panic "index out of bounds")
    | index :: _ => .ok index

/-- `update_output_index_with_fetch`. -/
def updateOutputIndexWithFetch {σ : Type} {P : PotentiallyPruned} (daemon : MoneroDaemon σ) (indexes : OutputIndexes)
    (txHash : Bytes 32) (tx : Transaction P) : Call σ InterfaceError OutputIndexes :=
  if !tx.isV1 ∧ indexes.next = none ∧ tx.txPrefix.outputs ≠ [] then do
    let fetched ← outputIndexes daemon txHash
    let index ← Call.ofExcept (firstOfFetched tx.txPrefix.outputs.length fetched)
    Call.ofExcept (updateOutputIndex { indexes with next := some index } tx)
  else Call.ofExcept (updateOutputIndex indexes tx)

/-- The loop of `expand` over the transactions and their hashes. -/
def updateOutputIndexes {σ : Type} (daemon : MoneroDaemon σ) (indexes : OutputIndexes) :
    List (Bytes 32 × PrunedTransactionWithPrunableHash) → Call σ InterfaceError OutputIndexes
  | [] => pure indexes
  | (hash, transaction) :: rest => do
    let indexes ← updateOutputIndexWithFetch daemon indexes hash transaction.transaction
    updateOutputIndexes daemon indexes rest

/-- The methods of a daemon which use JSON, for what is not modelled further. -/
structure JsonMethods (σ : Type) where
  block : Bytes 32 → Call σ InterfaceError Block
  blockHash : UInt64 → Call σ InterfaceError (Bytes 32)
  prunedTransactions : List (Bytes 32) → Call σ TransactionsError (List PrunedTransactionWithPrunableHash)

/-- The error of `expand` for an error of its transactions. -/
def expandError : TransactionsError → InterfaceError
  | .InterfaceError e => e
  | .TransactionNotFound => .InvalidInterface "daemon sent us a block it doesn't have the transactions for"
  | .PrunedTransaction =>
    .InternalError "complaining about receiving a pruned transaction when requesting a pruned transaction"

/-- `expand`. -/
def expand {σ : Type} (Γ : Ctx) (methods : JsonMethods σ) (daemon : MoneroDaemon σ) (block : Block) :
    Call σ InterfaceError UnvalidatedScannableBlock := do
  let transactions ← (methods.prunedTransactions block.transactions).mapErr expandError
  let indexes ← updateOutputIndexWithFetch daemon { next := none, first := none }
    (block.minerTransaction.hash Γ) block.minerTransaction
  let indexes ← updateOutputIndexes daemon indexes (block.transactions.zip transactions)
  pure { block, transactions, outputIndexForFirstRingctOutput := indexes.first }

/-! ## `impl ProvidesUnvalidatedScannableBlocks for MoneroDaemon` -/

section Provides

variable {σ : Type} (Γ : Ctx) (json : SerdeJson) (methods : JsonMethods σ) (daemon : MoneroDaemon σ)

/-- `scannable_block`. -/
def scannableBlock (hash : Bytes 32) : Call σ InterfaceError UnvalidatedScannableBlock := do
  let block ← methods.block hash
  expand Γ methods daemon block

/-- `scannable_block_by_number`. -/
def scannableBlockByNumber (number : UInt64) : Call σ InterfaceError UnvalidatedScannableBlock := do
  let hash ← methods.blockHash number
  scannableBlock Γ methods daemon hash

/-- The range which is left for the fallback, after some blocks were fetched: nothing if its start is not representable. -/
def fallbackRange (range : RangeInclusive) (lenSuccessfullyFetched : ℕ) : Option RangeInclusive :=
  if range.start.toNat + lenSuccessfullyFetched ≤ USIZE_MAX then
    some { range with start := UInt64.ofNat (range.start.toNat + lenSuccessfullyFetched) }
  else none

/-- The fallback of `contiguous_scannable_blocks`. -/
def fallBack (range : RangeInclusive) (lenBeforeFetch : ℕ) (res : List UnvalidatedScannableBlock) :
    Call σ InterfaceError (List UnvalidatedScannableBlock) :=
  if res.length < lenBeforeFetch then
    throw (.error (.InternalError "`fetch_contiguous_blocks` shortened the length of `res`"))
  else
    match fallbackRange range (res.length - lenBeforeFetch) with
    | none => pure res
    | some range => do
      let blocks ← Blocks.contiguousBlocks json daemon range
      let expanded ← blocks.mapM (expand Γ methods daemon)
      pure (res ++ expanded)

/-- `contiguous_scannable_blocks`, once the genesis block has been handled. -/
def fetchOrFallBack (range : RangeInclusive) (res : List UnvalidatedScannableBlock) :
    Call σ InterfaceError (List UnvalidatedScannableBlock) := do
  let fetched ← fetchContiguousBlocks daemon range res
  match fetched with
  | (true, res) => pure res
  | (false, fetched) => fallBack Γ json methods daemon range res.length fetched

/-- `contiguous_scannable_blocks`. -/
def contiguousScannableBlocks (range : RangeInclusive) : Call σ InterfaceError (List UnvalidatedScannableBlock) :=
  if range.start = 0 then do
    let genesis ← scannableBlockByNumber Γ methods daemon 0
    fetchOrFallBack Γ json methods daemon { range with start := 1 } [genesis]
  else fetchOrFallBack Γ json methods daemon range []

end Provides

end BinRpc

end MoneroOxide
