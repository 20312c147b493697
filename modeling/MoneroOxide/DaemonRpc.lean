import MoneroOxide.BlocksBin
import MoneroOxide.WalletOutput

/-!
# The JSON methods of a daemon (`interface/daemon/src/lib.rs`, `interface/daemon/src/blocks.rs`)

The routes of a daemon which take and answer JSON: the blocks by hash, the hash of a block, the transactions, the height, the fee
estimate and the publishing of a transaction. What `serde_json` deserializes an answer to is a parameter for each of them. A method
which is documented to return an error of its own kind propagates the errors of the interface through `From`.
-/

namespace MoneroOxide

/-- The `?` operator on a call to the interface: its error is converted by `From`. -/
def Call.propagate {σ ε α : Type} (from' : InterfaceError → ε) (x : EStateM InterfaceError σ α) : Call σ ε α := fun s =>
  match x s with
  | .ok a t => .ok a t
  | .error e t => .error (.error (from' e)) t

/-- `hash_hex`. -/
def hashHex (hash : String) : Except InterfaceError (Bytes 32) := do
  let bytes ← rpcHex hash
  if h : bytes.length = 32 then .ok ⟨bytes, h⟩ else .error (.InvalidInterface "hash wasn't 32-bytes")

/-- `TransactionResponse`. -/
structure TransactionResponse where
  txHash : String
  asHex : String
  prunedAsHex : String
  prunableHash : String

/-- `TransactionsResponse`. -/
structure TransactionsResponse where
  missedTx : List String
  txs : List TransactionResponse

/-- `SendRawResponse`, of which these fields are used. -/
structure SendRawResponse where
  status : String
  reason : String

/-- `FeeResponse`. -/
structure FeeResponse where
  status : String
  fees : Option (List UInt64)
  fee : UInt64
  quantizationMask : UInt64

/-- What `serde_json::from_str` deserializes the answers to. Those of `json_rpc` are the `result` within. -/
structure JsonAnswers where
  getTransactions : String → Option TransactionsResponse
  getHeight : String → Option UInt64
  sendRawTransaction : String → Option SendRawResponse
  getFeeEstimate : String → Option FeeResponse
  /-- The `blob` of a `BlockResponse`. -/
  getBlock : String → Option String
  onGetBlockHash : String → Option String

/-- `PublishTransactionError`. -/
inductive PublishTransactionError where
  | InterfaceError (error : InterfaceError)
  | TransactionRejected (reason : String)
  deriving DecidableEq, Repr

/-- `FeeError`. -/
inductive FeeError where
  | InterfaceError (error : InterfaceError)
  | InvalidFee
  | InvalidFeePriority
  deriving DecidableEq, Repr

/-- `FeePriority`. -/
inductive FeePriority where
  | Unimportant
  | Normal
  | Elevated
  | Priority
  | Custom (priority : UInt32)
  deriving DecidableEq, Repr

/-- `FeePriority::to_u32`. -/
def FeePriority.toU32 : FeePriority → UInt32
  | Unimportant => 1
  | Normal => 2
  | Elevated => 3
  | Priority => 4
  | Custom priority => priority

namespace MoneroDaemon

variable {σ α : Type}

/-- `MoneroDaemon::rpc_call_internal`. -/
def rpcCallInternal (fromStr : String → Option α) (daemon : MoneroDaemon σ) (route : String) (params : Option String)
    (responseSizeLimit : ℕ) : EStateM InterfaceError σ α := do
  let res ← daemon.rpcCallCore route params responseSizeLimit
  match fromStr res with
  | some response => pure response
  | none => throw (.InvalidInterface "response wasn't the expected json")

/-- The request of `json_rpc_call_internal`. -/
def jsonRpcRequest (method : String) (params : Option String) : String :=
  "\x7b \"jsonrpc\": \"2.0\", \"method\": \"" ++ method ++ "\", \"params\": " ++ params.getD "[]" ++ ", \"id\": 0 \x7d"

/-- `MoneroDaemon::json_rpc_call_internal`. -/
def jsonRpcCallInternal (fromStr : String → Option α) (daemon : MoneroDaemon σ) (method : String) (params : Option String)
    (responseSizeLimit : ℕ) : EStateM InterfaceError σ α :=
  daemon.rpcCallInternal fromStr "json_rpc" (some (jsonRpcRequest method params)) responseSizeLimit

/-- `<MoneroDaemon as ProvidesBlockchainMeta>::latest_block_number`. -/
def latestBlockNumber (json : JsonAnswers) (daemon : MoneroDaemon σ) : EStateM InterfaceError σ UInt64 := do
  let height ← daemon.rpcCallInternal json.getHeight "get_height" none 0
  if height = 0 then throw (.InvalidInterface "node claimed the blockchain didn't even have the genesis block")
  else pure (height - 1)

/-! ## Blocks -/

/-- `<MoneroDaemon as ProvidesUnvalidatedBlockchain>::block`. -/
def block (json : JsonAnswers) (daemon : MoneroDaemon σ) (hash : Bytes 32) : EStateM InterfaceError σ Block := do
  let blob ← daemon.jsonRpcCallInternal json.getBlock "get_block"
    (some ("\x7b \"hash\": \"" ++ hexEncode hash.toList ++ "\" \x7d")) MAX_RESPONSE_SIZE
  Call.ofExcept (Blocks.readBlock { blob, id := none })

/-- `<MoneroDaemon as ProvidesUnvalidatedBlockchain>::block_hash`. A node without the block answers with a hash of zeros. -/
def blockHash (json : JsonAnswers) (daemon : MoneroDaemon σ) (number : UInt64) : EStateM InterfaceError σ (Bytes 32) := do
  let hash ← daemon.jsonRpcCallInternal json.onGetBlockHash "on_get_block_hash" (some ("[" ++ toString number.toNat ++ "]")) 0
  let hash ← Call.ofExcept (hashHex hash)
  if hash = Bytes.replicate 32 0 then
    throw (.InterfaceError ("requested hash for block " ++ toString number.toNat ++ ", which the interface did not have"))
  else pure hash

/-- `ProvidesUnvalidatedBlockchain::block_by_number`, by its default. -/
def blockByNumber (serde : SerdeJson) (daemon : MoneroDaemon σ) (number : UInt64) : Call σ InterfaceError Block := do
  let blocks ← Blocks.contiguousBlocks serde daemon { start := number, stop := number }
  if blocks.length ≠ 1 then
    throw (.error (.InternalError (returnedMessage "ProvidesUnvalidatedBlockchain::contiguous_blocks" "blocks" blocks.length 1)))
  else match blocks.getLast? with
    | some block => pure block
    | none => throw (.panic "verified we had a block")

/-- `impl ProvidesUnvalidatedBlockchain for MoneroDaemon`. -/
def providesUnvalidatedBlockchain (serde : SerdeJson) (json : JsonAnswers) (daemon : MoneroDaemon σ) :
    ProvidesUnvalidatedBlockchain σ where
  contiguousBlocks := Blocks.contiguousBlocks serde daemon
  block := fun hash => Call.propagate id (daemon.block json hash)
  blockByNumber := daemon.blockByNumber serde
  blockHash := fun number => Call.propagate id (daemon.blockHash json number)

/-! ## Transactions -/

/-- `TRANSACTIONS_PER_REQUEST_LIMIT`. -/
def TRANSACTIONS_PER_REQUEST_LIMIT : ℕ := min 100 (REQUEST_SIZE_TARGET / min (JSON_BYTE_OVERHEAD_FACTOR_ESTIMATE * 32) USIZE_MAX)

/-- `TRANSACTIONS_PER_RESPONSE_LIMIT`, with `div_ceil`. -/
def TRANSACTIONS_PER_RESPONSE_LIMIT : ℕ :=
  (MAX_RESPONSE_SIZE - HTTP_OVERHEAD_ESTIMATE + BinRpc.TRANSACTION_SIZE_BOUND - 1) / BinRpc.TRANSACTION_SIZE_BOUND

/-- `TRANSACTIONS_LIMIT`. -/
def TRANSACTIONS_LIMIT : ℕ := min TRANSACTIONS_PER_REQUEST_LIMIT TRANSACTIONS_PER_RESPONSE_LIMIT

/-- A request for transactions, with whether it asks for them pruned. -/
def transactionsRequest (prune : Bool) (hashesHex : List String) : String :=
  "\x7b \"txs_hashes\": [" ++ ("\"" ++ "\",\"".intercalate hashesHex ++ "\"") ++ "]" ++ (if prune then ", \"prune\": true" else "") ++
    " \x7d"

/-- The text of the error for an amount of transactions which is not the one requested. -/
def missingMessage (prune : Bool) : String :=
  if prune then "not missing any transactions yet didn't return all pruned transactions"
  else "not missing any transactions yet didn't return all transactions"

/-- A round of the loop of `transactions` and `pruned_transactions`, for the hashes which are drained. -/
def requestTransactions (json : JsonAnswers) (daemon : MoneroDaemon σ) (prune : Bool) (hashesHex : List String) :
    Call σ TransactionsError (List TransactionResponse) := do
  let txs ← Call.propagate .InterfaceError (daemon.rpcCallInternal json.getTransactions "get_transactions"
    (some (transactionsRequest prune hashesHex)) (min (hashesHex.length * BinRpc.TRANSACTION_SIZE_BOUND) USIZE_MAX))
  if txs.missedTx ≠ [] then throw (.error .TransactionNotFound)
  else if txs.txs.length ≠ hashesHex.length then throw (.error (.InterfaceError (.InvalidInterface (missingMessage prune))))
  else pure txs.txs

/-- The loop of `transactions` and of `pruned_transactions`, with the transactions received so far. -/
def transactionsLoop (json : JsonAnswers) (daemon : MoneroDaemon σ) (prune : Bool) (hashesHex : List String)
    (allTxs : List TransactionResponse) : Call σ TransactionsError (List TransactionResponse) :=
  if hashesHex = [] then pure allTxs
  else do
    let thisCount := min TRANSACTIONS_LIMIT hashesHex.length
    let txs ← requestTransactions json daemon prune (hashesHex.take thisCount)
    transactionsLoop json daemon prune (hashesHex.drop thisCount) (allTxs ++ txs)
termination_by hashesHex.length
decreasing_by
  have hlimit : 0 < TRANSACTIONS_LIMIT := by decide
  have := List.length_pos_iff.2 ‹_›
  rw [List.length_drop]
  omega

/-- `{:?}` of the hash a transaction allegedly has. -/
def debugHash (txHash : String) : String :=
  match rpcHex txHash with
  | .ok bytes => "Some(\"" ++ hexEncode bytes ++ "\")"
  | .error _ => "None"

/-- The error for a transaction which cannot be read. -/
def invalidTransaction (res : TransactionResponse) : TransactionsError :=
  .InterfaceError (.InvalidInterface ("node yielded transaction allegedly with hash " ++ debugHash res.txHash ++ " which was invalid"))

/-- `rpc_hex` where an error of transactions is returned. -/
def transactionHex (value : String) : Except TransactionsError (List UInt8) := (rpcHex value).mapError .InterfaceError

/-- A transaction of a response of `transactions`. The pruned transaction is used where there is no other. -/
def readResponse (res : TransactionResponse) : Except TransactionsError (Transaction NotPruned) := do
  let buf ← transactionHex (if res.asHex ≠ "" then res.asHex else res.prunedAsHex)
  match Transaction.read NotPruned buf with
  | .error _ _ => throw (invalidTransaction res)
  | .ok _ (_ :: _) => throw (.InterfaceError (.InvalidInterface "transaction had extra bytes after it"))
  | .ok tx [] =>
    -- The pruned transaction is the whole of it only for a miner transaction
    if res.asHex = "" ∧ tx.txPrefix.firstIsGen = false then throw .PrunedTransaction else pure tx

/-- A transaction of a response of `pruned_transactions`. -/
def readPrunedResponse (res : TransactionResponse) : Except (Failure TransactionsError) PrunedTransactionWithPrunableHash := do
  let buf ← (transactionHex res.prunedAsHex).mapError .error
  match Transaction.read Pruned buf with
  | .error _ _ => throw (.error (invalidTransaction res))
  | .ok _ (_ :: _) => throw (.error (.InterfaceError (.InvalidInterface "pruned transaction had extra bytes after it")))
  | .ok tx [] => do
    let prunableHash ← if tx.isV1 then pure none
      else some <$> (hashHex res.prunableHash).mapError fun e => .error (.InterfaceError e)
    match PrunedTransactionWithPrunableHash.new tx prunableHash with
    | some tx => pure tx
    | none => throw (.panic
      "couldn't create `PrunedTransactionWithPrunableHash` despite providing prunable hash if version != 1")

/-- `<MoneroDaemon as ProvidesUnvalidatedTransactions>::transactions`. -/
def transactions (json : JsonAnswers) (daemon : MoneroDaemon σ) (hashes : List (Bytes 32)) :
    Call σ TransactionsError (List (Transaction NotPruned)) := do
  let allTxs ← transactionsLoop json daemon false (hashes.map fun hash => hexEncode hash.toList) []
  Call.ofExcept (allTxs.mapM fun res => (readResponse res).mapError .error)

/-- `<MoneroDaemon as ProvidesUnvalidatedTransactions>::pruned_transactions`. -/
def prunedTransactions (json : JsonAnswers) (daemon : MoneroDaemon σ) (hashes : List (Bytes 32)) :
    Call σ TransactionsError (List PrunedTransactionWithPrunableHash) := do
  let allTxs ← transactionsLoop json daemon true (hashes.map fun hash => hexEncode hash.toList) []
  Call.ofExcept (allTxs.mapM readPrunedResponse)

/-- `ProvidesUnvalidatedTransactions::transaction` and `pruned_transaction`, by their defaults. -/
def onlyTransaction (method : String) (transactions : List (Bytes 32) → Call σ TransactionsError (List α)) (hash : Bytes 32) :
    Call σ TransactionsError α := do
  let txs ← transactions [hash]
  if txs.length ≠ 1 then throw (wrongAmount method txs.length 1)
  else match txs.getLast? with
    | some tx => pure tx
    | none => throw (.panic "verified we had a transaction")

/-- `impl ProvidesUnvalidatedTransactions for MoneroDaemon`. -/
def providesUnvalidatedTransactions (json : JsonAnswers) (daemon : MoneroDaemon σ) : ProvidesUnvalidatedTransactions σ where
  transactions := daemon.transactions json
  prunedTransactions := daemon.prunedTransactions json
  transaction := onlyTransaction "transactions" (daemon.transactions json)
  prunedTransaction := onlyTransaction "pruned_transactions" (daemon.prunedTransactions json)

/-- The JSON methods which the scannable blocks of a daemon are made with. -/
def jsonMethods (json : JsonAnswers) (daemon : MoneroDaemon σ) : BinRpc.JsonMethods σ where
  block := fun hash => Call.propagate id (daemon.block json hash)
  blockHash := fun number => Call.propagate id (daemon.blockHash json number)
  prunedTransactions := daemon.prunedTransactions json

/-- `impl ProvidesUnvalidatedScannableBlocks for MoneroDaemon`. -/
def providesUnvalidatedScannableBlocks (Γ : Ctx) (serde : SerdeJson) (json : JsonAnswers) (daemon : MoneroDaemon σ) :
    ProvidesUnvalidatedScannableBlocks σ where
  contiguousScannableBlocks := BinRpc.contiguousScannableBlocks Γ serde (daemon.jsonMethods json) daemon
  scannableBlock := BinRpc.scannableBlock Γ (daemon.jsonMethods json) daemon
  scannableBlockByNumber := BinRpc.scannableBlockByNumber Γ (daemon.jsonMethods json) daemon

/-- `<MoneroDaemon as ProvidesBlockchain>`. -/
def providesBlockchain (Γ : Ctx) (serde : SerdeJson) (json : JsonAnswers) (daemon : MoneroDaemon σ) : ProvidesBlockchain σ :=
  (daemon.providesUnvalidatedBlockchain serde json).providesBlockchain Γ

/-- `<MoneroDaemon as ProvidesTransactions>`. -/
def providesTransactions (Γ : Ctx) (json : JsonAnswers) (daemon : MoneroDaemon σ) : ProvidesTransactions σ :=
  (daemon.providesUnvalidatedTransactions json).providesTransactions Γ

/-- `<MoneroDaemon as ProvidesScannableBlocks>`. -/
def providesScannableBlocks (Γ : Ctx) (serde : SerdeJson) (json : JsonAnswers) (daemon : MoneroDaemon σ) : ProvidesScannableBlocks σ :=
  (daemon.providesUnvalidatedScannableBlocks Γ serde json).providesScannableBlocks Γ (daemon.providesTransactions Γ json)

/-- `<MoneroDaemon as PublishTransaction>::publish_transaction`. -/
def publishTransaction (json : JsonAnswers) (daemon : MoneroDaemon σ) (tx : Transaction NotPruned) :
    Call σ PublishTransactionError Unit := do
  let res ← Call.propagate .InterfaceError (daemon.rpcCallInternal json.sendRawTransaction "send_raw_transaction"
    (some ("\x7b \"tx_as_hex\": \"" ++ hexEncode tx.write ++ "\", \"do_sanity_checks\": false \x7d")) 0)
  if res.status ≠ "OK" then throw (.error (.TransactionRejected res.reason)) else pure ()

/-! ## Fees -/

/-- `GRACE_BLOCKS_FOR_FEE_ESTIMATE`. -/
def GRACE_BLOCKS_FOR_FEE_ESTIMATE : ℕ := 10

/-- `MULTIPLIERS`. -/
def MULTIPLIERS : List UInt64 := [1, 5, 25, 1000]

/-- The fee rate an estimate gives for a priority. -/
def feeRateOf (priority : FeePriority) (res : FeeResponse) : Except FeeError FeeRate :=
  if res.status ≠ "OK" then .error .InvalidFee
  else match res.fees with
    | some fees =>
      let priorityIdx := if 4 ≤ priority.toU32 then 3 else priority.toU32.toNat - 1
      match fees[priorityIdx]? with
      | none => .error .InvalidFeePriority
      | some fee =>
        match FeeRate.new fee res.quantizationMask with
        | some feeRate => .ok feeRate
        | none => .error .InvalidFee
    | none =>
      let priorityIdx := if priority.toU32 = 0 then 1 else priority.toU32.toNat - 1
      match MULTIPLIERS[priorityIdx]? with
      | none => .error .InvalidFeePriority
      | some feeMultiplier =>
        if res.fee.toNat * feeMultiplier.toNat < 2 ^ 64 then
          match FeeRate.new (res.fee * feeMultiplier) res.quantizationMask with
          | some feeRate => .ok feeRate
          | none => .error .InvalidFee
        else .error .InvalidFee

/-- `<MoneroDaemon as ProvidesUnvalidatedFeeRates>::fee_rate`. -/
def feeRate (json : JsonAnswers) (daemon : MoneroDaemon σ) (priority : FeePriority) : Call σ FeeError FeeRate := do
  let res ← Call.propagate .InterfaceError (daemon.jsonRpcCallInternal json.getFeeEstimate "get_fee_estimate"
    (some ("\x7b \"grace_blocks\": " ++ toString GRACE_BLOCKS_FOR_FEE_ESTIMATE ++ " \x7d")) 0)
  Call.ofExcept ((feeRateOf priority res).mapError .error)

end MoneroDaemon

/-- `<P as ProvidesFeeRates>::fee_rate`, of an interface which provides unvalidated fee rates with the function given. -/
def validFeeRate {σ : Type} (feeRate : FeePriority → Call σ FeeError FeeRate) (priority : FeePriority) (maxPerWeight : UInt64) :
    Call σ FeeError FeeRate := do
  let feeRate ← feeRate priority
  if maxPerWeight < feeRate.perWeight then throw (.error .InvalidFee) else pure feeRate

end MoneroOxide
