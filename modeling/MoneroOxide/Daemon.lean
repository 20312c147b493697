import MoneroOxide.Interface

/-!
# Blocks from a daemon (`interface/daemon/src/lib.rs`, `interface/daemon/src/blocks.rs`)

`MoneroDaemon` asks a daemon for blocks over an HTTP transport, an arbitrary party with a state. `serde_json` is a parameter: two
functions which say what a text deserializes to. A round of the loop of `contiguous_blocks` is split at the call it makes:
`prepare` is what comes before, `receive` what comes after. Where the source would overflow, underflow or divide by zero there is a
panic. The loop is run for as many rounds as `fuel` says, and it panics when that is used up.
-/

namespace MoneroOxide

/-- `usize::MAX`. -/
def USIZE_MAX : ℕ := 2 ^ 64 - 1

/-- `MAX_REQUEST_SIZE`. -/
def MAX_REQUEST_SIZE : ℕ := 1024 * 1024

/-- `MAX_RESPONSE_SIZE`. -/
def MAX_RESPONSE_SIZE : ℕ := 100 * 1024 * 1024

/-- `HTTP_OVERHEAD_ESTIMATE`. -/
def HTTP_OVERHEAD_ESTIMATE : ℕ := 2 ^ 16 - 1

/-- `REQUEST_SIZE_TARGET`. -/
def REQUEST_SIZE_TARGET : ℕ := MAX_REQUEST_SIZE - HTTP_OVERHEAD_ESTIMATE - 2048

/-- `JSON_BYTE_OVERHEAD_FACTOR_ESTIMATE`. -/
def JSON_BYTE_OVERHEAD_FACTOR_ESTIMATE : ℕ := 8

/-- `MIN_RESPONSE_SIZE_IN_BYTES_ESTIMATE`. -/
def MIN_RESPONSE_SIZE_IN_BYTES_ESTIMATE : ℕ := 1024

/-- The value of a hexadecimal digit, of either case. -/
def hexValue (c : Char) : Option ℕ :=
  if '0' ≤ c ∧ c ≤ '9' then some (c.toNat - '0'.toNat)
  else if 'a' ≤ c ∧ c ≤ 'f' then some (c.toNat - 'a'.toNat + 10)
  else if 'A' ≤ c ∧ c ≤ 'F' then some (c.toNat - 'A'.toNat + 10)
  else none

/-- `hex::decode`, on the characters of the text. -/
def hexDecode : List Char → Option (List UInt8)
  | [] => some []
  | [_] => none
  | high :: low :: rest => do
    let h ← hexValue high
    let l ← hexValue low
    let bytes ← hexDecode rest
    pure (UInt8.ofNat (16 * h + l) :: bytes)

/-- `rpc_hex`. -/
def rpcHex (value : String) : Except InterfaceError (List UInt8) :=
  match hexDecode value.toList with
  | some bytes => .ok bytes
  | none => .error (.InvalidInterface "expected hex wasn't hex")

/-- `JsonRpcResponse<BlockResponse>`. -/
structure JsonRpcResponse where
  blob : String
  id : Option UInt64
  deriving DecidableEq, Repr

/-- What `serde_json::from_str` deserializes a text to: one response, or an array of them. -/
structure SerdeJson where
  response : String → Option JsonRpcResponse
  responses : String → Option (List JsonRpcResponse)

/-- `HttpTransport::post`. -/
abbrev HttpTransport (σ : Type) : Type :=
  (route : String) → (body : List UInt8) → (responseSizeLimit : Option ℕ) → EStateM InterfaceError σ (List UInt8)

/-- `MoneroDaemon`. -/
structure MoneroDaemon (σ : Type) where
  transport : HttpTransport σ
  responseSizeLimits : Bool
  supportsJsonRpcBatchRequests : Bool

/-- `MoneroDaemon::rpc_call_core`. -/
def MoneroDaemon.rpcCallCore {σ : Type} (daemon : MoneroDaemon σ) (route : String) (params : Option String)
    (responseSizeLimit : ℕ) : EStateM InterfaceError σ String := do
  let responseSizeLimit := max responseSizeLimit MIN_RESPONSE_SIZE_IN_BYTES_ESTIMATE
  let jsonResponseSizeLimit := min (JSON_BYTE_OVERHEAD_FACTOR_ESTIMATE * responseSizeLimit) USIZE_MAX
  let fullResponseSizeLimit := min (HTTP_OVERHEAD_ESTIMATE + jsonResponseSizeLimit) USIZE_MAX
  let responseSizeLimit := min fullResponseSizeLimit MAX_RESPONSE_SIZE
  let body := match params with
    | some params => params.toUTF8.toList
    | none => []
  let res ← daemon.transport route body (if daemon.responseSizeLimits then some responseSizeLimit else none)
  match String.fromUTF8? (res.take responseSizeLimit).toByteArray with
  | some text => pure text
  | none => throw (.InvalidInterface "response wasn't utf-8")

namespace Blocks

/-- `BLOCK_SIZE_ESTIMATE`, for a thousand transactions a block. -/
def BLOCK_SIZE_ESTIMATE : ℕ := BlockHeader.SIZE_UPPER_BOUND + VarInt.upperBound 64 + 1000 * 32

/-- `BLOCK_JSON_SIZE_ESTIMATE`. -/
def BLOCK_JSON_SIZE_ESTIMATE : ℕ := JSON_BYTE_OVERHEAD_FACTOR_ESTIMATE * BLOCK_SIZE_ESTIMATE

/-- `BLOCKS_PER_RESPONSE_ESTIMATE`. -/
def BLOCKS_PER_RESPONSE_ESTIMATE : ℕ := (MAX_RESPONSE_SIZE - HTTP_OVERHEAD_ESTIMATE) / BLOCK_JSON_SIZE_ESTIMATE

/-- `TARGET_RESPONSE_SIZE`. -/
def TARGET_RESPONSE_SIZE : ℕ := (MAX_RESPONSE_SIZE - HTTP_OVERHEAD_ESTIMATE) * 4 / 5

/-- `block_request`. -/
def blockRequest (number : ℕ) : String :=
  "\x7b\n      \"jsonrpc\": \"2.0\",\n      \"method\": \"get_block\",\n      \"params\": \x7b \"height\": " ++ toString number ++
    " \x7d,\n      \"id\": " ++ toString number ++ "\n    \x7d"

/-- What the loop of `contiguous_blocks` works on: the range left, the adaptive size of a request, and the blocks read. -/
structure LoopState where
  start : ℕ
  stop : ℕ
  blocksPerRequest : ℕ
  res : List Block

/-- A request for the blocks from `start` to `stop`. -/
structure Request where
  start : ℕ
  stop : ℕ
  requestedBlocks : ℕ
  singleBlock : Bool
  text : String

/-- How a round ends when it does not fail. -/
inductive Outcome where
  | again (state : LoopState)
  | returned (res : List Block)

/-- `a - b`, which panics when it underflows. -/
def checkedSub (a b : ℕ) : Except (Failure InterfaceError) ℕ :=
  if b ≤ a then .ok (a - b) else .error (.panic "attempt to subtract with overflow")

/-- `a + b`, which panics when it overflows. -/
def checkedAdd (a b : ℕ) : Except (Failure InterfaceError) ℕ :=
  if a + b ≤ USIZE_MAX then .ok (a + b) else .error (.panic "attempt to add with overflow")

/-- `a / b`, which panics on a division by zero. -/
def checkedDiv (a b : ℕ) : Except (Failure InterfaceError) ℕ :=
  if b ≠ 0 then .ok (a / b) else .error (.panic "attempt to divide by zero")

/-- `(end - start) + 1`. -/
def amountRequested (start stop : ℕ) : Except (Failure InterfaceError) ℕ := do
  let difference ← checkedSub stop start
  checkedAdd difference 1

/-- The loop that adds requests to a batch, until one would exceed the target for its size: the batch, and the number of that
request. -/
def extendRequest (request : String) : List ℕ → String × Option ℕ
  | [] => (request, none)
  | number :: numbers =>
    let nextRequest := blockRequest number
    if REQUEST_SIZE_TARGET ≤ min (request.utf8ByteSize + nextRequest.utf8ByteSize) USIZE_MAX then (request, some number)
    else extendRequest (request ++ "," ++ nextRequest) numbers

/-- A round of the loop up to its call. -/
def prepare (state : LoopState) : Except (Failure InterfaceError) Request := do
  let start := state.start
  let less ← checkedSub state.blocksPerRequest 1
  let stop := min (min (start + less) USIZE_MAX) state.stop
  let requestedBlocks ← amountRequested start stop
  if start = stop then pure { start, stop, requestedBlocks, singleBlock := true, text := blockRequest start }
  else
    match extendRequest ("[" ++ blockRequest start) (List.range' (start + 1) (stop - start)) with
    | (request, none) => pure { start, stop, requestedBlocks, singleBlock := false, text := request ++ "]" }
    | (request, some number) => do
      let stop ← checkedSub number 1
      let requestedBlocks ← amountRequested start stop
      pure { start, stop, requestedBlocks, singleBlock := false, text := request ++ "]" }

/-- The order of `Option<usize>`. -/
def idLe : Option UInt64 → Option UInt64 → Bool
  | none, _ => true
  | some _, none => false
  | some a, some b => a ≤ b

/-- How an `Option<usize>` is printed for debugging. -/
def debugId : Option UInt64 → String
  | none => "None"
  | some id => "Some(" ++ toString id.toNat ++ ")"

/-- The block a response holds. -/
def readBlock (json : JsonRpcResponse) : Except InterfaceError Block := do
  let bytes ← rpcHex json.blob
  match Block.read bytes with
  | .ok block _ => pure block
  | .error _ _ => throw (.InvalidInterface "invalid block")

/-- The loop over the numbers requested and the responses. -/
def readBlocks : List (ℕ × JsonRpcResponse) → Except InterfaceError (List Block)
  | [] => pure []
  | (number, json) :: rest =>
    if json.id.map UInt64.toNat ≠ some number then
      throw (.InvalidInterface ("request with ID " ++ toString number ++
        " received response in complimentary position with ID " ++ debugId json.id))
    else do
      let block ← readBlock json
      let blocks ← readBlocks rest
      pure (block :: blocks)

/-- The update of the amount of blocks to request, for the size of a response. -/
def adapt (blocksPerRequest responseByteLength : ℕ) : Except (Failure InterfaceError) ℕ := do
  let blocksPerRequest ←
    if responseByteLength < TARGET_RESPONSE_SIZE then do
      -- `div_ceil`
      let bytesPerBlock ← checkedDiv (responseByteLength + blocksPerRequest - 1) blocksPerRequest
      let proportionalBlocksPerRequest ← checkedDiv TARGET_RESPONSE_SIZE bytesPerBlock
      let fiftyPercentMoreBlocks := min (blocksPerRequest + max (blocksPerRequest / 2) 1) USIZE_MAX
      pure (min proportionalBlocksPerRequest fiftyPercentMoreBlocks)
    else pure blocksPerRequest
  if TARGET_RESPONSE_SIZE < responseByteLength then pure (max (blocksPerRequest / 2) 1) else pure blocksPerRequest

/-- The responses a text deserializes to, as asked for. -/
def parseResponses (json : SerdeJson) (request : Request) (text : String) : Option (List JsonRpcResponse) :=
  if request.singleBlock then (json.response text).map fun block => [block] else json.responses text

/-- A round of the loop from the result of its call. -/
def receive (json : SerdeJson) (state : LoopState) (request : Request) :
    Except InterfaceError String → Except (Failure InterfaceError) Outcome
  | .error e =>
    if request.singleBlock then .error (.error e) else .ok (.again { state with blocksPerRequest := 1 })
  | .ok text =>
    match parseResponses json request text with
    | none => .error (.error (.InvalidInterface "`get_block` response wasn't the expected JSON"))
    | some jsonBlocks =>
      if jsonBlocks.length ≠ request.requestedBlocks then
        .error (.error (.InvalidInterface ("requested " ++ toString request.requestedBlocks ++ " blocks but received " ++
          toString jsonBlocks.length)))
      else
        let jsonBlocks := jsonBlocks.mergeSort fun a b => idLe a.id b.id
        let numbers := List.range' request.start (request.stop + 1 - request.start)
        match readBlocks (numbers.zip jsonBlocks) with
        | .error e => .error (.error e)
        | .ok blocks =>
          let res := state.res ++ blocks
          if state.start + request.requestedBlocks ≤ USIZE_MAX then do
            let blocksPerRequest ← adapt state.blocksPerRequest text.utf8ByteSize
            pure (.again { start := state.start + request.requestedBlocks, stop := state.stop, blocksPerRequest, res })
          else .ok (.returned res)

/-- The size of a request, which is one without support for batched requests. -/
def batched (supportsJsonRpcBatchRequests : Bool) (state : LoopState) : LoopState :=
  if !supportsJsonRpcBatchRequests then { state with blocksPerRequest := 1 } else state

/-- The state before the first round. -/
def initial (range : RangeInclusive) : LoopState where
  start := range.start.toNat
  stop := range.stop.toNat
  blocksPerRequest := BLOCKS_PER_RESPONSE_ESTIMATE
  res := []

/-- The result of a call, which is then matched on. -/
def attempt {σ ε ε' α : Type} (x : EStateM ε σ α) : Call σ ε' (Except ε α) := fun s =>
  match x s with
  | .ok a t => .ok (.ok a) t
  | .error e t => .ok (.error e) t

/-- The loop of `contiguous_blocks`. -/
def loop {σ : Type} (json : SerdeJson) (daemon : MoneroDaemon σ) : ℕ → LoopState → Call σ InterfaceError (List Block)
  | 0, _ => throw (.panic "out of fuel")
  | fuel + 1, state =>
    if state.start ≤ state.stop then do
      let state := batched daemon.supportsJsonRpcBatchRequests state
      let request ← Call.ofExcept (prepare state)
      let answer ← attempt (daemon.rpcCallCore "json_rpc" (some request.text) MAX_RESPONSE_SIZE)
      let outcome ← Call.ofExcept (receive json state request answer)
      match outcome with
      | .again state => loop json daemon fuel state
      | .returned res => pure res
    else pure state.res

/-- `<MoneroDaemon as ProvidesUnvalidatedBlockchain>::contiguous_blocks`. A block is asked for twice at most. -/
def contiguousBlocks {σ : Type} (json : SerdeJson) (daemon : MoneroDaemon σ) (range : RangeInclusive) :
    Call σ InterfaceError (List Block) :=
  loop json daemon (2 * range.toList.length + 2) (initial range)

end Blocks

end MoneroOxide
