import MoneroOxide.BlocksBin
import MoneroOxide.Lib.Lists
import MoneroOxide.Scan

/-!
# Outputs and their distribution from a daemon (`interface/daemon/src/bin_rpc/epee.rs`, `interface/daemon/src/bin_rpc/mod.rs`)

The requests are written by hand, into a buffer which is kept from one request to the next and truncated to its start for each. Their
lengths are asserted, so that a length which is wrong panics here, as it does in a build with debug assertions. A `usize` is 64 bits
wide. The JSON method for the latest block is an arbitrary call.
-/

namespace MoneroOxide

namespace BinRpc

/-- `debug_assert_eq!`. -/
def debugAssertEq (left right : ℕ) : Except (Failure InterfaceError) Unit :=
  if left = right then .ok ()
  else .error (.panic ("assertion `left == right` failed\n  left: " ++ toString left ++ "\n right: " ++ toString right))

/-- The byte of a type, for one value. -/
def typeByte (kind : Epee.Kind) : UInt8 := UInt8.ofNat kind.discriminant

/-- The byte of a type, for an array. -/
def arrayByte (kind : Epee.Kind) : UInt8 := typeByte kind ||| ((1 : UInt8) <<< 7)

/-- `u64::to_le_bytes`. -/
def toLeBytes (n : UInt64) : List UInt8 := (leBytes 8 n.toNat).toList

/-! ## Outputs -/

/-- `RingCtOutputInformation`. -/
structure RingCtOutputInformation (Γ : Ctx) where
  blockNumber : UInt64
  unlocked : Bool
  key : CompressedPoint
  commitment : Γ.Point
  transaction : Bytes 32

/-- `EpeeEntry::to_bool`. -/
def toBool : Walk Bool := do
  let r ← ask (.access .to_bool)
  match r with
  | .value (.bool b) => pure b
  | _ => throw notAdmitted

/-- What was read of an output. -/
structure OutFields where
  blockNumber : Option UInt64
  key : Option CompressedPoint
  commitment : Option CompressedPoint
  transaction : Option (Bytes 32)
  unlocked : Option Bool

/-- A field of an output: one of these, or one which is not read. -/
def outField (key : List UInt8) (acc : OutFields) : Walk OutFields :=
  if key = ascii "height" then do
    let blockNumber ← toU64
    pure { acc with blockNumber := some blockNumber }
  else if key = ascii "key" then do
    let bytes ← epee32
    pure { acc with key := some bytes }
  else if key = ascii "mask" then do
    let bytes ← epee32
    pure { acc with commitment := some bytes }
  else if key = ascii "txid" then do
    let bytes ← epee32
    pure { acc with transaction := some bytes }
  else if key = ascii "unlocked" then do
    let unlocked ← toBool
    pure { acc with unlocked := some unlocked }
  else do
    dropInnermost
    pure acc

/-- The output of these fields, if none is missing and its commitment is a point. -/
def outOf (Γ : Ctx) : OutFields → Except Exit (RingCtOutputInformation Γ)
  | ⟨some blockNumber, some key, some commitment, some transaction, some unlocked⟩ =>
    match CompressedPoint.decompress Γ commitment with
    | none => .error (invalid "`get_outs.bin` returned an invalid commitment")
    | some commitment => .ok { blockNumber, unlocked, key, commitment, transaction }
  | _ => .error (invalid "missing field in output from `get_outs.bin`")

/-- A round of the loop over `outs`. -/
def outItem (Γ : Ctx) (res : List (RingCtOutputInformation Γ)) : Walk (List (RingCtOutputInformation Γ)) := do
  fields
  let read ← forFields outField ⟨none, none, none, none, none⟩
  let out ← Call.ofExcept (outOf Γ read)
  dropInnermost
  pure (res ++ [out])

/-- `accumulate_outs`. -/
def accumulateOuts (Γ : Ctx) (epee : List UInt8) (amount : ℕ) (res : List (RingCtOutputInformation Γ)) :
    Except (Failure InterfaceError) (List (RingCtOutputInformation Γ)) := do
  let start := res.length
  let read ← decode epee (do
    field "outs" iterate
    forItems (outItem Γ) res)
  let res := read.getD res
  if res.length ≠ start + amount then
    .error (.error (.InvalidInterface "`get_outs.bin` had a distinct amount of outs than expected"))
  else .ok res

/-- `EXPLICIT_MAX_OUTS`. -/
def EXPLICIT_MAX_OUTS : ℕ := 5000

/-- `IMPLICIT_MAX_OUTS`. -/
def IMPLICIT_MAX_OUTS : ℕ := REQUEST_SIZE_TARGET / 32

/-- `MAX_OUTS`. -/
def MAX_OUTS : ℕ := min EXPLICIT_MAX_OUTS IMPLICIT_MAX_OUTS

/-- `BOUND_PER_OUT`. -/
def BOUND_PER_OUT : ℕ := 2 * (8 + 8 + 32 + 32 + 32 + 1)

/-- `expected_request_header_len`, of `ringct_outputs`. -/
def OUTS_HEADER_LEN : ℕ := 19

/-- The start of each request of `ringct_outputs`. -/
def outsHeader : List UInt8 := Epee.HEADER ++ [Epee.VERSION] ++ [(1 : UInt8) <<< 2] ++ epeeKey "outputs" ++ [arrayByte .Object]

/-- What `ringct_outputs` requests for an index. -/
def outRequest (index : UInt64) : List UInt8 :=
  [(2 : UInt8) <<< 2] ++ epeeKey "amount" ++ [typeByte .Uint64] ++ toLeBytes 0 ++ epeeKey "index" ++ [typeByte .Uint64] ++
    toLeBytes index

/-- The request for a chunk of the indexes, in the buffer of the request before it. -/
def outsRequest (request : List UInt8) (expectedRequestLen : ℕ) (firstIter : Bool) (indexes : List UInt64) :
    Except (Failure InterfaceError) (List UInt8) := do
  let request := request.take OUTS_HEADER_LEN
  let indexesLen ← u64FromUsize indexes.length "requesting more than 2**64 indexes?"
  let request := request ++ toLeBytes ((indexesLen <<< 2) ||| 0b11)
  let request := indexes.foldl (fun request index => request ++ outRequest index) request
  -- Only checked on the first iteration as the final chunk may be shorter
  if firstIter then debugAssertEq expectedRequestLen request.length else .ok ()
  pure request

/-- The loop of `ringct_outputs` over the chunks. -/
def outsLoop {σ : Type} (Γ : Ctx) (daemon : MoneroDaemon σ) (expectedRequestLen : ℕ) :
    List (List UInt64) → List UInt8 → Bool → List (RingCtOutputInformation Γ) →
    Call σ InterfaceError (List (RingCtOutputInformation Γ))
  | [], _, _, res => pure res
  | indexes :: chunks, request, firstIter, res => do
    let request ← Call.ofExcept (outsRequest request expectedRequestLen firstIter indexes)
    let outs ← binCall daemon "get_outs.bin" request (min (indexes.length * BOUND_PER_OUT) USIZE_MAX)
    let res ← Call.ofExcept (accumulateOuts Γ outs indexes.length res)
    outsLoop Γ daemon expectedRequestLen chunks request false res

/-- `<MoneroDaemon as ProvidesUnvalidatedOutputs>::ringct_outputs`. -/
def ringctOutputs {σ : Type} (Γ : Ctx) (daemon : MoneroDaemon σ) (indexes : List UInt64) :
    Call σ InterfaceError (List (RingCtOutputInformation Γ)) := do
  let expectedRequestLen := OUTS_HEADER_LEN + 8 + min indexes.length MAX_OUTS * 32
  Call.ofExcept (debugAssertEq outsHeader.length OUTS_HEADER_LEN)
  outsLoop Γ daemon expectedRequestLen (Lists.chunks MAX_OUTS indexes) outsHeader true []

/-! ## The distribution of outputs -/

/-- `core::ops::Bound<usize>`. -/
inductive Bound where
  | Included (n : UInt64)
  | Excluded (n : UInt64)
  | Unbounded
  deriving DecidableEq, Repr

/-- The inclusive start of a range. -/
def inclusiveStart : Bound → Except (Failure InterfaceError) UInt64
  | .Included start => .ok start
  | .Excluded start =>
    if start.toNat + 1 ≤ USIZE_MAX then .ok (start + 1) else .error (.error (.InternalError "range's from wasn't representable"))
  | .Unbounded => .ok 0

/-- The inclusive end of a range. -/
def inclusiveEnd {σ : Type} (latestBlockNumber : Call σ InterfaceError UInt64) : Bound → Call σ InterfaceError UInt64
  | .Included stop => pure stop
  | .Excluded stop => if stop = 0 then throw (.error (.InternalError "range's to wasn't representable")) else pure (stop - 1)
  | .Unbounded => latestBlockNumber

/-- The request of `ringct_output_distribution`. A range to zero would be taken for one to the end of the chain, and is requested to
one. -/
def distributionRequest (start stop : UInt64) : List UInt8 :=
  Epee.HEADER ++ [Epee.VERSION] ++ [(5 : UInt8) <<< 2] ++
    epeeKey "from_height" ++ [typeByte .Uint64] ++ toLeBytes start ++
    epeeKey "to_height" ++ [typeByte .Uint64] ++ toLeBytes (if start = 0 ∧ stop = 0 then 1 else stop) ++
    epeeKey "cumulative" ++ [typeByte .Bool, 1] ++
    epeeKey "compress" ++ [typeByte .Bool, 0] ++
    epeeKey "amounts" ++ [arrayByte .Uint64] ++ [(1 : UInt8) <<< 2] ++ toLeBytes 0

/-- `extract_start_height`. -/
def extractStartHeight (epee : List UInt8) : Except (Failure InterfaceError) UInt64 := do
  let startHeight ← decode epee (do
    field "distributions" fields
    field "start_height" toU64)
  pure (startHeight.getD 0)

/-- `EpeeEntry::to_fixed_len_str`. -/
def toFixedLenStr (len : ℕ) : Walk (List UInt8) := do
  let r ← ask (.access (.to_fixed_len_str len))
  match r with
  | .value (.str bytes) => pure bytes
  | _ => throw notAdmitted

/-- `read_u64_array_from_epee`. -/
def readU64ArrayFromEpee (len : ℕ) (epee : List UInt8) : Except (Failure InterfaceError) (List UInt64) :=
  match Reader.replicate readU64 len epee with
  | .ok numbers _ => .ok numbers
  | .error _ _ => .error (.error (.InternalError "incomplete array despite precondition the array is complete"))

/-- `extract_distribution`. -/
def extractDistribution (epee : List UInt8) (expectedLen : ℕ) : Except (Failure InterfaceError) (List UInt64) := do
  let distribution ← decode epee (do
    field "distributions" fields
    if USIZE_MAX < expectedLen * 8 then
      throw (.failed (.error (.InternalError "requested a distribution whose byte length doesn't fit within a `usize`")))
    field "distribution" (toFixedLenStr (expectedLen * 8)))
  readU64ArrayFromEpee expectedLen (distribution.getD [])

/-- The checks on the start of the distribution, and how long it is to be. -/
def expectedDistributionLen (start stop startHeight : UInt64) : Except (Failure InterfaceError) ℕ :=
  if startHeight < start then
    .error (.error (.InvalidInterface ("requested distribution from " ++ toString start ++ " and got from " ++
      toString startHeight)))
  else if stop < startHeight then
    .error (.error (.InvalidInterface ("requested distribution to " ++ toString stop ++ " and got from " ++ toString startHeight)))
  else if start = 0 ∧ stop = 0 then .ok 2
  else if USIZE_MAX < stop.toNat - startHeight.toNat + 1 then
    .error (.error (.InternalError "expected length of distribution exceeded usize"))
  else .ok (stop.toNat - startHeight.toNat + 1)

/-- What `ringct_output_distribution` makes of an answer. -/
def distributionOf (start stop : UInt64) (distributions : List UInt8) : Except (Failure InterfaceError) (List UInt64) := do
  let startHeight ← extractStartHeight distributions
  let expectedLen ← expectedDistributionLen start stop startHeight
  let distribution ← extractDistribution distributions expectedLen
  -- Two blocks were requested for the range of the first one
  pure (if start = 0 ∧ stop = 0 then distribution.dropLast else distribution)

/-- `<MoneroDaemon as ProvidesUnvalidatedDecoys>::ringct_output_distribution`. -/
def ringctOutputDistribution {σ : Type} (daemon : MoneroDaemon σ) (latestBlockNumber : Call σ InterfaceError UInt64)
    (startBound endBound : Bound) : Call σ InterfaceError (List UInt64) := do
  let start ← Call.ofExcept (inclusiveStart startBound)
  let stop ← inclusiveEnd latestBlockNumber endBound
  if stop < start then
    throw (.error (.InternalError ("malformed range: inclusive start " ++ toString start ++ ", inclusive end " ++ toString stop)))
  else do
    let distributions ← binCall daemon "get_output_distribution.bin" (distributionRequest start stop)
      (min (min (stop.toNat - start.toNat + 2) USIZE_MAX * 8) USIZE_MAX)
    Call.ofExcept (distributionOf start stop distributions)

/-! ## The buffer of `fetch_contiguous_blocks` -/

/-- `expected_request_header_len`, of `fetch_contiguous_blocks`. -/
def FETCH_HEADER_LEN : ℕ := 32

/-- The start of each request of `fetch_contiguous_blocks`. -/
def fetchHeader : List UInt8 :=
  Epee.HEADER ++ [Epee.VERSION] ++ [(3 : UInt8) <<< 2] ++ epeeKey "prune" ++ [typeByte .Bool] ++ [1] ++
    epeeKey "start_height" ++ [typeByte .Uint64]

/-- The request for the blocks from `start` on, in the buffer of the request before it. -/
def fetchRequestReusing (request : List UInt8) (start remainingBlocks : ℕ) : Except (Failure InterfaceError) (List UInt8) := do
  let request := request.take FETCH_HEADER_LEN
  let request := request ++ (leBytes 8 start).toList
  let request := request ++ epeeKey "max_block_count" ++ [typeByte .Uint64] ++ (leBytes 8 remainingBlocks).toList
  debugAssertEq (FETCH_HEADER_LEN + 8 + 25) request.length
  pure request

/-- The loop of `fetch_contiguous_blocks`, with its buffer. -/
def fetchLoopReusing {σ : Type} (daemon : MoneroDaemon σ) :
    ℕ → List UInt8 → FetchState → Call σ InterfaceError (Bool × List UnvalidatedScannableBlock)
  | 0, _, _ => throw (.panic "out of fuel")
  | fuel + 1, request, state =>
    if state.start ≤ state.stop then do
      let request ← Call.ofExcept (fetchRequestReusing request state.start state.remainingBlocks)
      let epee ← binCall daemon "get_blocks.bin" request MAX_RESPONSE_SIZE
      let blocks ← Call.ofExcept (extractBlocksFromBlocksBin epee)
      let outcome ← Call.ofExcept (receiveBlocks state blocks)
      match outcome with
      | .again state => fetchLoopReusing daemon fuel request state
      | .returned applicable res => pure (applicable, res)
    else pure (true, state.res)

/-- `fetch_contiguous_blocks`, with its buffer. -/
def fetchContiguousBlocksReusing {σ : Type} (daemon : MoneroDaemon σ) (range : RangeInclusive)
    (res : List UnvalidatedScannableBlock) :
    Call σ InterfaceError (Bool × List UnvalidatedScannableBlock) := do
  let outcome ← Call.ofExcept (fetchInitial range res)
  match outcome with
  | .again state => do
    Call.ofExcept (debugAssertEq FETCH_HEADER_LEN fetchHeader.length)
    fetchLoopReusing daemon (range.toList.length + 1) fetchHeader state
  | .returned applicable res => pure (applicable, res)

end BinRpc

end MoneroOxide
