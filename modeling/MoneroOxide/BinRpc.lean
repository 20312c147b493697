import MoneroOxide.Daemon
import MoneroOxide.Epee

/-!
# Binary calls to a daemon (`interface/daemon/src/bin_rpc/epee.rs`, `interface/daemon/src/bin_rpc/mod.rs`)

A function which decodes an answer is a `Walk`: it calls the decoder, and drops what goes out of scope, in the order of the source.
After an error the walk is over, so that what is dropped then is not looked at. A `while let` over an iterator is run for as many rounds
as items are left of it, and one to see its end.
-/

namespace MoneroOxide

namespace BinRpc

/-! ## Walks -/

/-- How a walk ends without a result: it failed, or what it was for is not applicable to the answer. -/
inductive Exit where
  | failed (failure : Failure InterfaceError)
  | notApplicable
  deriving DecidableEq, Repr

/-- A function of a decoder with its live entries and iterators. -/
abbrev Walk (α : Type) : Type := EStateM Exit Epee.State α

/-- How an `EpeeError` is printed for debugging. -/
def debugEpeeError : Epee.EpeeError → String
  | .InternalError => "InternalError"
  | .InvalidHeader => "InvalidHeader"
  | .InvalidVersion none => "InvalidVersion(None)"
  | .InvalidVersion (some version) => "InvalidVersion(Some(" ++ toString version.toNat ++ "))"
  | .Short bytes => "Short(" ++ toString bytes ++ ")"
  | .UnrecognizedType => "UnrecognizedType"
  | .EmptyKey => "EmptyKey"
  | .DepthLimitExceeded => "DepthLimitExceeded"
  | .TypeError => "TypeError"
  | .EpeeReuse => "EpeeReuse"

/-- How an `io::Error` is printed for debugging. -/
def debugIoError : IoError → String
  | .unexpectedEof => "Error \x7b kind: UnexpectedEof, message: \"failed to fill whole buffer\" \x7d"
  | .other message => "Custom \x7b kind: Other, error: \"" ++ message ++ "\" \x7d"

/-- The exit for an interface which is invalid. -/
def invalid (message : String) : Exit := .failed (.error (.InvalidInterface message))

/-- `impl From<EpeeError> for InterfaceError`. -/
def epeeError (e : Epee.EpeeError) : Exit := invalid ("EpeeError::" ++ debugEpeeError e)

/-- The exit for a call or a response which the types do not admit. -/
def notAdmitted : Exit := .failed (.panic "not admitted")

/-- A call of the decoder, whose error is returned. -/
def ask (c : Epee.Call) : Walk Epee.Response := fun s =>
  match Epee.call c s with
  | none => .error notAdmitted s
  | some (.error (.panic message)) => .error (.failed (.panic message)) s
  | some (.error (.error e)) => .error (epeeError e) s
  | some (.ok (.error e, s)) => .error (epeeError e) s
  | some (.ok (r, s)) => .ok r s

/-- The next field of a `FieldIterator`: its key, with its entry alive. -/
def nextField : Walk (Option (List UInt8)) := do
  let r ← ask .next
  match r with
  | .field key _ _ => pure (some key)
  | .none => pure none
  | _ => throw notAdmitted

/-- Whether there is a next item of an `ArrayIterator`, with its entry alive. -/
def nextItem : Walk Bool := do
  let r ← ask .next
  match r with
  | .entry _ _ => pure true
  | .none => pure false
  | _ => throw notAdmitted

/-- `EpeeEntry::fields`. -/
def fields : Walk Unit := do
  let _ ← ask (.access .fields)
  pure ()

/-- `EpeeEntry::iterate`. -/
def iterate : Walk Unit := do
  let _ ← ask (.access .iterate)
  pure ()

/-- The innermost entry or iterator goes out of scope. -/
def dropInnermost : Walk Unit := do
  let _ ← ask .drop
  pure ()

/-- `EpeeEntry::to_str`. -/
def toStr : Walk (List UInt8) := do
  let r ← ask (.access .to_str)
  match r with
  | .value (.str bytes) => pure bytes
  | _ => throw notAdmitted

/-- `EpeeEntry::to_u64`. -/
def toU64 : Walk UInt64 := do
  let r ← ask (.access .to_u64)
  match r with
  | .value (.int n) => pure (UInt64.ofNat n.toNat)
  | _ => throw notAdmitted

/-- `epee_32`. -/
def epee32 : Walk (Bytes 32) := do
  let r ← ask (.access (.to_fixed_len_str 32))
  match r with
  | .value (.str bytes) =>
    if h : bytes.length = 32 then pure ⟨bytes, h⟩
    else throw (.failed (.panic "32-byte string couldn't be converted to a 32-byte array"))
  | _ => throw notAdmitted

/-- How many items are left of the innermost entry or iterator. -/
def itemsLeft (s : Epee.State) : ℕ :=
  match s.handles with
  | [] => 0
  | handle :: _ => handle.len

/-- The exit for a loop which was run for too few rounds. -/
def outOfFuel : Exit := .failed (.panic "out of fuel")

/-- The rounds of a `while let` over the fields of an object. -/
def fieldsLoop {β : Type} (body : List UInt8 → β → Walk β) : ℕ → β → Walk β
  | 0, _ => throw outOfFuel
  | fuel + 1, acc => do
    let key ← nextField
    match key with
    | none => pure acc
    | some key => do
      let acc ← body key acc
      fieldsLoop body fuel acc

/-- A `while let` over the fields of an object. -/
def forFields {β : Type} (body : List UInt8 → β → Walk β) (init : β) : Walk β := fun s => fieldsLoop body (itemsLeft s + 1) init s

/-- The rounds of a `while let` over the items of an array. -/
def itemsLoop {β : Type} (body : β → Walk β) : ℕ → β → Walk β
  | 0, _ => throw outOfFuel
  | fuel + 1, acc => do
    let more ← nextItem
    match more with
    | false => pure acc
    | true => do
      let acc ← body acc
      itemsLoop body fuel acc

/-- A `while let` over the items of an array. -/
def forItems {β : Type} (body : β → Walk β) (init : β) : Walk β := fun s => itemsLoop body (itemsLeft s + 1) init s

/-- The rounds of `optional_field!`. -/
def optionalFieldLoop {α : Type} (field : List UInt8) (body : Walk α) : ℕ → Walk (Option α)
  | 0 => throw outOfFuel
  | fuel + 1 => do
    let key ← nextField
    match key with
    | none => pure none
    | some key =>
      if key = field then some <$> body
      else do
        dropInnermost
        optionalFieldLoop field body fuel

/-- `optional_field!`. -/
def optionalField {α : Type} (field : String) (body : Walk α) : Walk (Option α) := fun s =>
  optionalFieldLoop (ascii field) body (itemsLeft s + 1) s

/-- `field!`. -/
def field {α : Type} (field : String) (body : Walk α) : Walk α := do
  let found ← optionalField field body
  match found with
  | some a => pure a
  | none => throw (invalid ("expected field " ++ field ++ " but it wasn't present"))

/-- `epee.entry()?.fields()?`. -/
def root : Walk Unit := do
  let _ ← ask .entry
  fields

/-- A walk over the object of an encoding, from its root: nothing if it is not applicable. -/
def decode {α : Type} (encoding : List UInt8) (walk : Walk α) : Except (Failure InterfaceError) (Option α) :=
  match Epee.new encoding with
  | .error (.panic message) => .error (.panic message)
  | .error (.error e) => .error (.error (.InvalidInterface ("EpeeError::" ++ debugEpeeError e)))
  | .ok epee =>
    match (root >>= fun _ => walk) ⟨epee, []⟩ with
    | .ok a _ => .ok (some a)
    | .error .notApplicable _ => .ok none
    | .error (.failed failure) _ => .error failure

/-! ## Calls -/

/-- `check_status`. -/
def checkStatus (epee : List UInt8) : Except (Failure InterfaceError) Unit := do
  let status ← decode epee (field "status" toStr)
  if status ≠ some (ascii "OK") then .error (.error (.InvalidInterface "epee `status` wasn't \"OK\"")) else .ok ()

/-- The limit `bin_call` puts on the size of a response. -/
def binResponseSizeLimit (responseSizeLimit : ℕ) : ℕ :=
  min (min (HTTP_OVERHEAD_ESTIMATE + max responseSizeLimit MIN_RESPONSE_SIZE_IN_BYTES_ESTIMATE) USIZE_MAX) MAX_RESPONSE_SIZE

/-- `bin_call`, from the answer of the transport. -/
def received (responseSizeLimit : ℕ) : Except InterfaceError (List UInt8) → Except (Failure InterfaceError) (List UInt8)
  | .error e => .error (.error e)
  | .ok res => do
    let res := res.take (binResponseSizeLimit responseSizeLimit)
    checkStatus res
    pure res

/-- `MoneroDaemon::bin_call`. -/
def binCall {σ : Type} (daemon : MoneroDaemon σ) (route : String) (params : List UInt8) (responseSizeLimit : ℕ) :
    Call σ InterfaceError (List UInt8) := do
  let answer ← Blocks.attempt
    (daemon.transport route params (if daemon.responseSizeLimits then some (binResponseSizeLimit responseSizeLimit) else none))
  Call.ofExcept (received responseSizeLimit answer)

/-- A round of a loop over indexes. -/
def indexItem (res : List UInt64) : Walk (List UInt64) := do
  let index ← toU64
  pure (res ++ [index])

/-- The walk of `extract_output_indexes`. A transaction without outputs has no `o_indexes`. -/
def outputIndexesWalk : Walk (List UInt64) := do
  let found ← optionalField "o_indexes" iterate
  match found with
  | none => pure []
  | some () => forItems indexItem []

/-- `extract_output_indexes`. -/
def extractOutputIndexes (epee : List UInt8) : Except (Failure InterfaceError) (List UInt64) := do
  let indexes ← decode epee outputIndexesWalk
  pure (indexes.getD [])

/-- `epee_key_len!` and the key. -/
def epeeKey (key : String) : List UInt8 := UInt8.ofNat key.length :: ascii key

/-- `Output::SIZE_UPPER_BOUND`. -/
def OUTPUT_SIZE_UPPER_BOUND : ℕ := VarInt.upperBound 64 + 1 + 32 + 1

/-- `MINER_TRANSACTION_SIZE_BOUND`. -/
def MINER_TRANSACTION_SIZE_BOUND : ℕ := 2048 + 10000 * OUTPUT_SIZE_UPPER_BOUND

/-- `TRANSACTION_SIZE_BOUND`. -/
def TRANSACTION_SIZE_BOUND : ℕ := max MINER_TRANSACTION_SIZE_BOUND NON_MINER_SIZE_UPPER_BOUND

/-- `OUTPUTS_AMOUNT_BOUND`, with `div_ceil`. -/
def OUTPUTS_AMOUNT_BOUND : ℕ := (TRANSACTION_SIZE_BOUND + Output.SIZE_LOWER_BOUND - 1) / Output.SIZE_LOWER_BOUND

/-- `<MoneroDaemon as ProvidesUnvalidatedOutputs>::output_indexes`. -/
def outputIndexes {σ : Type} (daemon : MoneroDaemon σ) (hash : Bytes 32) : Call σ InterfaceError (List UInt64) := do
  let request := Epee.HEADER ++ [Epee.VERSION] ++ [4 * 1] ++ epeeKey "txid" ++
    [UInt8.ofNat Epee.Kind.String.discriminant] ++ [4 * 32] ++ hash.toList
  let epee ← binCall daemon "get_o_indexes.bin" request (min (OUTPUTS_AMOUNT_BOUND * 8) USIZE_MAX)
  Call.ofExcept (extractOutputIndexes epee)

end BinRpc

end MoneroOxide
