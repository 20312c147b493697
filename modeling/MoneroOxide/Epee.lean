import Mathlib.Data.PNat.Basic
import MoneroOxide.Io

/-!
# Decoding EPEE (`epee/src`)

The decoder does not recurse: what is left to decode is a stack of runs of items, packed into two arrays of a fixed size, which all
live entries and iterators share. An array is a function of its indexes, an index out of range panics, and an amount, a
`NonZero<usize>`, is a positive number. A function which takes `&mut self` keeps what it did to the stack and the encoding when it
fails.

`State` is a decoder with the entries and iterators which are alive, the innermost first: each borrows from the next, so that only the
innermost can be used or dropped. `call` is one call of the public interface, or one drop, and nothing where the borrow checker or the
types do not admit it.
-/

namespace MoneroOxide

namespace Epee

/-- `EpeeError`. -/
inductive EpeeError where
  | InternalError
  | InvalidHeader
  | InvalidVersion (version : Option UInt8)
  | Short (bytes : ℕ)
  | UnrecognizedType
  | EmptyKey
  | DepthLimitExceeded
  | TypeError
  | EpeeReuse
  deriving DecidableEq, Repr

/-! ## Bytes (`io.rs`) -/

/-- A function of `reader: &mut &[u8]`. -/
abbrev Bytewise (α : Type) : Type := Reader (Failure EpeeError) UInt8 α

/-- `read_bytes`. A slice which is too short is left as it is. -/
def readBytes (bytes : ℕ) : Bytewise (List UInt8) := fun s =>
  if s.length < bytes then .error (.error (.Short bytes)) s else .ok (s.take bytes) (s.drop bytes)

/-- `read_byte`, through a buffer of one byte. -/
def readByte : Bytewise UInt8 := do
  let buf ← readBytes 1
  match buf with
  | [byte] => pure byte
  | _ => throw (.panic "copy_from_slice: source slice length does not match destination slice length")

/-- `usize::try_from`, on a platform of 64 bits, with the error of an encoding which must be short. -/
def usizeTryFrom {σ : Type} (n : ℕ) : EStateM (Failure EpeeError) σ ℕ :=
  if n < 2 ^ 64 then pure n else throw (.error (.Short (2 ^ 64 - 1)))

/-- The length of a `VarInt`, which is in the two low bits of its first byte. -/
def varintLen (viStart : UInt8) : ℕ :=
  match viStart.toNat % 4 with
  | 0 => 1
  | 1 => 2
  | 2 => 4
  | _ => 8

/-- `read_varint`. -/
def readVarint : Bytewise ℕ := do
  let viStart ← readByte
  let rest ← Reader.replicate readByte (varintLen viStart - 1)
  pure (leNat (viStart :: rest) / 4)

/-- A `VarInt` as a `usize`. -/
def readUsize : Bytewise ℕ := do
  let n ← readVarint
  usizeTryFrom n

/-- `read_str`. -/
def readStr : Bytewise (List UInt8) := do
  let len ← readUsize
  readBytes len

/-! ## Types (`parser.rs`) -/

/-- `Type`. -/
inductive Kind where
  | Int64 | Int32 | Int16 | Int8 | Uint64 | Uint32 | Uint16 | Uint8 | Double | String | Bool | Object
  deriving DecidableEq, Repr

/-- The discriminant of a `Type`. -/
def Kind.discriminant : Kind → ℕ
  | Int64 => 1 | Int32 => 2 | Int16 => 3 | Int8 => 4 | Uint64 => 5 | Uint32 => 6 | Uint16 => 7 | Uint8 => 8
  | Double => 9 | String => 10 | Bool => 11 | Object => 12

/-- The `Type` with a discriminant. -/
def Kind.ofDiscriminant : ℕ → Option Kind
  | 1 => some Int64 | 2 => some Int32 | 3 => some Int16 | 4 => some Int8 | 5 => some Uint64 | 6 => some Uint32
  | 7 => some Uint16 | 8 => some Uint8 | 9 => some Double | 10 => some String | 11 => some Bool | 12 => some Object
  | _ => none

/-- `core::mem::size_of` for the types of a fixed size. -/
def Kind.size? : Kind → Option ℕ
  | Int64 | Uint64 | Double => some 8
  | Int32 | Uint32 => some 4
  | Int16 | Uint16 => some 2
  | Int8 | Uint8 | Bool => some 1
  | String | Object => none

/-- `TypeOrEntry`. -/
inductive TypeOrEntry where
  | OfType (kind : Kind)
  | Entry
  deriving DecidableEq, Repr

/-- `Type::read`: a type, and the length of the array or one. -/
def Kind.read : Bytewise (Kind × ℕ) := do
  let byte ← readByte
  let array := byte.toNat / 128
  match Kind.ofDiscriminant (byte.toNat % 128) with
  | none => throw (.error .UnrecognizedType)
  | some kind =>
    if array ≠ 0 then do
      let len ← readVarint
      pure (kind, len)
    else pure (kind, 1)

/-- `read_key`. -/
def readKey : Bytewise (List UInt8) := do
  let len ← readByte
  if len = 0 then throw (.error .EmptyKey) else readBytes len.toNat

/-! ## The stack (`stack.rs`) -/

/-- `MAX_OBJECT_DEPTH`. -/
def MAX_OBJECT_DEPTH : ℕ := 100 + 2

/-- `PackedTypes`: two values to a byte. -/
abbrev PackedTypes : Type := Fin ((MAX_OBJECT_DEPTH + 1) / 2) → UInt8

namespace PackedTypes

/-- The byte of an index. -/
def byteOf (i : Fin MAX_OBJECT_DEPTH) : Fin ((MAX_OBJECT_DEPTH + 1) / 2) := ⟨i / 2, by have := i.isLt; omega⟩

/-- `PackedTypes::get`. Four bits which were never written as a `TypeOrEntry` panic. -/
def get (types : PackedTypes) (i : Fin MAX_OBJECT_DEPTH) : Except (Failure EpeeError) TypeOrEntry :=
  let entry := (types (byteOf i)).toNat / 2 ^ (i.val % 2 * 4) % 16
  if entry = 0 then .ok .Entry
  else
    match Kind.ofDiscriminant entry with
    | some kind => .ok (.OfType kind)
    | none => .error (.panic "`PackedTypes` was written to with a non-existent `TypeOrEntry`")

/-- The four bits of a `TypeOrEntry`. -/
def fourBits : TypeOrEntry → ℕ
  | .Entry => 0
  | .OfType kind => kind.discriminant

/-- `PackedTypes::set`: clear the four bits of this index, and set them. -/
def set (types : PackedTypes) (i : Fin MAX_OBJECT_DEPTH) (kind : TypeOrEntry) : PackedTypes :=
  let shift := i.val % 2 * 4
  let byte := types (byteOf i)
  let cleared := byte &&& UInt8.ofNat (0b11110000 / 2 ^ shift)
  Function.update types (byteOf i) (cleared ||| UInt8.ofNat (fourBits kind * 2 ^ shift))

end PackedTypes

/-- `Stack`. -/
structure Stack where
  types : PackedTypes
  amounts : Fin MAX_OBJECT_DEPTH → ℕ+
  depth : ℕ

namespace Stack

/-- `Stack::root_object`. -/
def rootObject : Stack where
  types := PackedTypes.set (fun _ => 0) ⟨0, by decide⟩ (.OfType .Object)
  amounts := fun _ => 1
  depth := 1

/-- The failure of an index out of range. -/
def outOfBounds : Failure EpeeError := .panic "index out of bounds"

/-- `Stack::peek`. -/
def peek (stack : Stack) : Except (Failure EpeeError) (Option (TypeOrEntry × ℕ+)) :=
  match stack.depth with
  | 0 => .ok none
  | i + 1 =>
    if h : i < MAX_OBJECT_DEPTH then do
      let kind ← stack.types.get ⟨i, h⟩
      pure (some (kind, stack.amounts ⟨i, h⟩))
    else .error outOfBounds

/-- `Stack::pop`. -/
def pop (stack : Stack) : Except (Failure EpeeError) (Option TypeOrEntry × Stack) :=
  match stack.depth with
  | 0 => .ok (none, stack)
  | i + 1 =>
    if h : i < MAX_OBJECT_DEPTH then do
      let kind ← stack.types.get ⟨i, h⟩
      -- This does not underflow as the amount is not zero.
      let amount := (stack.amounts ⟨i, h⟩ : ℕ) - 1
      if hamount : 0 < amount then
        pure (some kind, { stack with amounts := Function.update stack.amounts ⟨i, h⟩ ⟨amount, hamount⟩ })
      else pure (some kind, { stack with depth := i })
    else .error outOfBounds

/-- `Stack::push`. Nothing is pushed if there is nothing to decode. -/
def push (stack : Stack) (kind : TypeOrEntry) (amount : ℕ) : Except (Failure EpeeError) Stack :=
  if stack.depth = MAX_OBJECT_DEPTH then .error (.error .DepthLimitExceeded)
  else if hamount : 0 < amount then
    if h : stack.depth < MAX_OBJECT_DEPTH then
      .ok { types := stack.types.set ⟨stack.depth, h⟩ kind
            amounts := Function.update stack.amounts ⟨stack.depth, h⟩ ⟨amount, hamount⟩
            depth := stack.depth + 1 }
    else .error outOfBounds
  else .ok stack

end Stack

/-! ## Steps (`parser.rs`) -/

/-- What a step works on: the encoding which is left, and the stack. -/
structure Decoder where
  encoding : List UInt8
  stack : Stack

/-- A function of a stack and an encoding, both `&mut`. -/
abbrev Step (α : Type) : Type := EStateM (Failure EpeeError) Decoder α

/-- A read of the encoding. -/
def onEncoding {α : Type} (r : Bytewise α) : Step α := fun d =>
  match r d.encoding with
  | .ok a rest => .ok a { d with encoding := rest }
  | .error e rest => .error e { d with encoding := rest }

/-- A `pop` of the stack. -/
def popStack : Step (Option TypeOrEntry) := fun d =>
  match d.stack.pop with
  | .ok (kind, stack) => .ok kind { d with stack }
  | .error e => .error e d

/-- A `push` onto the stack. -/
def pushStack (kind : TypeOrEntry) (amount : ℕ) : Step Unit := fun d =>
  match d.stack.push kind amount with
  | .ok stack => .ok () { d with stack }
  | .error e => .error e d

/-- `SingleStepResult`. -/
inductive SingleStepResult where
  | Object (fields : ℕ)
  | Entry (key : List UInt8) (kind : Kind) (len : ℕ)
  | Unit
  deriving DecidableEq, Repr

/-- The rest of `Stack::single_step`, for what was popped. -/
def stepInto : TypeOrEntry → Step SingleStepResult
  | .OfType .String => do
    let _ ← onEncoding readStr
    pure .Unit
  | .OfType .Object => do
    let fields ← onEncoding readUsize
    pushStack .Entry fields
    pure (.Object fields)
  | .Entry => do
    let key ← onEncoding readKey
    let (kind, len) ← onEncoding Kind.read
    let len ← usizeTryFrom len
    pushStack (.OfType kind) len
    pure (.Entry key kind len)
  | .OfType kind => do
    -- `advance` by the size of the type.
    let _ ← onEncoding (readBytes (kind.size?.getD 0))
    pure .Unit

/-- `Stack::single_step`. -/
def singleStep : Step (Option SingleStepResult) := do
  let popped ← popStack
  match popped with
  | none => pure none
  | some kind => do
    let result ← stepInto kind
    pure (some result)

/-- The loop of `step`, which runs until the depth is the one to stop at. Its fuel is more than the bytes left. -/
def stepLoop (stop : ℕ) : ℕ → Step Unit
  | 0 => throw (.panic "out of fuel")
  | fuel + 1 => do
    let _ ← singleStep
    let d ← get
    if d.stack.depth ≠ stop then stepLoop stop fuel else pure ()

/-- The depth at which `step` stops: the next item of the run, or the run having been popped. -/
def stopAtStackDepth (d : Decoder) (len : ℕ+) : ℕ := if 1 < (len : ℕ) then d.stack.depth else d.stack.depth - 1

/-- `Stack::step`: step through the entirety of the next item. -/
def step : Step (Option Unit) := fun d =>
  match d.stack.peek with
  | .error e => .error e d
  | .ok none => .ok none d
  | .ok (some (_, len)) =>
    match stepLoop (stopAtStackDepth d len) (d.encoding.length + 1) d with
    | .ok () d => .ok (some ()) d
    | .error e d => .error e d

/-! ## Entries and iterators (`lib.rs`) -/

/-- `HEADER`. -/
def HEADER : List UInt8 := [0x01, 0x11, 0x01, 0x01, 0x01, 0x01, 0x02, 0x01]

/-- `VERSION`. -/
def VERSION : UInt8 := 1

end Epee

/-- `Epee`. -/
structure Epee extends Epee.Decoder where
  error : Option Epee.EpeeError

namespace Epee

/-- `Epee::new`. -/
def new (encoding : List UInt8) : Except (Failure EpeeError) Epee :=
  match readBytes HEADER.length encoding with
  | .error e _ => .error e
  | .ok presentHeader encoding =>
    if presentHeader ≠ HEADER then .error (.error .InvalidHeader)
    else
      match readByte encoding with
      | .error (.error _) _ => .error (.error (.InvalidVersion none))
      | .error (.panic message) _ => .error (.panic message)
      | .ok version encoding =>
        if version ≠ VERSION then .error (.error (.InvalidVersion (some version)))
        else .ok { encoding, stack := Stack.rootObject, error := none }

/-- The loop of the three `Drop` implementations: step past the items left, until there is an error. -/
def skip : ℕ → Epee → Except (Failure EpeeError) Epee
  | 0, epee => .ok epee
  | len + 1, epee =>
    if epee.error.isSome then .ok epee
    else
      match step epee.toDecoder with
      | .ok _ d => skip len { toDecoder := d, error := none }
      | .error (.error e) d => skip len { toDecoder := d, error := some e }
      | .error (.panic message) _ => .error (.panic message)

/-- An entry or iterator which is alive: `EpeeEntry`, `FieldIterator` or `ArrayIterator`. -/
inductive Handle where
  | entry (kind : Kind) (len : ℕ)
  | fields (len : ℕ)
  | array (kind : Kind) (len : ℕ)
  deriving DecidableEq, Repr

/-- How many items a handle is dropped past. -/
def Handle.len : Handle → ℕ
  | entry _ len | fields len | array _ len => len

/-- A decoder with its live handles, the innermost first. -/
structure State where
  epee : Epee
  handles : List Handle

/-- What an accessor returns: an integer, the bytes of an `f64`, the bytes of a string, or a `bool`. -/
inductive Value where
  | int (n : ℤ)
  | float (bytes : List UInt8)
  | str (bytes : List UInt8)
  | bool (b : Bool)
  deriving DecidableEq, Repr

/-- What a call returns. -/
inductive Response where
  /-- An entry. -/
  | entry (kind : Kind) (len : ℕ)
  /-- A key and an entry. -/
  | field (key : List UInt8) (kind : Kind) (len : ℕ)
  /-- The end of an iterator. -/
  | none
  | iterator
  | value (v : Value)
  | error (e : EpeeError)
  | dropped
  deriving DecidableEq, Repr

/-- The accessors of an entry, which consume it. -/
inductive Accessor where
  | fields | iterate
  | to_i64 | to_i32 | to_i16 | to_i8 | to_u64 | to_u32 | to_u16 | to_u8 | to_f64 | to_bool
  | to_str
  | to_fixed_len_str (len : ℕ)
  deriving DecidableEq, Repr

/-- A call of the public interface, or a drop. -/
inductive Call where
  | entry
  | next
  | access (accessor : Accessor)
  | drop
  deriving DecidableEq, Repr

/-- The result of a call: nothing if it is not admitted, and otherwise a panic or a response and a state. -/
abbrev Result : Type := Option (Except (Failure EpeeError) (Response × State))

/-- `Epee::entry`. -/
def entryCall (epee : Epee) : Response × State :=
  if epee.stack.depth ≠ 1 ∨ epee.error.isSome then (.error .EpeeReuse, ⟨epee, []⟩)
  else (.entry .Object 1, ⟨epee, [.entry .Object 1]⟩)

/-- `FieldIterator::next`. -/
def fieldsNext (epee : Epee) (len : ℕ) (handles : List Handle) : Except (Failure EpeeError) (Response × State) :=
  match epee.error with
  | some error => .ok (.error error, ⟨epee, .fields len :: handles⟩)
  | none =>
    match len with
    | 0 => .ok (.none, ⟨epee, .fields 0 :: handles⟩)
    | len + 1 =>
      match singleStep epee.toDecoder with
      | .ok (some (.Entry key kind n)) d =>
        .ok (.field key kind n, ⟨{ toDecoder := d, error := none }, .entry kind n :: .fields len :: handles⟩)
      | .ok _ d => .ok (.error .InternalError, ⟨{ toDecoder := d, error := none }, .fields len :: handles⟩)
      | .error (.error e) d => .ok (.error e, ⟨{ toDecoder := d, error := none }, .fields len :: handles⟩)
      | .error (.panic message) _ => .error (.panic message)

/-- `ArrayIterator::next`. -/
def arrayNext (epee : Epee) (kind : Kind) (len : ℕ) (handles : List Handle) : Response × State :=
  match epee.error with
  | some error => (.error error, ⟨epee, .array kind len :: handles⟩)
  | none =>
    match len with
    | 0 => (.none, ⟨epee, .array kind 0 :: handles⟩)
    | len + 1 => (.entry kind 1, ⟨epee, .entry kind 1 :: .array kind len :: handles⟩)

/-- `EpeeEntry::fields`. The reference to the decoder is taken before the checks, so that dropping the entry does nothing. -/
def entryFields (epee : Epee) (kind : Kind) (len : ℕ) (handles : List Handle) : Except (Failure EpeeError) (Response × State) :=
  match epee.error with
  | some error => .ok (.error error, ⟨epee, handles⟩)
  | none =>
    if kind ≠ .Object ∨ len ≠ 1 then .ok (.error .TypeError, ⟨epee, handles⟩)
    else
      match singleStep epee.toDecoder with
      | .ok (some (.Object fields)) d => .ok (.iterator, ⟨{ toDecoder := d, error := none }, .fields fields :: handles⟩)
      | .ok _ d => .ok (.error .InternalError, ⟨{ toDecoder := d, error := none }, handles⟩)
      | .error (.error e) d => .ok (.error e, ⟨{ toDecoder := d, error := none }, handles⟩)
      | .error (.panic message) _ => .error (.panic message)

/-- `EpeeEntry::iterate`. -/
def entryIterate (epee : Epee) (kind : Kind) (len : ℕ) (handles : List Handle) : Response × State :=
  match epee.error with
  | some error => (.error error, ⟨epee, handles⟩)
  | none => (.iterator, ⟨epee, .array kind len :: handles⟩)

/-- `EpeeEntry::to_primitive` and `EpeeEntry::to_str`, for a type and the read of a value of it. After a `TypeError` the entry is
dropped with its reference to the decoder. -/
def entryRead (expected : Kind) (r : Bytewise (List UInt8)) (value : List UInt8 → Response) (epee : Epee) (kind : Kind) (len : ℕ)
    (handles : List Handle) : Except (Failure EpeeError) (Response × State) :=
  if kind ≠ expected ∨ len ≠ 1 then do
    let epee ← skip len epee
    pure (.error .TypeError, ⟨epee, handles⟩)
  else
    match epee.error with
    | some error => .ok (.error error, ⟨epee, handles⟩)
    | none =>
      match (popStack >>= fun _ => onEncoding r) epee.toDecoder with
      | .ok bytes d => .ok (value bytes, ⟨{ toDecoder := d, error := none }, handles⟩)
      | .error (.error e) d => .ok (.error e, ⟨{ toDecoder := d, error := none }, handles⟩)
      | .error (.panic message) _ => .error (.panic message)

/-- `i*::from_le_bytes`, for as many bytes as given. -/
def signed (bytes : List UInt8) : ℤ :=
  if 2 * leNat bytes < 256 ^ bytes.length then leNat bytes else (leNat bytes : ℤ) - 256 ^ bytes.length

/-- The value of an integer of either signedness. -/
def intValue (isSigned : Bool) (bytes : List UInt8) : Response := .value (.int (if isSigned then signed bytes else leNat bytes))

/-- An accessor of an entry. -/
def accessCall : Accessor → Epee → Kind → ℕ → List Handle → Except (Failure EpeeError) (Response × State)
  | .fields => entryFields
  | .iterate => fun epee kind len handles => .ok (entryIterate epee kind len handles)
  | .to_i64 => entryRead .Int64 (readBytes 8) (intValue true)
  | .to_i32 => entryRead .Int32 (readBytes 4) (intValue true)
  | .to_i16 => entryRead .Int16 (readBytes 2) (intValue true)
  | .to_i8 => entryRead .Int8 (readBytes 1) (intValue true)
  | .to_u64 => entryRead .Uint64 (readBytes 8) (intValue false)
  | .to_u32 => entryRead .Uint32 (readBytes 4) (intValue false)
  | .to_u16 => entryRead .Uint16 (readBytes 2) (intValue false)
  | .to_u8 => entryRead .Uint8 (readBytes 1) (intValue false)
  | .to_f64 => entryRead .Double (readBytes 8) fun bytes => .value (.float bytes)
  | .to_bool => entryRead .Bool (readBytes 1) fun bytes => .value (.bool (bytes ≠ [0]))
  | .to_str => entryRead .String readStr fun bytes => .value (.str bytes)
  -- The length is compared after the string was read.
  | .to_fixed_len_str n => entryRead .String readStr fun bytes =>
      if bytes.length ≠ n then .error .TypeError else .value (.str bytes)

/-- One call of the public interface, or one drop. -/
def call (c : Call) (s : State) : Result :=
  match c, s.handles with
  | .entry, [] => some (.ok (entryCall s.epee))
  | .next, .fields len :: handles => some (fieldsNext s.epee len handles)
  | .next, .array kind len :: handles => some (.ok (arrayNext s.epee kind len handles))
  | .access accessor, .entry kind len :: handles => some (accessCall accessor s.epee kind len handles)
  | .drop, handle :: handles => some do
    let epee ← skip handle.len s.epee
    pure (.dropped, ⟨epee, handles⟩)
  | _, _ => none

/-- One call after another, with what each returned. -/
def callAll : List Call → State → Option (Except (Failure EpeeError) (List Response × State))
  | [], s => some (.ok ([], s))
  | c :: calls, s =>
    match call c s with
    | none => none
    | some (.error e) => some (.error e)
    | some (.ok (r, s)) => (callAll calls s).map fun result => result.map fun (rs, s) => (r :: rs, s)

end Epee

end MoneroOxide
