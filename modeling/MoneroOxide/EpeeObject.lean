import MoneroOxide.Epee

/-!
# EPEE objects, and what consuming one yields

What the decoder is for, apart from how it decodes: an object is a tree of fields and items, with its encoding and when it is
well-formed; a way to consume it moves cursors over what is left of the tree. `consume` says what a call yields, and nothing for a
call which is not correct for the types of the tree.
-/

namespace MoneroOxide

namespace Epee

/-- How many bytes a `VarInt` takes. -/
inductive Width where
  | one | two | four | eight
  deriving DecidableEq, Repr

/-- The bytes of a width. -/
def Width.bytes : Width → ℕ
  | one => 1
  | two => 2
  | four => 4
  | eight => 8

/-- The two low bits of the first byte of a width. -/
def Width.bits : Width → ℕ
  | one => 0
  | two => 1
  | four => 2
  | eight => 3

/-- A `VarInt` of a width. -/
def Width.encode (width : Width) (n : ℕ) : List UInt8 := leList width.bytes (4 * n + width.bits)

/-- The number has a `VarInt` of the width. -/
def Width.Holds (width : Width) (n : ℕ) : Prop := 4 * n < 256 ^ width.bytes

mutual

/-- An item: a value, or an object. -/
inductive Item where
  | int (n : ℤ)
  | float (bytes : List UInt8)
  /-- The byte of a `bool`, which is false if it is zero. -/
  | bool (byte : UInt8)
  | string (width : Width) (bytes : List UInt8)
  | object (width : Width) (fields : List Field)

/-- A field: its key, its type, the width of its length if it is an array, and its items. -/
inductive Field where
  | mk (key : List UInt8) (kind : Kind) (array : Option Width) (items : List Item)

end

/-- The integers of a type. -/
def Kind.HasInt (kind : Kind) (n : ℤ) : Prop :=
  match kind with
  | Int64 => -2 ^ 63 ≤ n ∧ n < 2 ^ 63
  | Int32 => -2 ^ 31 ≤ n ∧ n < 2 ^ 31
  | Int16 => -2 ^ 15 ≤ n ∧ n < 2 ^ 15
  | Int8 => -2 ^ 7 ≤ n ∧ n < 2 ^ 7
  | Uint64 => 0 ≤ n ∧ n < 2 ^ 64
  | Uint32 => 0 ≤ n ∧ n < 2 ^ 32
  | Uint16 => 0 ≤ n ∧ n < 2 ^ 16
  | Uint8 => 0 ≤ n ∧ n < 2 ^ 8
  | _ => False

/-- The bytes of an integer, in two's complement. -/
def encodeInt (size : ℕ) (n : ℤ) : List UInt8 := leList size (n % 256 ^ size).toNat

/-- A type, and the length of an array. -/
def encodeKind (kind : Kind) : Option Width → ℕ → List UInt8
  | none, _ => [UInt8.ofNat kind.discriminant]
  | some width, len => UInt8.ofNat (kind.discriminant + 128) :: width.encode len

mutual

/-- The encoding of an item of a type. -/
def Item.encode (kind : Kind) : Item → List UInt8
  | .int n => encodeInt (kind.size?.getD 0) n
  | .float bytes => bytes
  | .bool byte => [byte]
  | .string width bytes => width.encode bytes.length ++ bytes
  | .object width fields => width.encode fields.length ++ encodeFields fields

/-- The encoding of a field. -/
def Field.encode : Field → List UInt8
  | .mk key kind array items =>
    UInt8.ofNat key.length :: (key ++ (encodeKind kind array items.length ++ encodeItems kind items))

/-- The encodings of items of a type. -/
def encodeItems (kind : Kind) : List Item → List UInt8
  | [] => []
  | item :: items => item.encode kind ++ encodeItems kind items

/-- The encodings of fields. -/
def encodeFields : List Field → List UInt8
  | [] => []
  | field :: fields => field.encode ++ encodeFields fields

end

/-- The length of a field: of its array, or one. -/
def LengthOk : Option Width → ℕ → Prop
  | none, len => len = 1
  | some width, len => width.Holds len

mutual

/-- An item is well-formed, of a type, with objects no deeper than `depth`. -/
def Item.Ok (kind : Kind) : ℕ → Item → Prop
  | _, .int n => kind.HasInt n
  | _, .float bytes => kind = .Double ∧ bytes.length = 8
  | _, .bool _ => kind = .Bool
  | _, .string width bytes => kind = .String ∧ width.Holds bytes.length
  | 0, .object _ _ => False
  | depth + 1, .object width fields => kind = .Object ∧ width.Holds fields.length ∧ fieldsOk depth fields

/-- A field is well-formed. -/
def Field.Ok (depth : ℕ) : Field → Prop
  | .mk key kind array items => key ≠ [] ∧ key.length < 256 ∧ LengthOk array items.length ∧ itemsOk kind depth items

/-- All items are well-formed. -/
def itemsOk (kind : Kind) (depth : ℕ) : List Item → Prop
  | [] => True
  | item :: items => item.Ok kind depth ∧ itemsOk kind depth items

/-- All fields are well-formed. -/
def fieldsOk (depth : ℕ) : List Field → Prop
  | [] => True
  | field :: fields => field.Ok depth ∧ fieldsOk depth fields

end

/-- The value of an item which is not an object. -/
def Item.value? : Item → Option Value
  | .int n => some (.int n)
  | .float bytes => some (.float bytes)
  | .bool byte => some (.bool (byte ≠ 0))
  | .string _ bytes => some (.str bytes)
  | .object _ _ => none

/-- The type of item an accessor is for. -/
def Accessor.kind? : Accessor → Option Kind
  | .fields => some .Object
  | .iterate => none
  | .to_i64 => some .Int64
  | .to_i32 => some .Int32
  | .to_i16 => some .Int16
  | .to_i8 => some .Int8
  | .to_u64 => some .Uint64
  | .to_u32 => some .Uint32
  | .to_u16 => some .Uint16
  | .to_u8 => some .Uint8
  | .to_f64 => some .Double
  | .to_bool => some .Bool
  | .to_str | .to_fixed_len_str _ => some .String

/-- What is left of an entry or an iterator. -/
inductive Cursor where
  | entry (kind : Kind) (items : List Item)
  | fields (fields : List Field)
  | array (kind : Kind) (items : List Item)

/-- The entry or iterator of a cursor. -/
def Cursor.handle : Cursor → Handle
  | .entry kind items => .entry kind items.length
  | .fields left => .fields left.length
  | .array kind items => .array kind items.length

/-- What is left of the encoding, for the live cursors, the innermost first. -/
def encodeCursors : List Cursor → List UInt8
  | [] => []
  | .entry kind items :: cursors => encodeItems kind items ++ encodeCursors cursors
  | .fields fields :: cursors => encodeFields fields ++ encodeCursors cursors
  | .array kind items :: cursors => encodeItems kind items ++ encodeCursors cursors

/-- The value an accessor returns for an item, if it has the type and the length the accessor is for. -/
def readItem (accessor : Accessor) (item : Item) : Option Value :=
  match accessor, item with
  | .to_fixed_len_str n, .string _ bytes => if bytes.length = n then some (.str bytes) else none
  | _, item => item.value?

/-- What an accessor of an entry yields, if it is correct for the type and the length of the entry. -/
def consumeEntry (accessor : Accessor) (kind : Kind) (items : List Item) (cursors : List Cursor) :
    Option (Response × List Cursor) :=
  match accessor, items with
  | .iterate, items => some (.iterator, .array kind items :: cursors)
  | .fields, [.object _ fields] => some (.iterator, .fields fields :: cursors)
  | .fields, _ => none
  | accessor, [item] =>
    if accessor.kind? = some kind then (readItem accessor item).map fun v => (.value v, cursors) else none
  | _, _ => none

/-- What a call which is correct for the types yields, and the cursors it leaves. -/
def consume : Call → List Cursor → Option (Response × List Cursor)
  | .next, .fields [] :: cursors => some (.none, .fields [] :: cursors)
  | .next, .fields (.mk key kind _ items :: fields) :: cursors =>
    some (.field key kind items.length, .entry kind items :: .fields fields :: cursors)
  | .next, .array kind [] :: cursors => some (.none, .array kind [] :: cursors)
  | .next, .array kind (item :: items) :: cursors => some (.entry kind 1, .entry kind [item] :: .array kind items :: cursors)
  | .access accessor, .entry kind items :: cursors => consumeEntry accessor kind items cursors
  | .drop, _ :: cursors => some (.dropped, cursors)
  | _, _ => none

/-- The accessor is not correct for the type or the length of the entry. -/
def Mismatch (accessor : Accessor) (kind : Kind) (items : List Item) : Prop :=
  (∃ expected, accessor.kind? = some expected ∧ (kind ≠ expected ∨ items.length ≠ 1)) ∨
  ∃ n width bytes, accessor = .to_fixed_len_str n ∧ kind = .String ∧ items = [.string width bytes] ∧ bytes.length ≠ n

/-- What consuming an object yields, one call after another. A call is correct for the types, or it is a mismatch of a kind which is
`tolerated`: it yields a `TypeError`, and the cursors are past the entry. -/
inductive Consumption (tolerated : Accessor → Kind → List Item → Prop) :
    List Cursor → List Call → List Response → List Cursor → Prop
  | nil (cursors : List Cursor) : Consumption tolerated cursors [] [] cursors
  | correct {cursors cursors₁ cursors' : List Cursor} {c : Call} {calls : List Call} {r : Response} {responses : List Response} :
      consume c cursors = some (r, cursors₁) → Consumption tolerated cursors₁ calls responses cursors' →
      Consumption tolerated cursors (c :: calls) (r :: responses) cursors'
  | mismatch {accessor : Accessor} {kind : Kind} {items : List Item} {cursors cursors' : List Cursor} {calls : List Call}
      {responses : List Response} :
      Mismatch accessor kind items → tolerated accessor kind items → Consumption tolerated cursors calls responses cursors' →
      Consumption tolerated (.entry kind items :: cursors) (.access accessor :: calls) (.error .TypeError :: responses) cursors'

/-- What consuming an object yields, when every call is correct for the types. -/
def TypeCorrect : List Cursor → List Call → List Response → List Cursor → Prop := Consumption fun _ _ _ => False

end Epee

end MoneroOxide
