import MoneroOxide.ViewPair

/-!
# The extra field of a transaction (`wallet/src/extra.rs`)

A list of fields, which is written sorted by the kind of field and read until it ends or a field cannot be read. A reader here is
of a slice, whose buffer is all that is left of it.
-/

namespace MoneroOxide

/-- `MAX_TX_EXTRA_NONCE_SIZE`. -/
def MAX_TX_EXTRA_NONCE_SIZE : ℕ := 255

/-- `ARBITRARY_DATA_MARKER`. -/
def ARBITRARY_DATA_MARKER : UInt8 := 127

/-- `MAX_ARBITRARY_DATA_SIZE`. -/
def MAX_ARBITRARY_DATA_SIZE : ℕ := MAX_TX_EXTRA_NONCE_SIZE - 1

/-- `MAX_EXTRA_SIZE_BY_RELAY_RULE`. -/
def MAX_EXTRA_SIZE_BY_RELAY_RULE : ℕ := 1060

/-- `PaymentId`. -/
inductive PaymentId where
  | Unencrypted (id : Bytes 32)
  | Encrypted (id : Bytes 8)
  deriving DecidableEq

namespace PaymentId

/-- `PaymentId ^ [u8; 8]`. -/
def xor : PaymentId → Bytes 8 → PaymentId
  -- Not meant to be encrypted with an xor
  | Unencrypted id, _ => Unencrypted id
  | Encrypted id, bytes => Encrypted (xorBytes id bytes)

/-- `PaymentId::write`. -/
def write : PaymentId → List UInt8
  | Unencrypted id => [0] ++ id.toList
  | Encrypted id => [1] ++ id.toList

/-- `PaymentId::read`. -/
def read : Read PaymentId := do
  let kind ← readByte
  if kind = 0 then Unencrypted <$> readBytes 32
  else if kind = 1 then Encrypted <$> readBytes 8
  else throw (.other "unknown payment ID type")

end PaymentId

/-- `ExtraField`. The size of a padding is not zero. -/
inductive ExtraField where
  | Padding (size : { size : UInt8 // size ≠ 0 })
  | PublicKey (key : CompressedPoint)
  | Nonce (data : List UInt8)
  | MergeMining (depth : UInt64) (merkleRoot : Bytes 32)
  | PublicKeys (keys : List CompressedPoint)
  | MysteriousMinergate (data : List UInt8)
  deriving DecidableEq

namespace ExtraField

/-- `write_byte`. -/
def writeByte (byte : UInt8) : List UInt8 := [byte]

/-- `ExtraField::write`. -/
def write : ExtraField → List UInt8
  | Padding size => [0] ++ List.replicate (size.val.toNat - 1) 0
  | PublicKey key => [1] ++ key.write
  | Nonce data => [2] ++ writeVec writeByte data
  | MergeMining depth merkleRoot =>
    [3] ++ VarInt.write (VarInt.varintLen depth.toNat + 32) ++ VarInt.write depth.toNat ++ merkleRoot.toList
  | PublicKeys keys => [4] ++ writeVec CompressedPoint.write keys
  | MysteriousMinergate data => [0xDE] ++ writeVec writeByte data

/-- The loop over the bytes of a padding, of which `size` were seen: all that is left is zeros, not too many of them. -/
def readPadding (size : UInt8) : List UInt8 → Except IoError UInt8
  | [] => .ok size
  | v :: buf =>
    if v ≠ 0 then .error (.other "non-zero value after padding")
    else if size = 255 then .error (.other "padding exceeded max count")
    else readPadding (size + 1) buf

/-- A field of merge mining. What it declares to be longer than its fields is skipped. -/
def readMergeMining : Read ExtraField := do
  let fieldLen ← VarInt.readU64
  let depth ← VarInt.readU64
  let merkleRoot ← readBytes 32
  let len := VarInt.varintLen depth.toNat + 32
  if fieldLen.toNat < len then throw (.other "`MergeMining` tag had a length smaller than its fields")
  else do
    let _ ← readRawVec readByte (fieldLen.toNat - len)
    pure (MergeMining depth merkleRoot)

/-- The size of the padding that is all that is left. -/
def readPaddingField : Read ExtraField := fun s =>
  match readPadding 1 s with
  | .ok size =>
    if h : size ≠ 0 then .ok (Padding ⟨size, h⟩) []
    else .error (.other "size started at 1 but incremented to 0?") []
  | .error e => .error e s

/-- `ExtraField::read`. -/
def read : Read ExtraField := do
  let kind ← readByte
  if kind = 0 then readPaddingField
  else if kind = 1 then PublicKey <$> CompressedPoint.read
  else if kind = 2 then Nonce <$> readVec readByte (some MAX_TX_EXTRA_NONCE_SIZE)
  else if kind = 3 then readMergeMining
  else if kind = 4 then PublicKeys <$> readVec CompressedPoint.read none
  else if kind = 0xDE then MysteriousMinergate <$> readVec readByte none
  else throw (.other "unknown extra field")

/-- The place of a kind of field in `SORT_ORDER`. -/
def sortOrder : ExtraField → ℕ
  | PublicKey _ => 0
  | PublicKeys _ => 1
  | Nonce _ => 2
  | MergeMining .. => 3
  | MysteriousMinergate _ => 4
  | Padding _ => 5

end ExtraField

/-- `Extra`. -/
abbrev Extra : Type := List ExtraField

namespace Extra

/-- `Extra::new`. -/
def new (key : CompressedPoint) (additional : List CompressedPoint) : Extra :=
  .PublicKey key :: if additional.isEmpty then [] else [.PublicKeys additional]

/-- `Extra::push_nonce`. -/
def pushNonce (extra : Extra) (nonce : List UInt8) : Extra := extra ++ [.Nonce nonce]

/-- `Extra::write`: the fields of each kind, one kind after the other. -/
def write (extra : Extra) : List UInt8 :=
  (List.range 6).flatMap fun kind => (extra.filter fun field => field.sortOrder = kind).flatMap ExtraField.write

/-- The loop of `Extra::read`. A field takes at least a byte, so that as many iterations as there are bytes are enough. -/
def readLoop : ℕ → List UInt8 → Extra
  | 0, _ => []
  | iterations + 1, s =>
    if s.isEmpty then []
    else match ExtraField.read s with
      | .ok field rest => field :: readLoop iterations rest
      | .error _ _ => []

/-- `Extra::read`, of a slice. It does not fail. -/
def read (s : List UInt8) : Extra := readLoop s.length s

/-- The keys of an extra, the first set of additional keys after them. -/
def keysAndAdditional (Γ : Ctx) : Extra → List Γ.Point × Option (List Γ.Point)
  | [] => ([], none)
  | field :: extra =>
    let (keys, additional) := keysAndAdditional Γ extra
    let decompress := fun key => (CompressedPoint.decompress Γ key).getD 0
    match field with
    | .PublicKey key => (decompress key :: keys, additional)
    | .PublicKeys keys' => (keys, some (keys'.map decompress))
    | _ => (keys, additional)

/-- `Extra::keys`. -/
def keys (Γ : Ctx) (extra : Extra) : Option (List Γ.Point × Option (List Γ.Point)) :=
  let (keys, additional) := keysAndAdditional Γ extra
  if keys.isEmpty then none else some (keys, additional)

/-- `Extra::payment_id`: that of the first nonce, if it is all of it. -/
def paymentId : Extra → Option PaymentId
  | [] => none
  | .Nonce data :: _ => match PaymentId.read data with
    | .ok id rest => if rest.isEmpty then some id else none
    | .error _ _ => none
  | _ :: extra => paymentId extra

/-- `Extra::arbitrary_data`, of as much of the extra as is relayed. -/
def arbitraryData (extra : Extra) : List (List UInt8) :=
  (read (extra.write.take MAX_EXTRA_SIZE_BY_RELAY_RULE)).filterMap fun
    | .Nonce data => if data.head? = some ARBITRARY_DATA_MARKER then some data.tail else none
    | _ => none

end Extra

end MoneroOxide
