import MoneroOxide.Ed25519

/-!
# Addresses (`wallet/base58/src/lib.rs`, `wallet/address/src/lib.rs`)

A string is the list of its bytes. Base58 strings are of the alphabet's characters, which are ASCII, so a string with any other
byte is refused when it is decoded, whether or not it is UTF-8.
-/

namespace MoneroOxide

namespace Base58

/-- `ALPHABET_LEN`. -/
def ALPHABET_LEN : ℕ := 58

/-- `ALPHABET`. -/
def ALPHABET : List UInt8 := ascii "123456789ABCDEFGHJKLMNPQRSTUVWXYZabcdefghijkmnopqrstuvwxyz"

/-- `BLOCK_LEN`. -/
def BLOCK_LEN : ℕ := 8

/-- `ENCODED_BLOCK_LEN`. -/
def ENCODED_BLOCK_LEN : ℕ := 11

/-- `CHECKSUM_LEN`. -/
def CHECKSUM_LEN : ℕ := 4

/-- `<[T]>::chunks`: slices of `n` elements, of which the last may be shorter. -/
def chunks {α : Type} (n : ℕ) : List α → List (List α)
  | [] => []
  | a :: as => (a :: as.take (n - 1)) :: chunks n (as.drop (n - 1))
termination_by as => as.length
decreasing_by
  simp only [List.length_drop, List.length_cons]
  omega

/-- The digits of a number in base 58, least significant first. -/
def digits (value : ℕ) : List ℕ :=
  if value = 0 then [] else value % ALPHABET_LEN :: digits (value / ALPHABET_LEN)
termination_by value
decreasing_by exact Nat.div_lt_self (by omega) (by decide)

/-- `encoded_len_for_bytes`: as many digits as the highest number of this many bytes has. -/
def encodedLenForBytes (bytes : ℕ) : ℕ := (digits (2 ^ (bytes * 8) - 1)).length

/-- `u64::from_be_bytes`, of a chunk that is padded in front. -/
def beNat (chunk : List UInt8) : ℕ := leNat chunk.reverse

/-- The encoding of a chunk of at most `BLOCK_LEN` bytes. -/
def encodeChunk (chunk : List UInt8) : List UInt8 :=
  let used := (digits (beNat chunk)).map fun digit => ALPHABET.getD digit 0
  let chunkStr := used ++ List.replicate (ENCODED_BLOCK_LEN - used.length) (ALPHABET.getD 0 0)
  (chunkStr.take (encodedLenForBytes chunk.length)).reverse

/-- `encode`. -/
def encode (bytes : List UInt8) : List UInt8 := (chunks BLOCK_LEN bytes).flatMap encodeChunk

/-- The value of a chunk of characters, if they are of the alphabet and the value is a `u64`. -/
def chunkValue (chunk : List UInt8) : Option ℕ :=
  chunk.foldlM (fun sum thisChar => do
    let sum := sum * ALPHABET_LEN
    let digit ← ALPHABET.idxOf? thisChar
    if sum + digit < 2 ^ 64 then some (sum + digit) else none) 0

/-- The decoding of a chunk of at most `ENCODED_BLOCK_LEN` characters. -/
def decodeChunk (chunk : List UInt8) : Option (List UInt8) := do
  let sum ← chunkValue chunk
  let usedBytes ← ((List.range BLOCK_LEN).map (· + 1)).find? fun i => encodedLenForBytes i = chunk.length
  let bytes := (leList BLOCK_LEN sum).reverse
  let unusedBytes := BLOCK_LEN - usedBytes
  if (bytes.take unusedBytes).all (· = 0) then some (bytes.drop unusedBytes) else none

/-- `decode`. -/
def decode (data : List UInt8) : Option (List UInt8) := ((chunks ENCODED_BLOCK_LEN data).mapM decodeChunk).map List.flatten

/-- `encode_check`. -/
def encodeCheck (Γ : Ctx) (data : List UInt8) : List UInt8 := encode (data ++ (Γ.keccak256 data).toList.take CHECKSUM_LEN)

/-- `decode_check`. -/
def decodeCheck (Γ : Ctx) (data : List UInt8) : Option (List UInt8) := do
  let res ← decode data
  if res.length < CHECKSUM_LEN then none
  else
    let checksumPos := res.length - CHECKSUM_LEN
    if (Γ.keccak256 (res.take checksumPos)).toList.take CHECKSUM_LEN ≠ res.drop checksumPos then none
    else some (res.take checksumPos)

end Base58

/-- `AddressType`. -/
inductive AddressType where
  | Legacy
  | LegacyIntegrated (paymentId : Bytes 8)
  | Subaddress
  | Featured (subaddress : Bool) (paymentId : Option (Bytes 8)) (guaranteed : Bool)
  deriving DecidableEq

namespace AddressType

/-- `AddressType::is_subaddress`. -/
def isSubaddress : AddressType → Bool
  | Subaddress => true
  | Featured subaddress _ _ => subaddress
  | Legacy | LegacyIntegrated _ => false

/-- `AddressType::payment_id`. -/
def paymentId : AddressType → Option (Bytes 8)
  | LegacyIntegrated id => some id
  | Featured _ paymentId _ => paymentId
  | Legacy | Subaddress => none

/-- `AddressType::is_guaranteed`. -/
def isGuaranteed : AddressType → Bool
  | Featured _ _ guaranteed => guaranteed
  | Legacy | LegacyIntegrated _ | Subaddress => false

end AddressType

/-- `SubaddressIndex`. The fields are private, so that each value has passed the check of `SubaddressIndex::new`. -/
structure SubaddressIndex where
  account : UInt32
  address : UInt32
  valid : ¬(account = 0 ∧ address = 0)
  deriving DecidableEq

/-- `SubaddressIndex::new`. -/
def SubaddressIndex.new (account address : UInt32) : Option SubaddressIndex :=
  if h : account = 0 ∧ address = 0 then none else some { account, address, valid := h }

/-- `Network`. -/
inductive Network where
  | Mainnet
  | Stagenet
  | Testnet
  deriving DecidableEq, Repr

/-- `AddressBytes`. -/
structure AddressBytes where
  legacy : UInt8
  legacyIntegrated : UInt8
  subaddress : UInt8
  featured : UInt8
  deriving DecidableEq

/-- `NetworkedAddressBytes`. -/
structure NetworkedAddressBytes where
  mainnet : AddressBytes
  stagenet : AddressBytes
  testnet : AddressBytes
  deriving DecidableEq

/-- `MONERO_BYTES`. -/
def MONERO_BYTES : NetworkedAddressBytes where
  mainnet := { legacy := 18, legacyIntegrated := 19, subaddress := 42, featured := 70 }
  stagenet := { legacy := 24, legacyIntegrated := 25, subaddress := 36, featured := 86 }
  testnet := { legacy := 53, legacyIntegrated := 54, subaddress := 63, featured := 111 }

/-- `AddressError`. -/
inductive AddressError where
  | InvalidTypeByte (byte : UInt8)
  | InvalidEncoding
  | InvalidLength
  | InvalidKey
  | UnknownFeatures (features : UInt64)
  | DifferentNetwork (expected actual : Network)
  | PaymentIDsUnsupported
  deriving DecidableEq

namespace NetworkedAddressBytes

/-- `NetworkedAddressBytes::network`. -/
def network (bytes : NetworkedAddressBytes) : Network → AddressBytes
  | .Mainnet => bytes.mainnet
  | .Stagenet => bytes.stagenet
  | .Testnet => bytes.testnet

/-- `NetworkedAddressBytes::byte`. -/
def byte (bytes : NetworkedAddressBytes) (network : Network) (kind : AddressType) : UInt8 :=
  let addressBytes := bytes.network network
  match kind with
  | .Legacy => addressBytes.legacy
  | .LegacyIntegrated _ => addressBytes.legacyIntegrated
  | .Subaddress => addressBytes.subaddress
  | .Featured .. => addressBytes.featured

/-- The type of an address a byte stands for on one network, with a payment ID and features yet to be read. -/
def kindFromByte (addressBytes : AddressBytes) (byte : UInt8) : Option AddressType :=
  if byte = addressBytes.legacy then some .Legacy
  else if byte = addressBytes.legacyIntegrated then some (.LegacyIntegrated (Bytes.replicate 8 0))
  else if byte = addressBytes.subaddress then some .Subaddress
  else if byte = addressBytes.featured then some (.Featured false none false)
  else none

/-- `NetworkedAddressBytes::metadata_from_byte`. -/
def metadataFromByte (bytes : NetworkedAddressBytes) (byte : UInt8) : Except AddressError (Network × AddressType) :=
  match [Network.Mainnet, .Testnet, .Stagenet].findSome? fun network =>
      (kindFromByte (bytes.network network) byte).map fun kind => (network, kind) with
  | some metadata => .ok metadata
  | none => .error (.InvalidTypeByte byte)

end NetworkedAddressBytes

/-- `Address`. The bytes of its networks are a parameter of what encodes and decodes it. -/
structure Address (Γ : Ctx) where
  network : Network
  kind : AddressType
  spend : Γ.Point
  view : Γ.Point
  deriving DecidableEq

namespace Address

variable {Γ : Ctx}

/-- `Address::is_subaddress`. -/
def isSubaddress (address : Address Γ) : Bool := address.kind.isSubaddress

/-- `Address::payment_id`. -/
def paymentId (address : Address Γ) : Option (Bytes 8) := address.kind.paymentId

/-- `Address::is_guaranteed`. -/
def isGuaranteed (address : Address Γ) : Bool := address.kind.isGuaranteed

/-- `Address::SIZE_UPPER_BOUND`. -/
def SIZE_UPPER_BOUND : ℕ := ((VarInt.upperBound 64 + 32 + 32 + VarInt.upperBound 64 + 8 + 4) * 8 + 4) / 5

/-- The features of a featured address, as one byte. -/
def featuresUint (subaddress integrated guaranteed : Bool) : ℕ := guaranteed.toNat * 4 + integrated.toNat * 2 + subaddress.toNat

/-- `Address::to_string`. -/
def toString (bytes : NetworkedAddressBytes) (address : Address Γ) : List UInt8 :=
  Base58.encodeCheck Γ ([bytes.byte address.network address.kind] ++ (Γ.compress address.spend).toList ++
    (Γ.compress address.view).toList ++
    (match address.kind with
      | .Featured subaddress paymentId guaranteed => VarInt.write (featuresUint subaddress paymentId.isSome guaranteed)
      | _ => []) ++
    (match address.paymentId with
      | some id => id.toList
      | none => []))

/-- What a failing reader makes of an error of the decoding of an address. -/
def readOr {α : Type} (read : Read α) (error : AddressError) (raw : List UInt8) : Except AddressError (α × List UInt8) :=
  match read raw with
  | .ok a rest => .ok (a, rest)
  | .error _ _ => .error error

/-- A key of an address. -/
def readKey (Γ : Ctx) (raw : List UInt8) : Except AddressError (Γ.Point × List UInt8) := do
  let (key, raw) ← readOr CompressedPoint.read .InvalidKey raw
  match CompressedPoint.decompress Γ key with
  | some key => .ok (key, raw)
  | none => .error .InvalidKey

/-- The features of a featured address. -/
def readFeatures (kind : AddressType) (raw : List UInt8) : Except AddressError (AddressType × List UInt8) :=
  match kind with
  | .Featured .. => do
    let (features, raw) ← readOr VarInt.readU64 .InvalidLength raw
    if features >>> 3 ≠ 0 then .error (.UnknownFeatures features)
    else
      let subaddress := features &&& 1 = 1
      let integrated := (features >>> 1) &&& 1 = 1
      let guaranteed := (features >>> 2) &&& 1 = 1
      .ok (.Featured subaddress (if integrated then some (Bytes.replicate 8 0) else none) guaranteed, raw)
  | kind => .ok (kind, raw)

/-- The payment ID of an address, if there should be one. -/
def readPaymentId (kind : AddressType) (raw : List UInt8) : Except AddressError (AddressType × List UInt8) :=
  match kind with
  | .LegacyIntegrated _ => do
    let (id, raw) ← readOr (readBytes 8) .InvalidLength raw
    .ok (.LegacyIntegrated id, raw)
  | .Featured subaddress (some _) guaranteed => do
    let (id, raw) ← readOr (readBytes 8) .InvalidLength raw
    .ok (.Featured subaddress (some id) guaranteed, raw)
  | kind => .ok (kind, raw)

/-- `Address::from_str_with_unchecked_network`. -/
def fromStrWithUncheckedNetwork (Γ : Ctx) (bytes : NetworkedAddressBytes) (s : List UInt8) : Except AddressError (Address Γ) := do
  let raw ← match Base58.decodeCheck Γ s with
    | some raw => .ok raw
    | none => .error .InvalidEncoding
  let (byte, raw) ← readOr readByte .InvalidLength raw
  let (network, kind) ← bytes.metadataFromByte byte
  let (spend, raw) ← readKey Γ raw
  let (view, raw) ← readKey Γ raw
  let (kind, raw) ← readFeatures kind raw
  let (kind, raw) ← readPaymentId kind raw
  if raw.isEmpty then .ok { network, kind, spend, view } else .error .InvalidLength

end Address

end MoneroOxide
