import MoneroOxide.Address

/-!
# The bytes of addresses (`wallet/address/src/lib.rs`)

The bytes of all networks are packed into a `u128`, as which they are the parameter of the type of addresses. A shift is a product with, or a
quotient by, a power of two.
-/

namespace MoneroOxide

namespace AddressBytes

/-- `AddressBytes::to_const_generic`. -/
def toConstGeneric (bytes : AddressBytes) : ℕ :=
  (bytes.legacy.toNat * 2 ^ 24) + (bytes.legacyIntegrated.toNat * 2 ^ 16) + (bytes.subaddress.toNat * 2 ^ 8) + bytes.featured.toNat

/-- `AddressBytes::from_const_generic`, where a cast to `u8` truncates. -/
def fromConstGeneric (constGeneric : ℕ) : AddressBytes where
  legacy := UInt8.ofNat (constGeneric / 2 ^ 24)
  legacyIntegrated := UInt8.ofNat ((constGeneric / 2 ^ 16) &&& 255)
  subaddress := UInt8.ofNat ((constGeneric / 2 ^ 8) &&& 255)
  featured := UInt8.ofNat (constGeneric &&& 255)

end AddressBytes

namespace NetworkedAddressBytes

/-- `NetworkedAddressBytes::to_const_generic`. -/
def toConstGeneric (bytes : NetworkedAddressBytes) : ℕ :=
  (bytes.mainnet.toConstGeneric * 2 ^ 96) + (bytes.stagenet.toConstGeneric * 2 ^ 64) + (bytes.testnet.toConstGeneric * 2 ^ 32)

/-- `NetworkedAddressBytes::from_const_generic`, where a cast to `u32` truncates. -/
def fromConstGeneric (constGeneric : ℕ) : NetworkedAddressBytes where
  mainnet := AddressBytes.fromConstGeneric ((constGeneric / 2 ^ 96) % 2 ^ 32)
  stagenet := AddressBytes.fromConstGeneric (((constGeneric / 2 ^ 64) &&& (2 ^ 32 - 1)) % 2 ^ 32)
  testnet := AddressBytes.fromConstGeneric (((constGeneric / 2 ^ 32) &&& (2 ^ 32 - 1)) % 2 ^ 32)

/-- One of the twelve bytes. -/
def byteAt (allBytes i : ℕ) : ℕ := (allBytes / 2 ^ (32 + i * 8)) &&& 255

/-- `NetworkedAddressBytes::new`: no two of the bytes are the same. -/
def new (mainnet stagenet testnet : AddressBytes) : Option NetworkedAddressBytes :=
  let res : NetworkedAddressBytes := { mainnet, stagenet, testnet }
  let allBytes := res.toConstGeneric
  if (List.range 12).any fun i => (List.range 12).any fun j => i ≠ j && byteAt allBytes i = byteAt allBytes j then none
  else some res

end NetworkedAddressBytes

/-- `Address::from_str`. -/
def Address.fromStr (Γ : Ctx) (bytes : NetworkedAddressBytes) (network : Network) (s : List UInt8) :
    Except AddressError (Address Γ) := do
  let addr ← Address.fromStrWithUncheckedNetwork Γ bytes s
  if addr.network = network then .ok addr else .error (.DifferentNetwork network addr.network)

end MoneroOxide
