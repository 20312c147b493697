import MoneroOxide.Address
import MoneroOxide.Transaction

/-!
# View pairs and what is derived from a shared key (`wallet/src/view_pair.rs`, `wallet/src/lib.rs`)
-/

namespace MoneroOxide

/-- `u64::from_le_bytes(a) ^ u64::from_le_bytes(b)`, as bytes. -/
def xorBytes (a b : Bytes 8) : Bytes 8 := u64Bytes (UInt64.ofNat a.toNat ^^^ UInt64.ofNat b.toNat)

/-- `SharedKeyDerivations`. -/
structure SharedKeyDerivations where
  viewTag : UInt8
  sharedKey : Scalar

namespace SharedKeyDerivations

variable (Γ : Ctx)

/-- `SharedKeyDerivations::uniqueness`. -/
def uniqueness (inputs : List Input) : Bytes 32 :=
  Γ.keccak256 (ascii "uniqueness" ++ inputs.flatMap fun
    | .Gen height => VarInt.write height.toNat
    | .ToKey _ _ keyImage => keyImage.toList)

/-- The encoding of the shared key, `8Ra`, that everything is derived from. -/
def sharedPoint (ecdh : Γ.Point) : List UInt8 := (Γ.compress ((8 : ℕ) • ecdh)).toList

/-- `SharedKeyDerivations::output_derivations`. -/
def outputDerivations (uniqueness : Option (Bytes 32)) (ecdh : Γ.Point) (o : ℕ) : SharedKeyDerivations :=
  let outputDerivation := sharedPoint Γ ecdh ++ VarInt.write o
  let viewTag := (Γ.keccak256 (ascii "view_tag" ++ outputDerivation)).toList.headD 0
  let outputDerivation := match uniqueness with
    | some uniqueness => uniqueness.toList ++ outputDerivation
    | none => outputDerivation
  { viewTag, sharedKey := Scalar.hash Γ outputDerivation }

/-- `SharedKeyDerivations::payment_id_xor`. -/
def paymentIdXor (ecdh : Γ.Point) : Bytes 8 := (Γ.keccak256 (sharedPoint Γ ecdh ++ [0x8d])).take 8 (by decide)

/-- `SharedKeyDerivations::commitment_mask`. -/
def commitmentMask (derivations : SharedKeyDerivations) : Scalar :=
  Scalar.hash Γ (ascii "commitment_mask" ++ derivations.sharedKey.toBytes.toList)

/-- `SharedKeyDerivations::compact_amount_encryption`. -/
def compactAmountEncryption (derivations : SharedKeyDerivations) (amount : UInt64) : Bytes 8 :=
  xorBytes (u64Bytes amount) ((Γ.keccak256 (ascii "amount" ++ derivations.sharedKey.toBytes.toList)).take 8 (by decide))

/-- `SharedKeyDerivations::decrypt`. -/
def decrypt (derivations : SharedKeyDerivations) : EncryptedAmount → Commitment
  | .original mask amount =>
    let maskSharedSecScalar := Scalar.hash Γ derivations.sharedKey.toBytes.toList
    let amountSharedSecScalar := Scalar.hash Γ maskSharedSecScalar.toBytes.toList
    let amountScalar := Scalar.fromBytesModOrder amount - amountSharedSecScalar
    { mask := Scalar.fromBytesModOrder mask - maskSharedSecScalar
      amount := UInt64.ofNat ((amountScalar.toBytes.take 8 (by decide)).toNat) }
  | .compact amount =>
    { mask := derivations.commitmentMask Γ
      amount := UInt64.ofNat (derivations.compactAmountEncryption Γ (UInt64.ofNat amount.toNat)).toNat }

end SharedKeyDerivations

/-- `ViewPairError`. -/
inductive ViewPairError where
  | TorsionedSpendKey
  deriving DecidableEq, Repr

/-- `ViewPair`. A value is made by `ViewPair::new` only, which refuses a spend key with a torsion component. -/
structure ViewPair (Γ : Ctx) where
  spend : Γ.Point
  view : Scalar
  torsionFree : Γ.TorsionFree spend

namespace ViewPair

variable {Γ : Ctx}

/-- `ViewPair::new`. -/
def new (spend : Γ.Point) (view : Scalar) : Except ViewPairError (ViewPair Γ) :=
  if h : Γ.TorsionFree spend then .ok { spend, view, torsionFree := h } else .error .TorsionedSpendKey

/-- `ViewPair::view`: the public view key. -/
def publicView (pair : ViewPair Γ) : Γ.Point := pair.view • Γ.G

/-- `ViewPair::subaddress_derivation`. -/
def subaddressDerivation (pair : ViewPair Γ) (index : SubaddressIndex) : Scalar :=
  Scalar.hash Γ (ascii "SubAddr\x00" ++ pair.view.toBytes.toList ++ (u32Bytes index.account).toList ++
    (u32Bytes index.address).toList)

/-- `ViewPair::subaddress_keys`. -/
def subaddressKeys (pair : ViewPair Γ) (index : SubaddressIndex) : Γ.Point × Γ.Point :=
  let spend := pair.spend + pair.subaddressDerivation index • Γ.G
  (spend, pair.view • spend)

/-- `ViewPair::legacy_address`. -/
def legacyAddress (pair : ViewPair Γ) (network : Network) : Address Γ :=
  { network, kind := .Legacy, spend := pair.spend, view := pair.publicView }

/-- `ViewPair::legacy_integrated_address`. -/
def legacyIntegratedAddress (pair : ViewPair Γ) (network : Network) (paymentId : Bytes 8) : Address Γ :=
  { network, kind := .LegacyIntegrated paymentId, spend := pair.spend, view := pair.publicView }

/-- `ViewPair::subaddress`. -/
def subaddress (pair : ViewPair Γ) (network : Network) (index : SubaddressIndex) : Address Γ :=
  let (spend, view) := pair.subaddressKeys index
  { network, kind := .Subaddress, spend, view }

end ViewPair

/-- `GuaranteedViewPair`. -/
structure GuaranteedViewPair (Γ : Ctx) where
  pair : ViewPair Γ

/-- `GuaranteedViewPair::address`. -/
def GuaranteedViewPair.address {Γ : Ctx} (guaranteed : GuaranteedViewPair Γ) (network : Network)
    (subaddress : Option SubaddressIndex) (paymentId : Option (Bytes 8)) : Address Γ :=
  let (spend, view) := match subaddress with
    | some index => guaranteed.pair.subaddressKeys index
    | none => (guaranteed.pair.spend, guaranteed.pair.publicView)
  { network, kind := .Featured subaddress.isSome paymentId true, spend, view }

end MoneroOxide
