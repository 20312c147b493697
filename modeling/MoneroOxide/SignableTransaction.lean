import MoneroOxide.Lib.Sorting
import MoneroOxide.WalletOutput

/-!
# What is to be sent, and the keys of the transaction (`wallet/src/send/mod.rs`, `wallet/src/send/tx_keys.rs`)

The keys a transaction is made with are drawn from a generator seeded with the outgoing view key and the inputs, which are sorted
for it. Where the source panics, the result is a panic with its message. The assertions of debug builds are left out.
-/

namespace MoneroOxide

/-- `key_image_sort`, as whether the first may stand before the second: the order of the bytes, reversed. -/
def keyImageSort (x y : CompressedPoint) : Bool := decide (y.toList ≤ x.toList)

/-- `ChangeEnum`. -/
inductive ChangeEnum (Γ : Ctx) where
  | AddressOnly (addr : Address Γ)
  | Standard (viewPair : ViewPair Γ) (subaddress : Option SubaddressIndex)
  | Guaranteed (viewPair : GuaranteedViewPair Γ) (subaddress : Option SubaddressIndex)

/-- `Change`. -/
abbrev Change (Γ : Ctx) : Type := Option (ChangeEnum Γ)

/-- `ChangeEnum::address`. -/
def ChangeEnum.address {Γ : Ctx} : ChangeEnum Γ → Address Γ
  | AddressOnly addr => addr
  -- The network doesn't affect the derivations
  | Standard viewPair (some subaddress) => viewPair.subaddress .Mainnet subaddress
  | Standard viewPair none => viewPair.legacyAddress .Mainnet
  | Guaranteed viewPair subaddress => viewPair.address .Mainnet subaddress none

/-- `InternalPayment`. -/
inductive InternalPayment (Γ : Ctx) where
  | Payment (addr : Address Γ) (amount : UInt64)
  | Change (change : ChangeEnum Γ)

namespace InternalPayment

variable {Γ : Ctx}

/-- `InternalPayment::address`. -/
def address : InternalPayment Γ → Address Γ
  | Payment addr _ => addr
  | Change change => change.address

/-- `matches!(payment, InternalPayment::Payment(_, _))`. -/
def isPayment : InternalPayment Γ → Bool
  | Payment .. => true
  | Change _ => false

/-- `matches!(payment, InternalPayment::Change(_))`. -/
def isChange : InternalPayment Γ → Bool
  | Payment .. => false
  | Change _ => true

/-- The amount of a payment, which a change output does not have yet. -/
def amount? : InternalPayment Γ → Option UInt64
  | Payment _ amount => some amount
  | Change _ => none

/-- Whether this has to be sent to a subaddress. A change output whose view key is known can be sent as if it were received. -/
def toSubaddress : InternalPayment Γ → Bool
  | Payment addr _ => addr.isSubaddress
  | Change (.AddressOnly addr) => addr.isSubaddress
  | Change (.Standard ..) | Change (.Guaranteed ..) => false

/-- Whether this is a change output whose view key is known. -/
def hasChangeView : InternalPayment Γ → Bool
  | Payment .. => false
  | Change (.AddressOnly _) => false
  | Change (.Standard ..) | Change (.Guaranteed ..) => true

end InternalPayment

/-- `SendError`. The error of FROST is left out, as nothing returns it. -/
inductive SendError where
  | UnsupportedRctType
  | NoInputs
  | InvalidInputs
  | InvalidDecoyQuantity
  | NoOutputs
  | TooManyOutputs
  | NoChange
  | MultiplePaymentIds
  | TooMuchArbitraryData
  | TooLargeTransaction
  | AmountsUnrepresentable (inAmount outAmount : ℕ)
  | NotEnoughFunds (inputs outputs : UInt64) (necessaryFee : Option UInt64)
  | WrongPrivateKey
  | IncorrectSerialization
  | ClsagError (error : ClsagError)
  deriving DecidableEq, Repr

/-- `ClsagError::to_string`. -/
def ClsagError.display : ClsagError → String
  | InvalidRing => "invalid ring"
  | InvalidKey | InvalidCommitment => "invalid commitment"
  | InvalidImage => "invalid key image"
  | InvalidD => "invalid D"
  | InvalidS => "invalid s"
  | InvalidC1 => "invalid c1"

/-- `SendError::to_string`. -/
def SendError.display : SendError → String
  | UnsupportedRctType => "this library doesn't yet support that RctType"
  | NoInputs => "no inputs"
  | InvalidInputs => "invalid inputs"
  | InvalidDecoyQuantity => "invalid number of decoys"
  | NoOutputs => "no outputs"
  | TooManyOutputs => "too many outputs"
  | NoChange => "only one output and no change address"
  | MultiplePaymentIds => "multiple addresses with payment IDs"
  | TooMuchArbitraryData => "too much data"
  | TooLargeTransaction => "too large of a transaction"
  | AmountsUnrepresentable inAmount outAmount =>
    "transaction amounts exceed u64::MAX (in " ++ toString inAmount ++ ", out " ++ toString outAmount ++ ")"
  | NotEnoughFunds inputs outputs necessaryFee =>
    "not enough funds (inputs " ++ toString inputs ++ ", outputs " ++ toString outputs ++ ", necessary_fee " ++
      (match necessaryFee with
        | some fee => "Some(" ++ toString fee ++ ")"
        | none => "None") ++ ")"
  | WrongPrivateKey => "wrong spend private key"
  | IncorrectSerialization => "this SignableTransaction was created by deserializing an incorrect serialization"
  | ClsagError error => "clsag error (" ++ error.display ++ ")"

/-- `SignableTransaction`. -/
structure SignableTransaction (Γ : Ctx) where
  rctType : RctType
  outgoingViewKey : Bytes 32
  inputs : List (OutputWithDecoys Γ)
  payments : List (InternalPayment Γ)
  data : List (List UInt8)
  feeRate : FeeRate

/-- A function of the source which may return a `SendError` or panic. -/
abbrev Send : Type → Type := Except (Failure SendError)

/-- `seeded_rng`. The inputs are put in an order of their own. -/
def seededRng (Γ : Ctx) (dst : List UInt8) (outgoingViewKey : Bytes 32)
    (inputKeysAndCommitments : List (Γ.Point × Γ.Point)) : Rng :=
  let transcript := [UInt8.ofNat dst.length] ++ dst ++ outgoingViewKey.toList
  let inputKeysAndCommitments := inputKeysAndCommitments.map fun pair => (Γ.compress pair.1, Γ.compress pair.2)
  let inputKeysAndCommitments := Sorting.sortBy keyImageSort Prod.fst inputKeysAndCommitments
  Γ.chaCha20 (Γ.keccak256 (transcript ++ inputKeysAndCommitments.flatMap fun pair => pair.1.toList ++ pair.2.toList))

/-- `TransactionKeys::new`. What it yields next are random scalars. -/
def TransactionKeys.new (Γ : Ctx) (outgoingViewKey : Bytes 32) (inputKeysAndCommitments : List (Γ.Point × Γ.Point)) : Rng :=
  seededRng Γ (ascii "transaction_keys") outgoingViewKey inputKeysAndCommitments

namespace SignableTransaction

variable {Γ : Ctx}

/-- `SignableTransaction::input_keys_and_commitments`. -/
def inputKeysAndCommitments (t : SignableTransaction Γ) : List (Γ.Point × Γ.Point) :=
  t.inputs.map fun output => (output.key, output.commitment.commit Γ)

/-- `SignableTransaction::seeded_rng`. -/
def seededRng (t : SignableTransaction Γ) (dst : String) : Rng :=
  MoneroOxide.seededRng Γ (ascii dst) t.outgoingViewKey t.inputKeysAndCommitments

/-- `SignableTransaction::has_payments_to_subaddresses`. -/
def hasPaymentsToSubaddresses (t : SignableTransaction Γ) : Bool := t.payments.any InternalPayment.toSubaddress

/-- `SignableTransaction::should_use_additional_keys`: one key for each output, unless the one transaction key can be that for the
subaddress, as the other output's view key is known. -/
def shouldUseAdditionalKeys (t : SignableTransaction Γ) : Bool :=
  let hasChangeView := t.payments.any InternalPayment.hasChangeView
  t.hasPaymentsToSubaddresses && !(t.payments.length == 2 && hasChangeView)

/-- `SignableTransaction::transaction_keys`. -/
def transactionKeys (t : SignableTransaction Γ) : Scalar × List Scalar :=
  let (txKey, txKeys) := Scalar.random (TransactionKeys.new Γ t.outgoingViewKey t.inputKeysAndCommitments)
  (txKey, if t.shouldUseAdditionalKeys then (Clsag.randomScalars t.payments.length txKeys).1 else [])

/-- The commitment to the additional key of a payment. -/
def additionalKeyPub (additionalKey : Scalar) (payment : InternalPayment Γ) : CompressedPoint :=
  let addr := payment.address
  if addr.isSubaddress then Γ.compress (additionalKey • addr.spend) else Γ.compress (additionalKey • Γ.G)

/-- `SignableTransaction::transaction_keys_pub`. The commitment to a key for a subaddress has its spend key for a generator. -/
def transactionKeysPub (t : SignableTransaction Γ) : Send (Γ.Point × List CompressedPoint) :=
  let (txKey, additionalKeys) := t.transactionKeys
  if t.hasPaymentsToSubaddresses && !t.shouldUseAdditionalKeys then
    match t.payments.find? InternalPayment.isPayment with
    | none => .error (.panic "payment to subaddress yet no payment")
    | some (.Payment addr _) => .ok (txKey • addr.spend, [])
    | some (.Change _) => .error (.panic "filtered payment wasn't a payment")
  else if t.shouldUseAdditionalKeys then
    .ok (txKey • Γ.G, (additionalKeys.zip t.payments).map fun pair => additionalKeyPub pair.1 pair.2)
  else .ok (txKey • Γ.G, [])

/-- The shared secret of the `i`-th output: `r A`, or `a R` if the view key is known. -/
def ecdh (txKey : Scalar) (additionalKeys : List Scalar) (txKeyPub : Γ.Point) (i : ℕ) (payment : InternalPayment Γ) : Γ.Point :=
  let addr := payment.address
  let keyToUse := if addr.isSubaddress then additionalKeys.getD i txKey else txKey
  match payment with
  | .Payment .. | .Change (.AddressOnly _) => keyToUse • addr.view
  | .Change (.Standard viewPair _) => viewPair.view • txKeyPub
  | .Change (.Guaranteed viewPair _) => viewPair.pair.view • txKeyPub

/-- `SignableTransaction::ecdhs`. -/
def ecdhs (t : SignableTransaction Γ) : Send (List Γ.Point) := do
  let (txKey, additionalKeys) := t.transactionKeys
  let (txKeyPub, _) ← t.transactionKeysPub
  pure (t.payments.mapIdx (ecdh txKey additionalKeys txKeyPub))

/-- `SignableTransaction::inputs`: the inputs of the transaction. -/
def txInputs (t : SignableTransaction Γ) (keyImages : List CompressedPoint) : List Input :=
  (t.inputs.zip keyImages).map fun pair => .ToKey none pair.1.decoys.offsets pair.2

/-- `SignableTransaction::shared_key_derivations`. -/
def sharedKeyDerivations (t : SignableTransaction Γ) (keyImages : List CompressedPoint) : Send (List SharedKeyDerivations) := do
  let ecdhs ← t.ecdhs
  let uniqueness := SharedKeyDerivations.uniqueness Γ (t.txInputs keyImages)
  pure ((t.payments.zip ecdhs).mapIdx fun i pair =>
    SharedKeyDerivations.outputDerivations Γ (if pair.1.address.isGuaranteed then some uniqueness else none) pair.2 i)

/-- `SignableTransaction::payment_id_xors`. -/
def paymentIdXors (t : SignableTransaction Γ) : Send (List (Bytes 8)) := do
  let ecdhs ← t.ecdhs
  pure (ecdhs.map (SharedKeyDerivations.paymentIdXor Γ))

end SignableTransaction

end MoneroOxide
