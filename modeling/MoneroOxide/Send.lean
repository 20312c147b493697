import MoneroOxide.RangeProof
import MoneroOxide.Scan
import MoneroOxide.SignableTransaction

/-!
# Making and signing a transaction (`wallet/src/send/mod.rs`, `wallet/src/send/tx.rs`, `wallet/src/send/tx_keys.rs`)

The weight of a transaction, and so its fee, is that of a transaction with the same lengths. What is to be sent is checked once,
against that fee, before the payments are shuffled; the amounts are computed again each time they are used, with `u64` arithmetic
which panics on an overflow.
-/

namespace MoneroOxide

/-- `CompressedPoint::G`. -/
def CompressedPoint.G : CompressedPoint := ⟨88 :: List.replicate 31 102, rfl⟩

/-- The sum of two `u64`. -/
def addU64 {ε : Type} (a b : UInt64) : Except (Failure ε) UInt64 :=
  if a.toNat + b.toNat < 2 ^ 64 then .ok (a + b) else .error (.panic "attempt to add with overflow")

/-- `Iterator::sum::<u64>`. -/
def sumU64 {ε : Type} (amounts : List UInt64) : Except (Failure ε) UInt64 := amounts.foldlM addU64 0

/-- The difference of two `u64`. -/
def subU64 {ε : Type} (a b : UInt64) : Except (Failure ε) UInt64 :=
  if b ≤ a then .ok (a - b) else .error (.panic "attempt to subtract with overflow")

/-- `u64::try_from`, of a `u128`, with `unwrap`. -/
def unwrapU64 {ε : Type} (n : ℕ) : Except (Failure ε) UInt64 :=
  if n < 2 ^ 64 then .ok (UInt64.ofNat n) else .error (.panic "called `Result::unwrap()` on an `Err` value: TryFromIntError(())")

/-- `u64::try_from`, of a `u128`. -/
def tryU64 (n : ℕ) : Option UInt64 := if n < 2 ^ 64 then some (UInt64.ofNat n) else none

namespace SignableTransaction

variable {Γ : Ctx}

/-! ## The parts of a transaction -/

/-- The output for a payment. -/
def output (rctType : RctType) (payment : InternalPayment Γ) (derivations : SharedKeyDerivations) : Send Output := do
  let viewTag ← match rctType with
    | .ClsagBulletproof => pure none
    | .ClsagBulletproofPlus => pure (some derivations.viewTag)
    | _ => .error (.panic "unsupported RctType")
  pure { amount := none, key := Γ.compress (derivations.sharedKey • Γ.G + payment.address.spend), viewTag }

/-- `SignableTransaction::outputs`. -/
def outputs (t : SignableTransaction Γ) (keyImages : List CompressedPoint) : Send (List Output) := do
  let sharedKeyDerivations ← t.sharedKeyDerivations keyImages
  (t.payments.zip sharedKeyDerivations).mapM fun pair => output t.rctType pair.1 pair.2

/-- The nonce for the payment ID. Without one, as for wallet2, a transaction of two outputs has one of zeros for the first
payment. -/
def paymentIdNonce (t : SignableTransaction Γ) (paymentIdXors : List (Bytes 8)) : Send (Option PaymentId) :=
  match (t.payments.zip paymentIdXors).findSome? fun pair => pair.1.address.paymentId.map fun id => (id, pair.2) with
  | some (id, idXor) => .ok (some (.Encrypted (xorBytes id idXor)))
  | none =>
    if t.payments.length = 2 then
      match (t.payments.zip paymentIdXors).find? fun pair => pair.1.isPayment with
      | some (_, paymentIdXor) => .ok (some (.Encrypted paymentIdXor))
      | none => .error (.panic "multiple change outputs?")
    else .ok none

/-- `SignableTransaction::extra`. -/
def extra (t : SignableTransaction Γ) : Send (List UInt8) := do
  let (txKey, additionalKeys) ← t.transactionKeysPub
  let paymentIdXors ← t.paymentIdXors
  let extra := Extra.new (Γ.compress txKey) additionalKeys
  let paymentId ← t.paymentIdNonce paymentIdXors
  let extra := paymentId.toList.foldl (fun extra id => extra.pushNonce id.write) extra
  -- Include data if present
  let extra := t.data.foldl (fun extra part => extra.pushNonce (ARBITRARY_DATA_MARKER :: part)) extra
  pure extra.write

/-! ## The weight and the fee -/

/-- The length of the rings for a type of proofs. -/
def ringLen (unsupported : String) : RctType → Send ℕ
  | .ClsagBulletproof => .ok 11
  | .ClsagBulletproofPlus => .ok 16
  | _ => .error (.panic unsupported)

/-- The bytes `weight_and_necessary_fee` pushes for a point. -/
def dummyPoint : List UInt8 := 1 :: List.replicate 31 0

/-- The bytes `weight_and_necessary_fee` pushes for a scalar. -/
def dummyScalar : List UInt8 := List.replicate 32 0

/-- A list of points of the proof `weight_and_necessary_fee` makes up. -/
def dummyLR (lrLen : ℕ) : List UInt8 := VarInt.write lrLen ++ (List.replicate lrLen dummyPoint).flatten

/-- The Bulletproof(+) of a transaction with this many outputs, as far as its length goes. -/
def dummyBulletproof (rctType : RctType) (outputs : ℕ) : Send Bulletproof :=
  let paddedLog2 := Bulletproof.padLoop outputs 0
  let lrLen := 6 + paddedLog2
  match rctType with
  | .ClsagBulletproof =>
    let bp := (List.replicate 4 dummyPoint).flatten ++ (List.replicate 2 dummyScalar).flatten ++
      (List.replicate 2 (dummyLR lrLen)).flatten ++ (List.replicate 3 dummyScalar).flatten
    match Bulletproof.read bp with
    | .ok bulletproof _ => .ok bulletproof
    | .error _ _ => .error (.panic "made an invalid dummy BP")
  | .ClsagBulletproofPlus =>
    let bp := (List.replicate 3 dummyPoint).flatten ++ (List.replicate 3 dummyScalar).flatten ++
      (List.replicate 2 (dummyLR lrLen)).flatten
    match Bulletproof.readPlus bp with
    | .ok bulletproof _ => .ok bulletproof
    | .error _ _ => .error (.panic "made an invalid dummy BP+")
  | _ => .error (.panic "unsupported RctType")

/-- The transaction `weight_and_necessary_fee` takes the weight of. -/
def shim (t : SignableTransaction Γ) : Send (Transaction NotPruned) := do
  let keyImages := t.inputs.map fun _ => CompressedPoint.G
  let clsags ← t.inputs.mapM fun _ => do
    let ringLen ← ringLen "internal error: entered unreachable code: unsupported RCT type" t.rctType
    pure { D := CompressedPoint.G, s := List.replicate ringLen 0, c1 := 0 : Clsag }
  let pseudoOuts := t.inputs.map fun _ => CompressedPoint.G
  let encryptedAmounts := t.payments.map fun _ => EncryptedAmount.compact (Bytes.replicate 8 0)
  let commitments := t.payments.map fun _ => CompressedPoint.G
  let bulletproof ← dummyBulletproof t.rctType t.payments.length
  let outputs ← t.outputs keyImages
  let extra ← t.extra
  pure (.V2 { additionalTimelock := .None, inputs := t.txInputs keyImages, outputs, extra }
    (some
      { base := { fee := 0, pseudoOuts := [], encryptedAmounts, commitments }
        prunable := .Clsag clsags pseudoOuts bulletproof : RctProofs }))

/-- The loop over the possible fees, from that for an encoding of `feeLen` bytes on: the first whose encoding is not longer than it
was taken to be. -/
def findFee (baseWeight : ℕ) : ℕ → List ℕ → Option (ℕ × ℕ)
  | _, [] => none
  | feeLen, possibleFee :: possibleFees =>
    if VarInt.varintLen ((tryU64 possibleFee).getD (UInt64.ofNat (2 ^ 64 - 1))).toNat ≤ feeLen then some (baseWeight + feeLen, possibleFee)
    else findFee baseWeight (feeLen + 1) possibleFees

/-- The weight and the fee of a transaction of this weight without its fee. -/
def weightAndFeeFor (feeRate : FeeRate) (baseWeight : ℕ) : Send (ℕ × ℕ) := do
  -- A VarInt is of one byte at least
  let possibleWeights := (List.range (VarInt.upperBound 64)).map fun i => baseWeight + (1 + i)
  let possibleFees ← possibleWeights.mapM fun weight => do
    let weight ← u64FromUsize weight "candidate weight exceeded `u64::MAX`"
    pure (feeRate.calculateFeeFromWeight weight.toNat)
  match findFee baseWeight 1 possibleFees with
  | some weightAndFee => .ok weightAndFee
  | none => .error (.panic "length of highest possible fee was greater than highest possible fee length")

/-- `SignableTransaction::weight_and_necessary_fee`. -/
def weightAndNecessaryFee (t : SignableTransaction Γ) : Send (ℕ × ℕ) := do
  let shim ← t.shim
  -- Remove the one byte for the fee of zero
  weightAndFeeFor t.feeRate (shim.weight - 1)

/-! ## The checks of what is to be sent -/

/-- `MAX_TX_SIZE`: half the size of a block without a penalty. -/
def MAX_TX_SIZE : ℕ := 300000 / 2 - 600

/-- `if c { Err(error)? }`. -/
def errIf (c : Prop) [Decidable c] (error : SendError) : Send Unit := if c then .error (.error error) else .ok ()

/-- The checks of an input. -/
def validateInput (rctType : RctType) (input : OutputWithDecoys Γ) : Send Unit := do
  -- Keys with torsion would need a bespoke signing algorithm, and the identity has no usable key image
  errIf (¬Γ.TorsionFree input.key) .InvalidInputs
  errIf (input.key = 0) .InvalidInputs
  let ringLen ← ringLen "unsupported RctType" rctType
  errIf (input.decoys.offsets.length ≠ ringLen) .InvalidDecoyQuantity

/-- The checks of the inputs. -/
def validateInputs (t : SignableTransaction Γ) : Send Unit := do
  errIf t.inputs.isEmpty .NoInputs
  errIf ((t.inputs.map fun input => Γ.compress input.key).dedup.length ≠ t.inputs.length) .InvalidInputs
  t.inputs.forM (validateInput t.rctType)

/-- The checks of the outputs. -/
def validateOutputs (t : SignableTransaction Γ) : Send Unit := do
  errIf (!t.payments.any InternalPayment.isPayment) .NoOutputs
  -- Monero requires two outputs
  errIf (t.payments.length < 2) .NoChange
  errIf (1 < t.payments.countP InternalPayment.isChange) .IncorrectSerialization
  errIf (1 < t.payments.countP fun payment => payment.address.paymentId.isSome) .MultiplePaymentIds
  errIf (Bulletproof.MAX_COMMITMENTS < t.payments.length) .TooManyOutputs

/-- The checks of the arbitrary data, and of the extra it is a part of. -/
def validateData (t : SignableTransaction Γ) : Send Unit := do
  errIf (∃ part ∈ t.data, MAX_ARBITRARY_DATA_SIZE < part.length) .TooMuchArbitraryData
  let extra ← t.extra
  errIf (MAX_EXTRA_SIZE_BY_RELAY_RULE < extra.length) .TooMuchArbitraryData

/-- The sum of the amounts of the inputs, as a `u128`. -/
def inAmount (t : SignableTransaction Γ) : ℕ := (t.inputs.map fun input => input.commitment.amount.toNat).sum

/-- The sum of the amounts of the payments, as a `u128`. -/
def paymentsAmount (t : SignableTransaction Γ) : ℕ := ((t.payments.filterMap InternalPayment.amount?).map UInt64.toNat).sum

/-- The check that there are enough funds for the payments and the fee. -/
def validateFunds (t : SignableTransaction Γ) (necessaryFee : ℕ) : Send Unit :=
  let outAmount := min (t.paymentsAmount + necessaryFee) (2 ^ 128 - 1)
  match tryU64 t.inAmount, tryU64 outAmount with
  | some inAmount, some outAmount =>
    if inAmount < outAmount then do
      let outputs ← u64FromUsize t.paymentsAmount "total out fit within u64 but not payments' part of total out"
      let necessaryFee ← u64FromUsize necessaryFee "total out fit within u64 but not fee's part of total out"
      .error (.error (.NotEnoughFunds inAmount outputs (some necessaryFee)))
    else .ok ()
  | _, _ => .error (.error (.AmountsUnrepresentable t.inAmount outAmount))

/-- `SignableTransaction::validate`. -/
def validate (t : SignableTransaction Γ) : Send Unit := do
  errIf (t.rctType ≠ .ClsagBulletproof ∧ t.rctType ≠ .ClsagBulletproofPlus) .UnsupportedRctType
  t.validateInputs
  t.validateOutputs
  t.validateData
  let (weight, necessaryFee) ← t.weightAndNecessaryFee
  t.validateFunds necessaryFee
  errIf (MAX_TX_SIZE ≤ weight) .TooLargeTransaction

/-- `SliceRandom::shuffle`. -/
def shuffle {α : Type} (rng : Rng) (as : List α) : List α := List.ofFn fun i => as.get (Γ.shuffle rng as.length i)

/-- `SignableTransaction::new`. -/
def new (rctType : RctType) (outgoingViewKey : Bytes 32) (inputs : List (OutputWithDecoys Γ)) (payments : List (Address Γ × UInt64))
    (change : Change Γ) (data : List (List UInt8)) (feeRate : FeeRate) : Send (SignableTransaction Γ) := do
  let payments := (payments.map fun payment => .Payment payment.1 payment.2) ++ change.toList.map .Change
  let res : SignableTransaction Γ := { rctType, outgoingViewKey, inputs, payments, data, feeRate }
  res.validate
  let rng := res.seededRng "shuffle_payments"
  pure { res with payments := shuffle (Γ := Γ) rng res.payments }

/-- `SignableTransaction::necessary_fee`. -/
def necessaryFee (t : SignableTransaction Γ) : Send UInt64 := do
  let (_, necessaryFee) ← t.weightAndNecessaryFee
  unwrapU64 necessaryFee

/-! ## Its encoding -/

/-- The subaddress of a change output, where the primary address is that of zeros. -/
def writeSubaddress : Option SubaddressIndex → List UInt8
  | some subaddress => (u32Bytes subaddress.account).toList ++ (u32Bytes subaddress.address).toList
  | none => (u32Bytes 0).toList ++ (u32Bytes 0).toList

/-- The string of an address, with its length. -/
def writeAddress (addr : Address Γ) : List UInt8 := writeVec ExtraField.writeByte (addr.toString MONERO_BYTES)

/-- `write_payment`. -/
def writePayment : InternalPayment Γ → List UInt8
  | .Payment addr amount => [0] ++ writeAddress addr ++ (u64Bytes amount).toList
  | .Change (.AddressOnly addr) => [1] ++ writeAddress addr
  | .Change (.Standard viewPair subaddress) =>
    [2] ++ (Γ.compress viewPair.spend).write ++ viewPair.view.write ++ writeSubaddress subaddress
  | .Change (.Guaranteed viewPair subaddress) =>
    [3] ++ (Γ.compress viewPair.pair.spend).write ++ viewPair.pair.view.write ++ writeSubaddress subaddress

/-- `SignableTransaction::write`. -/
def write (t : SignableTransaction Γ) : List UInt8 :=
  [t.rctType.toU8] ++ t.outgoingViewKey.toList ++ writeVec OutputWithDecoys.write t.inputs ++ writeVec writePayment t.payments ++
    writeVec (writeVec ExtraField.writeByte) t.data ++ t.feeRate.write

/-- `read_address`. -/
def readAddress (Γ : Ctx) : Read (Address Γ) := do
  let s ← readVec readByte (some Address.SIZE_UPPER_BOUND)
  match Address.fromStrWithUncheckedNetwork Γ MONERO_BYTES s with
  | .ok addr => pure addr
  | .error _ => throw (.other "invalid address")

/-- The view pair of a change output. -/
def readViewPair (Γ : Ctx) (message : String) : Read (ViewPair Γ) := do
  let spend ← readPoint Γ message
  let view ← Scalar.read
  match ViewPair.new spend view with
  | .ok viewPair => pure viewPair
  | .error .TorsionedSpendKey => throw (.other "torsioned spend key")

/-- `SubaddressIndex::new`, of what is read. -/
def readSubaddress : Read (Option SubaddressIndex) := do
  let account ← readU32
  let address ← readU32
  pure (SubaddressIndex.new account address)

/-- `read_payment`. -/
def readPayment (Γ : Ctx) : Read (InternalPayment Γ) := do
  let kind ← readByte
  if kind = 0 then do
    let addr ← readAddress Γ
    let amount ← readU64
    pure (.Payment addr amount)
  else if kind = 1 then do
    let addr ← readAddress Γ
    pure (.Change (.AddressOnly addr))
  else if kind = 2 then do
    let viewPair ← readViewPair Γ "`Change` payment had invalid public spend key"
    let subaddress ← readSubaddress
    pure (.Change (.Standard viewPair subaddress))
  else if kind = 3 then do
    let viewPair ← readViewPair Γ "guaranteed `Change` payment had invalid public spend key"
    let subaddress ← readSubaddress
    pure (.Change (.Guaranteed { pair := viewPair } subaddress))
  else throw (.other "invalid payment")

/-- What `SignableTransaction::read` reads before it is checked. -/
def readFields (Γ : Ctx) : Read (SignableTransaction Γ) := do
  let byte ← readByte
  match RctType.ofU8 byte with
  | none => throw (.other "unsupported/invalid RctType")
  | some rctType => do
    let outgoingViewKey ← readBytes 32
    let inputs ← readVec (OutputWithDecoys.read Γ) (some TransactionPrefix.INPUTS_UPPER_BOUND)
    let payments ← readVec (readPayment Γ) (some Bulletproof.MAX_COMMITMENTS)
    let data ← readVec (readVec readByte (some MAX_ARBITRARY_DATA_SIZE)) (some MAX_EXTRA_SIZE_BY_RELAY_RULE)
    let feeRate ← FeeRate.read
    pure { rctType, outgoingViewKey, inputs, payments, data, feeRate }

/-- `SignableTransaction::read`: what was read, checked, and what is left. -/
def read (Γ : Ctx) (s : List UInt8) : Except (Failure IoError) (SignableTransaction Γ × List UInt8) :=
  match readFields Γ s with
  | .error e _ => .error (.error e)
  | .ok res rest => match res.validate with
    | .ok () => .ok (res, rest)
    | .error (.error e) => .error (.error (.other e.display))
    | .error (.panic message) => .error (.panic message)

/-! ## The transaction -/

/-- The amount of a payment. That of the change is what the payments and the fee leave of the inputs. -/
def amount (t : SignableTransaction Γ) : InternalPayment Γ → Send UInt64
  | .Payment _ amount => .ok amount
  | .Change _ => do
    let inputs ← sumU64 (t.inputs.map fun input => input.commitment.amount)
    let payments ← sumU64 (t.payments.filterMap InternalPayment.amount?)
    let (_, necessaryFee) ← t.weightAndNecessaryFee
    let necessaryFee ← unwrapU64 necessaryFee
    let out ← addU64 payments necessaryFee
    subU64 inputs out

/-- `SignableTransaction::commitments_and_encrypted_amounts`. -/
def commitmentsAndEncryptedAmounts (t : SignableTransaction Γ) (keyImages : List CompressedPoint) :
    Send (List (Commitment × EncryptedAmount)) := do
  let sharedKeyDerivations ← t.sharedKeyDerivations keyImages
  (t.payments.zip sharedKeyDerivations).mapM fun pair => do
    let amount ← t.amount pair.1
    pure ({ mask := pair.2.commitmentMask Γ, amount }, .compact (pair.2.compactAmountEncryption Γ amount))

/-- `SignableTransaction::sum_output_masks`. -/
def sumOutputMasks (t : SignableTransaction Γ) (keyImages : List CompressedPoint) : Send Scalar := do
  let commitmentsAndEncryptedAmounts ← t.commitmentsAndEncryptedAmounts keyImages
  pure (commitmentsAndEncryptedAmounts.map fun pair => pair.1.mask).sum

/-- The range proof of the outputs. -/
def proveOutputs (t : SignableTransaction Γ) (commitments : List Commitment) : Send Bulletproof :=
  let bpRng := t.seededRng "bulletproof"
  let proof := match t.rctType with
    | .ClsagBulletproof => some (Bulletproof.prove Γ bpRng commitments)
    | .ClsagBulletproofPlus => some (Bulletproof.provePlus Γ bpRng commitments)
    | _ => none
  match proof with
  | none => .error (.panic "unsupported RctType")
  | some (.ok (bulletproof, _)) => .ok bulletproof
  | some (.error (.panic message)) => .error (.panic message)
  | some (.error (.error _)) =>
    .error (.panic "couldn't prove BP(+)s for this many payments despite checking in constructor?")

/-- The fee of the transaction: all of what the payments leave of the inputs, unless there is a change output. -/
def fee (t : SignableTransaction Γ) : Send UInt64 :=
  if t.payments.any InternalPayment.isChange then t.necessaryFee
  else do
    let inputs ← sumU64 (t.inputs.map fun input => input.commitment.amount)
    let payments ← sumU64 (t.payments.filterMap InternalPayment.amount?)
    subU64 inputs payments

end SignableTransaction

/-- `SignableTransactionWithKeyImages`. -/
structure SignableTransactionWithKeyImages (Γ : Ctx) where
  intent : SignableTransaction Γ
  keyImages : List CompressedPoint

/-- `SignableTransactionWithKeyImages::transaction_without_signatures`. -/
def SignableTransactionWithKeyImages.transactionWithoutSignatures {Γ : Ctx} (t : SignableTransactionWithKeyImages Γ) :
    Send (Transaction NotPruned) := do
  let commitmentsAndEncryptedAmounts ← t.intent.commitmentsAndEncryptedAmounts t.keyImages
  let commitments := commitmentsAndEncryptedAmounts.map fun pair => Γ.compress (pair.1.commit Γ)
  let encryptedAmounts := commitmentsAndEncryptedAmounts.map Prod.snd
  let bulletproof ← t.intent.proveOutputs (commitmentsAndEncryptedAmounts.map Prod.fst)
  let outputs ← t.intent.outputs t.keyImages
  let extra ← t.intent.extra
  let fee ← t.intent.fee
  pure (.V2 { additionalTimelock := .None, inputs := t.intent.txInputs t.keyImages, outputs, extra }
    (some
      { base := { fee, pseudoOuts := [], encryptedAmounts, commitments }
        prunable := .Clsag [] [] bulletproof : RctProofs }))

namespace SignableTransaction

variable {Γ : Ctx}

/-- `SignableTransaction::with_key_images`: the inputs are sorted by their key images. -/
def withKeyImages (t : SignableTransaction Γ) (keyImages : List CompressedPoint) : SignableTransactionWithKeyImages Γ :=
  let sortedInputs := Sorting.sortBy keyImageSort Prod.snd (t.inputs.zip keyImages)
  { intent := { t with inputs := sortedInputs.map Prod.fst }, keyImages := sortedInputs.map Prod.snd }

/-- `SignableTransaction::unsigned_transaction`. -/
def unsignedTransaction (t : SignableTransaction Γ) (keyImages : List CompressedPoint) : Send (Option (Transaction NotPruned)) :=
  if t.inputs.length ≠ keyImages.length then .ok none
  else some <$> (t.withKeyImages keyImages).transactionWithoutSignatures

/-- The key image of an input, if the key is the one to spend it with. -/
def signKeyImage (senderSpendKey : Scalar) (input : OutputWithDecoys Γ) : Send CompressedPoint :=
  let inputKey := senderSpendKey + input.keyOffset
  if inputKey • Γ.G ≠ input.key then .error (.error .WrongPrivateKey)
  else .ok (Γ.compress (inputKey • Point.biasedHash Γ (Γ.compress input.key)))

/-- The key and the context an input is signed for with. -/
def clsagSign (senderSpendKey : Scalar) (input : OutputWithDecoys Γ) : Send (Scalar × ClsagContext Γ) :=
  match ClsagContext.new input.decoys input.commitment with
  | .ok context => .ok (senderSpendKey + input.keyOffset, context)
  | .error e => .error (.error (.ClsagError e))

/-- Fill in the CLSAGs and the pseudo-outs of a transaction, which has none yet. -/
def fillIn (unsupported : String) (tx : Transaction NotPruned) (clsagsAndPseudoOuts : List (Clsag × CompressedPoint)) :
    Send (Transaction NotPruned) :=
  match tx with
  | .V2 txPrefix (some proofs) =>
    let proofs : RctProofs := proofs
    match proofs.prunable with
    | .Clsag _ _ bulletproof =>
      .ok (.V2 txPrefix (some { proofs with
        prunable := .Clsag (clsagsAndPseudoOuts.map Prod.fst) (clsagsAndPseudoOuts.map Prod.snd) bulletproof : RctProofs }))
    | _ => .error (.panic unsupported)
  | _ => .error (.panic unsupported)

/-- `SignableTransaction::sign`. -/
def sign (t : SignableTransaction Γ) (rng : Rng) (senderSpendKey : Scalar) : Send (Transaction NotPruned × Rng) := do
  let keyImages ← t.inputs.mapM (signKeyImage senderSpendKey)
  let tx := t.withKeyImages keyImages
  let clsagSigns ← tx.intent.inputs.mapM (clsagSign senderSpendKey)
  let maskSum ← tx.intent.sumOutputMasks tx.keyImages
  let tx ← tx.transactionWithoutSignatures
  match tx.signatureHash Γ with
  | none => .error (.panic "signing a transaction which isn't signed?")
  | some msgHash =>
    match Clsag.sign rng clsagSigns maskSum msgHash with
    | .error e => .error (.error (.ClsagError e))
    | .ok (clsagsAndPseudoOuts, rng) => do
      let tx ← fillIn "not signing clsag?" tx (clsagsAndPseudoOuts.map fun pair => (pair.1, Γ.compress pair.2))
      pure (tx, rng)

end SignableTransaction

end MoneroOxide
