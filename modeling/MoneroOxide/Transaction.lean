import MoneroOxide.Ringct

/-!
# Transactions (`src/transaction.rs`)

A transaction with its inputs, outputs and proofs, its encoding, and the hashes taken of it. `Transaction` is generic over
whether the prunable data is there, as in the source: `PotentiallyPruned` is the trait of that name, and `NotPruned` and `Pruned`
are its two instances.
-/

namespace MoneroOxide

/-- `Transaction::NON_MINER_SIZE_UPPER_BOUND`. -/
def NON_MINER_SIZE_UPPER_BOUND : ℕ := 1000000

/-- `Input`. -/
inductive Input where
  | Gen (height : UInt64)
  | ToKey (amount : Option UInt64) (keyOffsets : List UInt64) (keyImage : CompressedPoint)
  deriving DecidableEq

namespace Input

/-- `Input::NON_GEN_SIZE_LOWER_BOUND`. -/
def NON_GEN_SIZE_LOWER_BOUND : ℕ := 1 + 1 + 1 + 32

/-- `matches!(input, Input::Gen(_))`. -/
def isGen : Input → Bool
  | Gen _ => true
  | ToKey .. => false

/-- `Input::write`. -/
def write : Input → List UInt8
  | Gen height => [255] ++ VarInt.write height.toNat
  | ToKey amount keyOffsets keyImage =>
    [2] ++ VarInt.write (amount.getD 0).toNat ++ writeVec (fun offset : UInt64 => VarInt.write offset.toNat) keyOffsets ++
      keyImage.write

/-- `Input::read`. An amount of zero is no amount. -/
def read : Read Input := do
  let kind ← readByte
  if kind = 255 then Gen <$> VarInt.readU64
  else if kind = 2 then do
    let amount ← VarInt.readU64
    let keyOffsets ← readVec VarInt.readU64 (some NON_MINER_SIZE_UPPER_BOUND)
    let keyImage ← CompressedPoint.read
    pure (ToKey (if amount = 0 then none else some amount) keyOffsets keyImage)
  else throw (.other "Tried to deserialize unknown/unused input type")

end Input

/-- `Output`. -/
structure Output where
  amount : Option UInt64
  key : CompressedPoint
  viewTag : Option UInt8
  deriving DecidableEq

namespace Output

/-- `Output::SIZE_LOWER_BOUND`. -/
def SIZE_LOWER_BOUND : ℕ := 1 + 1 + 32

/-- `Output::write`. -/
def write (output : Output) : List UInt8 :=
  VarInt.write (output.amount.getD 0).toNat ++ [2 + (if output.viewTag.isSome then 1 else 0)] ++ output.key.toList ++
    output.viewTag.toList

/-- `Output::read`. -/
def read (rct : Bool) : Read Output := do
  let amount ← VarInt.readU64
  let amount ←
    if rct then (if amount ≠ 0 then throw (.other "RCT TX output wasn't 0") else pure none)
    else pure (some amount)
  let kind ← readByte
  if kind ≠ 2 ∧ kind ≠ 3 then throw (.other "Tried to deserialize unknown/unused output type")
  else do
    let key ← CompressedPoint.read
    let viewTag ← if kind = 3 then some <$> readByte else pure none
    pure { amount, key, viewTag }

end Output

/-- `Timelock`: an additional timelock of a transaction. -/
inductive Timelock where
  | None
  | Block (block : UInt64)
  | Time (time : UInt64)
  deriving DecidableEq

namespace Timelock

/-- `TIMELOCK_BLOCK_THRESHOLD`. -/
def BLOCK_THRESHOLD : UInt64 := 500000000

/-- `Timelock::write`. -/
def write : Timelock → List UInt8
  | None => VarInt.write 0
  | Block block => VarInt.write block.toNat
  | Time time => VarInt.write time.toNat

/-- The timelock a number stands for. -/
def ofRaw (raw : UInt64) : Timelock := if raw = 0 then None else if raw < BLOCK_THRESHOLD then Block raw else Time raw

/-- `Timelock::read`. -/
def read : Read Timelock := ofRaw <$> VarInt.readU64

end Timelock

/-- `TransactionPrefix`. -/
structure TransactionPrefix where
  additionalTimelock : Timelock
  inputs : List Input
  outputs : List Output
  extra : List UInt8
  deriving DecidableEq

namespace TransactionPrefix

/-- `TransactionPrefix::INPUTS_UPPER_BOUND`: the most inputs of the least size which fit in the largest transaction. -/
def INPUTS_UPPER_BOUND : ℕ := max 1 (NON_MINER_SIZE_UPPER_BOUND / Input.NON_GEN_SIZE_LOWER_BOUND)

/-- `TransactionPrefix::NON_MINER_OUTPUTS_UPPER_BOUND`. -/
def NON_MINER_OUTPUTS_UPPER_BOUND : ℕ := NON_MINER_SIZE_UPPER_BOUND / Output.SIZE_LOWER_BOUND

/-- `TransactionPrefix::write`. -/
def write (txPrefix : TransactionPrefix) : List UInt8 :=
  txPrefix.additionalTimelock.write ++ writeVec Input.write txPrefix.inputs ++ writeVec Output.write txPrefix.outputs ++
    VarInt.write txPrefix.extra.length ++ txPrefix.extra

/-- What `TransactionPrefix::read` reads after the inputs, of which the first tells if this is a miner transaction. -/
def readAfterInputs (version : UInt64) (additionalTimelock : Timelock) (inputs : List Input) (isMinerTx : Bool) :
    Read TransactionPrefix := do
  let maxOutputs := if isMinerTx then none else some NON_MINER_OUTPUTS_UPPER_BOUND
  let outputs ← readVec (Output.read (!isMinerTx && version == 2)) maxOutputs
  -- Miner transactions have no limits on their size within the Monero protocol
  let maxExtra := if isMinerTx then none else some NON_MINER_SIZE_UPPER_BOUND
  let extra ← readVec readByte maxExtra
  pure { additionalTimelock, inputs, outputs, extra }

/-- `TransactionPrefix::read`. -/
def read (version : UInt64) : Read TransactionPrefix := do
  let additionalTimelock ← Timelock.read
  let inputs ← readVec Input.read (some INPUTS_UPPER_BOUND)
  match inputs with
  | [] => throw (.other "transaction had no inputs")
  | first :: _ => readAfterInputs version additionalTimelock inputs first.isGen

/-- `TransactionPrefix::hash`. -/
def hash (Γ : Ctx) (txPrefix : TransactionPrefix) (version : UInt64) : Bytes 32 :=
  Γ.keccak256 (VarInt.write version.toNat ++ txPrefix.write)

/-- The check `(inputs.len() == 1) && matches!(inputs[0], Input::Gen(_))`. -/
def isMiner (txPrefix : TransactionPrefix) : Bool :=
  match txPrefix.inputs with
  | [input] => input.isGen
  | _ => false

/-- The length of the ring of the first input. -/
def firstRingLength (txPrefix : TransactionPrefix) : ℕ :=
  match txPrefix.inputs with
  | .ToKey _ keyOffsets _ :: _ => keyOffsets.length
  | _ => 0

end TransactionPrefix

/-- `PotentiallyPruned`, with the two traits its types are bound by. -/
structure PotentiallyPruned where
  RingSignatures : Type
  RctProofs : Type
  /-- `RingSignatures::default`. -/
  defaultSignatures : RingSignatures
  signaturesToWrite : RingSignatures → List RingSignature
  readSignatures : List Input → Read RingSignatures
  potentiallyPrunedWrite : RctProofs → List UInt8
  potentiallyPrunedRead : (ringLength inputs outputs : ℕ) → Read (Option RctProofs)
  potentiallyPrunedRctType : RctProofs → RctType
  base : RctProofs → RctBase

/-- `<Vec<RingSignature> as PotentiallyPrunedRingSignatures>::read_signatures`. -/
def readSignatures : List Input → Read (List RingSignature)
  | [] => pure []
  | .ToKey _ keyOffsets _ :: inputs => do
    let signature ← RingSignature.read keyOffsets.length
    let signatures ← readSignatures inputs
    pure (signature :: signatures)
  | .Gen _ :: _ => throw (.other "reading signatures for a transaction with non-`ToKey` inputs")

/-- `NotPruned`: a transaction which isn't pruned. -/
def NotPruned : PotentiallyPruned where
  RingSignatures := List RingSignature
  RctProofs := RctProofs
  defaultSignatures := []
  signaturesToWrite := id
  readSignatures := readSignatures
  potentiallyPrunedWrite := RctProofs.write
  potentiallyPrunedRead := RctProofs.read
  potentiallyPrunedRctType := RctProofs.rctType
  base := RctProofs.base

/-- `<PrunedRctProofs as PotentiallyPrunedRctProofs>::potentially_pruned_read`. -/
def PrunedRctProofs.read (inputs outputs : ℕ) : Read (Option PrunedRctProofs) := do
  let base ← RctBase.read inputs outputs
  pure (base.map fun (rctType, base) => { rctType, base })

/-- `Pruned`: a transaction which is pruned. -/
def Pruned : PotentiallyPruned where
  RingSignatures := Unit
  RctProofs := PrunedRctProofs
  defaultSignatures := ()
  signaturesToWrite := fun _ => []
  readSignatures := fun _ => pure ()
  potentiallyPrunedWrite := fun proofs => proofs.base.write proofs.rctType
  potentiallyPrunedRead := fun _ => PrunedRctProofs.read
  potentiallyPrunedRctType := PrunedRctProofs.rctType
  base := PrunedRctProofs.base

/-- `Transaction`. -/
inductive Transaction (P : PotentiallyPruned) where
  | V1 (txPrefix : TransactionPrefix) (signatures : P.RingSignatures)
  | V2 (txPrefix : TransactionPrefix) (proofs : Option P.RctProofs)

/-- `PrunableHash`: the prunable data of a transaction, as its hash takes it. -/
inductive PrunableHash where
  | V1 (signatures : List RingSignature)
  | V2 (hash : Bytes 32)

namespace Transaction

variable {P : PotentiallyPruned}

/-- `Transaction::version`. -/
def version : Transaction P → UInt8
  | V1 .. => 1
  | V2 .. => 2

/-- `Transaction::prefix`. -/
def txPrefix : Transaction P → TransactionPrefix
  | V1 txPrefix _ | V2 txPrefix _ => txPrefix

/-- `Transaction::write`. -/
def write (tx : Transaction P) : List UInt8 :=
  VarInt.write tx.version.toNat ++
  match tx with
  | V1 txPrefix signatures => txPrefix.write ++ writeRawVec RingSignature.write (P.signaturesToWrite signatures)
  | V2 txPrefix none => txPrefix.write ++ [0]
  | V2 txPrefix (some proofs) => txPrefix.write ++ P.potentiallyPrunedWrite proofs

/-- The signatures of a version 1 transaction, which a miner transaction does not have. -/
def readV1Signatures (P : PotentiallyPruned) (txPrefix : TransactionPrefix) : Read P.RingSignatures :=
  if txPrefix.isMiner then pure P.defaultSignatures else P.readSignatures txPrefix.inputs

/-- `Transaction::read`. -/
def read (P : PotentiallyPruned) : Read (Transaction P) := do
  let version ← VarInt.readU64
  let txPrefix ← TransactionPrefix.read version
  if version = 1 then do
    let signatures ← readV1Signatures P txPrefix
    pure (V1 txPrefix signatures)
  else if version = 2 then do
    let proofs ← P.potentiallyPrunedRead txPrefix.firstRingLength txPrefix.inputs.length txPrefix.outputs.length
    pure (V2 txPrefix proofs)
  else throw (.other "tried to deserialize unknown version")

/-- `Transaction::hash_with_prunable_hash_internal`. Nothing is returned where the source panics, on prunable data of the other
version. -/
def hashWithPrunableHashInternal (Γ : Ctx) (tx : Transaction P) (prunable : PrunableHash) : Option (Bytes 32) :=
  match tx, prunable with
  | V1 txPrefix _, .V1 signatures =>
    some (Γ.keccak256 (VarInt.write tx.version.toNat ++ txPrefix.write ++ writeRawVec RingSignature.write signatures))
  | V2 txPrefix proofs, .V2 prunableHash =>
    let baseHash := match proofs with
      | some proofs => Γ.keccak256 ((P.base proofs).write (P.potentiallyPrunedRctType proofs))
      -- Serialization of RctBase::Null
      | none => Γ.keccak256 [0]
    some (Γ.keccak256 ((txPrefix.hash Γ 2).toList ++ baseHash.toList ++ prunableHash.toList))
  | _, _ => none

/-- `Transaction::prunable_hash`. -/
def prunableHash (Γ : Ctx) : Transaction NotPruned → Option (Bytes 32)
  | V1 .. => none
  | V2 _ (some proofs) => some (Γ.keccak256 (RctPrunable.write (RctProofs.prunable proofs) (RctProofs.rctType proofs)))
  | V2 _ none => some (Bytes.replicate 32 0)

theorem isSome_prunableHash (Γ : Ctx) (txPrefix : TransactionPrefix) (proofs : Option RctProofs) :
    ((V2 txPrefix proofs : Transaction NotPruned).prunableHash Γ).isSome := by cases proofs <;> rfl

/-- `Transaction::hash`. The prunable data is of the version of the transaction, so that no panic is reached. -/
def hash (Γ : Ctx) : Transaction NotPruned → Bytes 32
  | V1 txPrefix signatures =>
    ((V1 txPrefix signatures : Transaction NotPruned).hashWithPrunableHashInternal Γ (.V1 signatures)).get rfl
  | V2 txPrefix proofs =>
    ((V2 txPrefix proofs : Transaction NotPruned).hashWithPrunableHashInternal Γ
      (.V2 ((prunableHash Γ (V2 txPrefix proofs)).get (isSome_prunableHash Γ txPrefix proofs)))).get rfl

/-- `Transaction::signature_hash`: the hash which is signed. -/
def signatureHash (Γ : Ctx) (tx : Transaction NotPruned) : Option (Bytes 32) :=
  match tx with
  | V1 txPrefix _ => if txPrefix.isMiner then none else tx.hashWithPrunableHashInternal Γ (.V1 [])
  | V2 _ none => none
  | V2 _ (some proofs) =>
    tx.hashWithPrunableHashInternal Γ (.V2 (Γ.keccak256 (RctPrunable.signatureWrite (RctProofs.prunable proofs))))

/-- `Transaction::pruned_with_prunable`: the transaction without its prunable data, and that data. -/
def prunedWithPrunable : Transaction NotPruned → Transaction Pruned × List UInt8
  | V1 txPrefix signatures => (V1 txPrefix (), writeRawVec RingSignature.write signatures)
  | V2 txPrefix proofs =>
    let buf := match proofs with
      | none => []
      | some proofs => RctPrunable.write (RctProofs.prunable proofs) (RctProofs.rctType proofs)
    (V2 txPrefix (proofs.map fun proofs : RctProofs => { rctType := proofs.rctType, base := proofs.base }), buf)

/-- `Transaction::is_rct_bulletproof`. -/
def isRctBulletproof : Transaction NotPruned → Bool
  | V2 _ (some proofs) => (RctProofs.rctType proofs).bulletproof
  | _ => false

/-- `Transaction::is_rct_bulletproof_plus`. -/
def isRctBulletproofPlus : Transaction NotPruned → Bool
  | V2 _ (some proofs) => (RctProofs.rctType proofs).bulletproofPlus
  | _ => false

/-- `Transaction::weight`. -/
def weight (tx : Transaction NotPruned) : ℕ :=
  let blobSize := tx.write.length
  let bp := tx.isRctBulletproof
  let bpPlus := tx.isRctBulletproofPlus
  if !(bp || bpPlus) then blobSize
  else blobSize + (Bulletproof.calculateClawback bpPlus tx.txPrefix.outputs.length).1

/-- `Transaction::<Pruned>::hash_with_prunable_hash`. -/
def hashWithPrunableHash (Γ : Ctx) (tx : Transaction Pruned) (prunableHash : Bytes 32) : Option (Bytes 32) :=
  match tx with
  | V1 .. => none
  | V2 .. => tx.hashWithPrunableHashInternal Γ (.V2 prunableHash)

/-- `Transaction::<Pruned>::from(Transaction<NotPruned>)`. -/
def toPruned : Transaction NotPruned → Transaction Pruned
  | V1 txPrefix _ => V1 txPrefix ()
  | V2 txPrefix proofs =>
    V2 txPrefix (proofs.map fun proofs : RctProofs => { rctType := proofs.rctType, base := proofs.base })

end Transaction

/-! ## What the readers read -/

/-- The inputs that can be read: an amount of zero is read as no amount. -/
def Input.Readable : Input → Prop
  | Gen _ => True
  | ToKey amount keyOffsets _ => amount ≠ some 0 ∧ keyOffsets.length ≤ NON_MINER_SIZE_UPPER_BOUND

theorem lengthOk_some {bound n : ℕ} (h : bound < 2 ^ 64) : lengthOk (some bound) n ↔ n ≤ bound := by
  simp only [lengthOk, Option.some.injEq, forall_eq']
  omega

/-- Reading zero as no amount, the other way around. -/
theorem Input.ite_amount {a : UInt64} {amount : Option UInt64} :
    (if a = 0 then none else some a) = amount ↔ amount ≠ some 0 ∧ a = amount.getD 0 := by
  by_cases h : a = 0
  · cases amount with
    | none => simp [h]
    | some b =>
      simp only [h, if_true, ne_eq, Option.some.injEq, Option.getD_some, reduceCtorEq, false_iff, not_and]
      exact fun hb hb' => hb hb'.symm
  · cases amount with
    | none => simp [h]
    | some b =>
      simp only [h, if_false, ne_eq, Option.some.injEq, Option.getD_some]
      exact ⟨fun e => ⟨e ▸ h, e⟩, fun e => e.2⟩

theorem Input.reads_read : Reader.Reads Input.read Input.Readable Input.write := by
  have hoffsets := reads_readVec VarInt.reads_readU64 (some NON_MINER_SIZE_UPPER_BOUND)
  have hbound : NON_MINER_SIZE_UPPER_BOUND < 2 ^ 64 := by decide
  intro s input rest
  cases input with
  | Gen height => simp [Input.read, Input.Readable, Input.write]
  | ToKey amount keyOffsets keyImage =>
    simp [Input.read, Input.Readable, Input.write, hoffsets.iff, lengthOk_some hbound, ite_amount]
    constructor
    · rintro ⟨hs, hlen, hamount⟩
      exact ⟨⟨hamount, hlen⟩, hs⟩
    · rintro ⟨⟨hamount, hlen⟩, hs⟩
      exact ⟨hs, hlen, hamount⟩

/-- The outputs that can be read, where amounts are hidden and where they are not. -/
def Output.Readable (rct : Bool) (output : Output) : Prop := output.amount.isSome = !rct

theorem Output.reads_read (rct : Bool) : Reader.Reads (Output.read rct) (Output.Readable rct) Output.write := by
  have hkind : ∀ a : UInt8, ((¬a = 2 → a = 3) ∧ ¬a = 3) ↔ a = 2 := by
    intro a
    constructor
    · rintro ⟨h, h3⟩
      by_contra h2
      exact h3 (h h2)
    · rintro rfl
      decide
  rintro s ⟨amount, key, viewTag⟩ rest
  cases rct <;> cases amount <;> cases viewTag <;>
    simp [Output.read, Output.write, Output.Readable, CompressedPoint.write, hkind]

/-- The timelocks that can be read: no timelock, one of a block below the threshold, or a time from the threshold on. -/
def Timelock.Readable : Timelock → Prop
  | None => True
  | Block block => block ≠ 0 ∧ block < BLOCK_THRESHOLD
  | Time time => BLOCK_THRESHOLD ≤ time

/-- The number a timelock stands for. -/
def Timelock.raw : Timelock → UInt64
  | None => 0
  | Block block => block
  | Time time => time

theorem Timelock.ofRaw_eq {raw : UInt64} {timelock : Timelock} :
    ofRaw raw = timelock ↔ timelock.Readable ∧ timelock.raw = raw := by
  constructor
  · intro h
    unfold ofRaw at h
    split at h
    · next h0 => exact h ▸ ⟨trivial, h0.symm⟩
    · next h0 =>
      split at h
      · next hlt => exact h ▸ ⟨⟨h0, hlt⟩, rfl⟩
      · next hge => exact h ▸ ⟨UInt64.not_lt.1 hge, rfl⟩
  · rintro ⟨h, rfl⟩
    cases timelock with
    | None => rfl
    | Block block => rw [Timelock.raw, ofRaw, if_neg h.1, if_pos h.2]
    | Time time =>
      have h0 : time ≠ 0 := by
        rintro rfl
        exact absurd (show BLOCK_THRESHOLD ≤ 0 from h) (by decide)
      rw [Timelock.raw, ofRaw, if_neg h0, if_neg (UInt64.not_lt.2 h)]

theorem Timelock.reads_read : Reader.Reads Timelock.read Timelock.Readable Timelock.write := by
  refine VarInt.reads_readU64.map (g := Timelock.raw) (fun raw timelock => ?_) (fun timelock _ => ?_)
  · rw [true_and, ofRaw_eq]
  · cases timelock <;> rfl

/-- The signatures that can be read for the inputs: one for each input, all of which spend an output, with as many members as
the ring of the input. -/
inductive SignaturesReadable : List Input → List RingSignature → Prop
  | nil : SignaturesReadable [] []
  | cons {amount : Option UInt64} {keyOffsets : List UInt64} {keyImage : CompressedPoint} {inputs : List Input}
      {signature : RingSignature} {signatures : List RingSignature} (h : signature.sigs.length = keyOffsets.length)
      (hs : SignaturesReadable inputs signatures) :
      SignaturesReadable (.ToKey amount keyOffsets keyImage :: inputs) (signature :: signatures)

theorem reads_readSignatures (inputs : List Input) :
    Reader.Reads (readSignatures inputs) (SignaturesReadable inputs) (writeRawVec RingSignature.write) := by
  induction inputs with
  | nil =>
    intro s signatures rest
    simp only [readSignatures, Reader.pure_ok]
    constructor
    · rintro ⟨rfl, rfl⟩
      exact ⟨.nil, rfl⟩
    · rintro ⟨⟨⟩, rfl⟩
      exact ⟨rfl, rfl⟩
  | cons input inputs ih =>
    intro s signatures rest
    cases input with
    | Gen height =>
      simp only [readSignatures, Reader.throw_ok, false_iff]
      rintro ⟨⟨⟩, -⟩
    | ToKey amount keyOffsets keyImage =>
      simp only [readSignatures, Reader.bind_ok, Reader.pure_ok, (RingSignature.reads_read _).iff, ih.iff]
      constructor
      · rintro ⟨signature, t, ⟨h, rfl⟩, signatures, u, ⟨hs, rfl⟩, rfl, rfl⟩
        exact ⟨.cons h hs, by simp [writeRawVec]⟩
      · rintro ⟨hV, rfl⟩
        cases hV with
        | cons h hs => exact ⟨_, _, ⟨h, by simp only [writeRawVec, List.flatMap_cons, List.append_assoc]⟩, _, _, ⟨hs, rfl⟩, rfl, rfl⟩

/-- Whether the first input is that of a miner transaction. -/
def TransactionPrefix.firstIsGen (txPrefix : TransactionPrefix) : Bool := txPrefix.inputs.head?.any Input.isGen

/-- The prefixes that can be read in a transaction of a version. -/
@[mk_iff]
structure TransactionPrefix.Readable (version : UInt64) (txPrefix : TransactionPrefix) : Prop where
  additionalTimelock : txPrefix.additionalTimelock.Readable
  inputs_ne_nil : txPrefix.inputs ≠ []
  inputs_length : txPrefix.inputs.length ≤ INPUTS_UPPER_BOUND
  inputs : ∀ input ∈ txPrefix.inputs, input.Readable
  outputs_length :
    lengthOk (if txPrefix.firstIsGen then none else some NON_MINER_OUTPUTS_UPPER_BOUND) txPrefix.outputs.length
  outputs : ∀ output ∈ txPrefix.outputs, output.Readable (!txPrefix.firstIsGen && version == 2)
  extra : lengthOk (if txPrefix.firstIsGen then none else some NON_MINER_SIZE_UPPER_BOUND) txPrefix.extra.length

theorem reads_readByte : Reader.Reads readByte (fun _ => True) fun b => [b] := by
  intro s b rest
  simp

theorem TransactionPrefix.readAfterInputs_ok {version : UInt64} {timelock : Timelock} {inputs : List Input} {isMinerTx : Bool}
    {s rest : List UInt8} {txPrefix : TransactionPrefix} :
    readAfterInputs version timelock inputs isMinerTx s = .ok txPrefix rest ↔
      (txPrefix.additionalTimelock = timelock ∧ txPrefix.inputs = inputs) ∧
      (lengthOk (if isMinerTx then none else some NON_MINER_OUTPUTS_UPPER_BOUND) txPrefix.outputs.length ∧
        (∀ output ∈ txPrefix.outputs, output.Readable (!isMinerTx && version == 2)) ∧
        lengthOk (if isMinerTx then none else some NON_MINER_SIZE_UPPER_BOUND) txPrefix.extra.length) ∧
      s = writeVec Output.write txPrefix.outputs ++ VarInt.write txPrefix.extra.length ++ txPrefix.extra ++ rest := by
  obtain ⟨timelock', inputs', outputs, extra⟩ := txPrefix
  have hextra : writeVec (fun b => [b]) extra = VarInt.write extra.length ++ extra := by simp [writeVec, writeRawVec]
  simp [readAfterInputs, (reads_readVec (Output.reads_read _) _).iff, (reads_readVec reads_readByte _).iff, hextra]
  constructor
  · rintro ⟨⟨⟨hlen, houtputs⟩, hs⟩, hextra, htimelock, hinputs⟩
    exact ⟨⟨htimelock.symm, hinputs.symm⟩, ⟨hlen, houtputs, hextra⟩, hs⟩
  · rintro ⟨⟨htimelock, hinputs⟩, ⟨hlen, houtputs, hextra⟩, hs⟩
    exact ⟨⟨⟨hlen, houtputs⟩, hs⟩, hextra, htimelock.symm, hinputs.symm⟩

theorem TransactionPrefix.reads_read (version : UInt64) :
    Reader.Reads (TransactionPrefix.read version) (TransactionPrefix.Readable version) TransactionPrefix.write := by
  have hinputs := reads_readVec Input.reads_read (some INPUTS_UPPER_BOUND)
  have hbound : INPUTS_UPPER_BOUND < 2 ^ 64 := by decide
  intro s txPrefix rest
  simp only [TransactionPrefix.read, Reader.bind_ok, Timelock.reads_read.iff, hinputs.iff, lengthOk_some hbound]
  constructor
  · rintro ⟨timelock, t, ⟨htimelock, rfl⟩, inputs, u, ⟨⟨hlen, hinputs⟩, rfl⟩, h⟩
    cases inputs with
    | nil => simp at h
    | cons first inputs =>
      obtain ⟨⟨rfl, hin⟩, ⟨houtlen, houtputs, hextra⟩, rfl⟩ := readAfterInputs_ok.1 h
      have hfirst : txPrefix.firstIsGen = first.isGen := by simp [firstIsGen, hin]
      rw [← hin] at hlen hinputs ⊢
      refine ⟨⟨htimelock, by simp [hin], hlen, hinputs, ?_, ?_, ?_⟩, by simp [TransactionPrefix.write]⟩
      · rwa [hfirst]
      · rwa [hfirst]
      · rwa [hfirst]
  · rintro ⟨h, rfl⟩
    obtain ⟨first, inputs, hin⟩ := List.exists_cons_of_ne_nil h.inputs_ne_nil
    have hfirst : txPrefix.firstIsGen = first.isGen := by simp [firstIsGen, hin]
    have hwrite : txPrefix.write ++ rest = txPrefix.additionalTimelock.write ++ (writeVec Input.write txPrefix.inputs ++
        (writeVec Output.write txPrefix.outputs ++ VarInt.write txPrefix.extra.length ++ txPrefix.extra ++ rest)) := by
      simp only [TransactionPrefix.write, List.append_assoc]
    refine ⟨txPrefix.additionalTimelock, _, ⟨h.additionalTimelock, hwrite⟩, txPrefix.inputs, _,
      ⟨⟨h.inputs_length, h.inputs⟩, rfl⟩, ?_⟩
    simp only [hin]
    rw [readAfterInputs_ok, ← hfirst]
    exact ⟨⟨rfl, hin⟩, ⟨h.outputs_length, h.outputs, h.extra⟩, rfl⟩

/-- The proofs that can be read without the prunable part. -/
def PrunedRctProofs.Readable (inputs outputs : ℕ) (proofs : PrunedRctProofs) : Prop :=
  proofs.base.Readable proofs.rctType inputs outputs

theorem PrunedRctProofs.reads_read (inputs outputs : ℕ) :
    Reader.Reads (PrunedRctProofs.read inputs outputs) (fun proofs => ∀ p ∈ proofs, p.Readable inputs outputs)
      fun proofs => proofs.elim [0] fun p => p.base.write p.rctType := by
  intro s proofs rest
  simp only [PrunedRctProofs.read, Reader.bind_ok, Reader.pure_ok, (RctBase.reads_read inputs outputs).iff]
  constructor
  · rintro ⟨base, t, ⟨hbase, rfl⟩, rfl, rfl⟩
    cases base with
    | none => exact ⟨by simp, rfl⟩
    | some base =>
      refine ⟨?_, rfl⟩
      rintro p ⟨rfl⟩
      exact hbase
  · rintro ⟨hproofs, rfl⟩
    cases proofs with
    | none => exact ⟨none, rest, ⟨trivial, rfl⟩, rfl, rfl⟩
    | some proofs => exact ⟨some (proofs.rctType, proofs.base), rest, ⟨hproofs proofs rfl, rfl⟩, rfl, rfl⟩

/-- Reading no signatures reads nothing. -/
theorem reads_noSignatures : Reader.Reads (pure () : Read Unit) (fun _ => True) fun _ => [] := by
  intro s u rest
  simp

/-- What the readers of the two parts that may be pruned read. -/
structure PotentiallyPruned.Codec (P : PotentiallyPruned) where
  SignaturesReadable : List Input → P.RingSignatures → Prop
  ProofsReadable : (ringLength inputs outputs : ℕ) → P.RctProofs → Prop
  write_default : P.signaturesToWrite P.defaultSignatures = []
  reads_signatures : ∀ inputs, Reader.Reads (P.readSignatures inputs) (SignaturesReadable inputs)
    fun signatures => writeRawVec RingSignature.write (P.signaturesToWrite signatures)
  reads_proofs : ∀ ringLength inputs outputs, Reader.Reads (P.potentiallyPrunedRead ringLength inputs outputs)
    (fun proofs => ∀ p ∈ proofs, ProofsReadable ringLength inputs outputs p)
    fun proofs => proofs.elim [0] P.potentiallyPrunedWrite

/-- The parts of a transaction which isn't pruned. -/
def NotPruned.codec : NotPruned.Codec where
  SignaturesReadable := MoneroOxide.SignaturesReadable
  ProofsReadable := RctProofs.Readable
  write_default := rfl
  reads_signatures := reads_readSignatures
  reads_proofs := by
    intro ringLength inputs outputs
    refine (RctProofs.reads_read ringLength inputs outputs).congr (fun _ => Iff.rfl) ?_
    rintro (_ | proofs) - <;> rfl

/-- The parts of a pruned transaction. -/
def Pruned.codec : Pruned.Codec where
  SignaturesReadable := fun _ _ => True
  ProofsReadable := fun _ => PrunedRctProofs.Readable
  write_default := rfl
  reads_signatures := fun _ => reads_noSignatures
  reads_proofs := fun _ => PrunedRctProofs.reads_read

/-- The transactions that can be read. -/
def Transaction.Readable {P : PotentiallyPruned} (c : P.Codec) : Transaction P → Prop
  | V1 txPrefix signatures =>
    txPrefix.Readable 1 ∧
      if txPrefix.isMiner then signatures = P.defaultSignatures else c.SignaturesReadable txPrefix.inputs signatures
  | V2 txPrefix proofs =>
    txPrefix.Readable 2 ∧
      ∀ p ∈ proofs, c.ProofsReadable txPrefix.firstRingLength txPrefix.inputs.length txPrefix.outputs.length p

theorem Transaction.write_V2 {P : PotentiallyPruned} (txPrefix : TransactionPrefix) (proofs : Option P.RctProofs) :
    (V2 txPrefix proofs : Transaction P).write =
      VarInt.write 2 ++ (txPrefix.write ++ proofs.elim [0] P.potentiallyPrunedWrite) := by
  cases proofs <;> rfl

theorem Transaction.reads_readV1Signatures {P : PotentiallyPruned} (c : P.Codec) (txPrefix : TransactionPrefix) :
    Reader.Reads (readV1Signatures P txPrefix)
      (fun signatures =>
        if txPrefix.isMiner then signatures = P.defaultSignatures else c.SignaturesReadable txPrefix.inputs signatures)
      fun signatures => writeRawVec RingSignature.write (P.signaturesToWrite signatures) := by
  intro s signatures rest
  unfold readV1Signatures
  by_cases h : txPrefix.isMiner = true
  · simp only [if_pos h, Reader.pure_ok]
    constructor
    · rintro ⟨rfl, rfl⟩
      simp [c.write_default, writeRawVec]
    · rintro ⟨rfl, rfl⟩
      simp [c.write_default, writeRawVec]
  · simp only [if_neg h, (c.reads_signatures _).iff]

/-- `Transaction::read` reads exactly these, each from what `Transaction::write` writes for it. -/
theorem Transaction.reads_read {P : PotentiallyPruned} (c : P.Codec) :
    Reader.Reads (Transaction.read P) (Transaction.Readable c) Transaction.write := by
  intro s tx rest
  simp only [Transaction.read, Reader.bind_ok, VarInt.readU64_ok, (TransactionPrefix.reads_read _).iff, Reader.ite_ok,
    (Transaction.reads_readV1Signatures c _).iff, (c.reads_proofs _ _ _).iff, Reader.throw_ok, and_false, or_false,
    Reader.pure_ok]
  constructor
  · rintro ⟨version, t, rfl, txPrefix, u, ⟨hpre, rfl⟩, h⟩
    rcases h with ⟨rfl, signatures, v, ⟨hsigs, rfl⟩, rfl, rfl⟩ | ⟨-, rfl, proofs, v, ⟨hproofs, rfl⟩, rfl, rfl⟩
    · exact ⟨⟨hpre, hsigs⟩, by simp [Transaction.write, Transaction.version]⟩
    · exact ⟨⟨hpre, hproofs⟩, by simp [Transaction.write_V2]⟩
  · rintro ⟨h, rfl⟩
    cases tx with
    | V1 txPrefix signatures =>
      refine ⟨1, _, ?_, txPrefix, _, ⟨h.1, rfl⟩, Or.inl ⟨rfl, signatures, rest, ⟨h.2, rfl⟩, rfl, rfl⟩⟩
      simp [Transaction.write, Transaction.version]
    | V2 txPrefix proofs =>
      refine ⟨2, _, ?_, txPrefix, _, ⟨h.1, rfl⟩, Or.inr ⟨by decide, rfl, proofs, rest, ⟨h.2, rfl⟩, rfl, rfl⟩⟩
      simp [Transaction.write_V2]

end MoneroOxide
