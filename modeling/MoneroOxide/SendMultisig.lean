import MoneroOxide.ClsagMultisig
import MoneroOxide.Send

/-!
# Signing a transaction with a multisig (`wallet/src/send/multisig.rs`)

FROST (`modular-frost`) is not part of the repository: `Frost` is what the code uses of it. The machines of FROST hold the
algorithm, to which the sender of a mask still gives the mask after the first round; what else they hold is FROST's. The map of
the participants' messages is a list of pairs, in the order it is iterated over, with each participant once.
-/

namespace MoneroOxide

/-- `RecommendedTranscript::new`. -/
def Transcript.new (name : String) : Transcript := [(ascii "name", ascii name)]

/-- `HashMap<Participant, T>`. -/
structure ParticipantMap (α : Type) where
  entries : List (Participant × α)
  nodup : (entries.map Prod.fst).Nodup

namespace ParticipantMap

variable {α β : Type}

/-- `HashMap::keys`. -/
def keys (map : ParticipantMap α) : List Participant := map.entries.map Prod.fst

/-- `HashMap::get`. -/
def get (map : ParticipantMap α) (l : Participant) : Option α := map.entries.lookup l

/-- `HashMap::remove`. -/
def remove (map : ParticipantMap α) (l : Participant) : ParticipantMap α where
  entries := map.entries.filter fun entry => entry.1 ≠ l
  nodup := map.nodup.sublist (List.filter_sublist.map Prod.fst)

end ParticipantMap

/-- What is used of `modular-frost`. -/
structure Frost (Γ : Ctx) where
  /-- `ThresholdKeys<Ed25519>`. -/
  ThresholdKeys : Type
  /-- `ThresholdKeys::scale`. -/
  scale : ThresholdKeys → Scalar → Option ThresholdKeys
  /-- `ThresholdKeys::offset`. -/
  offset : ThresholdKeys → Scalar → ThresholdKeys
  /-- `ThresholdKeys::group_key`. -/
  groupKey : ThresholdKeys → Γ.Point
  /-- `ThresholdKeys::current_scalar`. -/
  currentScalar : ThresholdKeys → Scalar
  /-- `ThresholdKeys::current_offset`. -/
  currentOffset : ThresholdKeys → Scalar
  /-- `ThresholdKeys::params().i()`. -/
  i : ThresholdKeys → Participant
  /-- `ThresholdKeys::view`, which fails for a signing set which is not one. -/
  view : ThresholdKeys → List Participant → Option (ThresholdView Γ)
  /-- `Preprocess<Ed25519, ClsagAddendum>`. -/
  Preprocess : Type
  /-- The addendum of a preprocess. -/
  addendum : Preprocess → ClsagAddendum Γ
  /-- What a machine keeps of the first round. -/
  Nonces : Type
  /-- `AlgorithmMachine::preprocess`. -/
  preprocess : ThresholdKeys → ClsagMultisig Γ → Rng → (Nonces × Preprocess) × Rng
  /-- `SignatureShare<Ed25519>`. -/
  SignatureShare : Type
  /-- What a machine keeps of the second round. -/
  Signing : Type
  /-- `AlgorithmSignMachine::sign`, of the machine's algorithm, keys and nonces and its own preprocess: the algorithm after it, what
  is kept, and the share. -/
  sign : ClsagMultisig Γ → ThresholdKeys → Nonces → Preprocess → List (Participant × Preprocess) → Bytes 32 →
    Except (Failure FrostError) (ClsagMultisig Γ × Signing × SignatureShare)
  /-- `AlgorithmSignatureMachine::complete`, of the machine's algorithm and what was kept. -/
  complete : ClsagMultisig Γ → Signing → List (Participant × SignatureShare) → Except (Failure FrostError) (Clsag × Γ.Point)

/-- `AlgorithmMachine<Ed25519, ClsagMultisig>`. -/
structure AlgorithmMachine {Γ : Ctx} (F : Frost Γ) where
  algorithm : ClsagMultisig Γ
  keys : F.ThresholdKeys

/-- `AlgorithmSignMachine<Ed25519, ClsagMultisig>`. -/
structure AlgorithmSignMachine {Γ : Ctx} (F : Frost Γ) where
  algorithm : ClsagMultisig Γ
  keys : F.ThresholdKeys
  nonces : F.Nonces
  preprocess : F.Preprocess

/-- `AlgorithmSignatureMachine<Ed25519, ClsagMultisig>`. -/
structure AlgorithmSignatureMachine {Γ : Ctx} (F : Frost Γ) where
  algorithm : ClsagMultisig Γ
  signing : F.Signing

/-- `TransactionMachine`. The sender of a mask is the algorithm it sends to. -/
structure TransactionMachine {Γ : Ctx} (F : Frost Γ) where
  signable : SignableTransaction Γ
  keys : F.ThresholdKeys
  keyImageGeneratorsAndLincombs : List (Γ.Point × Scalar × Scalar)
  clsags : List (AlgorithmMachine F)

/-- `TransactionSignMachine`. -/
structure TransactionSignMachine {Γ : Ctx} (F : Frost Γ) where
  signable : SignableTransaction Γ
  keys : F.ThresholdKeys
  keyImageGeneratorsAndLincombs : List (Γ.Point × Scalar × Scalar)
  clsags : List (AlgorithmSignMachine F)
  ourPreprocess : List F.Preprocess

/-- `TransactionSignatureMachine`. -/
structure TransactionSignatureMachine {Γ : Ctx} (F : Frost Γ) where
  tx : Transaction NotPruned
  clsags : List (AlgorithmSignatureMachine F)

namespace SignableTransaction

variable {Γ : Ctx}

/-- What `SignableTransaction::multisig` makes for an input. -/
def multisigInput (F : Frost Γ) (keys : F.ThresholdKeys) (input : OutputWithDecoys Γ) :
    Send ((Γ.Point × Scalar × Scalar) × AlgorithmMachine F) :=
  match F.scale keys 1 with
  | none => .error (.panic "non-zero scalar (1) was zero")
  | some scaled =>
    let offset := F.offset scaled input.keyOffset
    if F.groupKey offset ≠ input.key then .error (.error .WrongPrivateKey)
    else match ClsagContext.new input.decoys input.commitment with
      | .error e => .error (.error (.ClsagError e))
      | .ok context =>
        let clsag := ClsagMultisig.new (Transcript.new "Monero Multisignature Transaction") context
        .ok ((clsag.keyImageGenerator, F.currentScalar offset, F.currentOffset offset), { algorithm := clsag, keys := offset })

/-- `SignableTransaction::multisig`. -/
def multisig (F : Frost Γ) (t : SignableTransaction Γ) (keys : F.ThresholdKeys) : Send (TransactionMachine F) := do
  let inputs ← t.inputs.mapM (multisigInput F keys)
  pure { signable := t, keys, keyImageGeneratorsAndLincombs := inputs.map Prod.fst, clsags := inputs.map Prod.snd }

end SignableTransaction

section

variable {Γ : Ctx} {F : Frost Γ}

/-- The loop over the machines of `TransactionMachine::preprocess`. -/
def preprocessAll : List (AlgorithmMachine F) → Rng → List (AlgorithmSignMachine F) × Rng
  | [], rng => ([], rng)
  | clsag :: clsags, rng =>
    let ((nonces, preprocess), rng) := F.preprocess clsag.keys clsag.algorithm rng
    let (rest, rng) := preprocessAll clsags rng
    ({ algorithm := clsag.algorithm, keys := clsag.keys, nonces, preprocess } :: rest, rng)

/-- `TransactionMachine::preprocess`. -/
def TransactionMachine.preprocess (machine : TransactionMachine F) (rng : Rng) :
    (TransactionSignMachine F × List F.Preprocess) × Rng :=
  let (clsags, rng) := preprocessAll machine.clsags rng
  let preprocesses := clsags.map AlgorithmSignMachine.preprocess
  (({ signable := machine.signable, keys := machine.keys,
      keyImageGeneratorsAndLincombs := machine.keyImageGeneratorsAndLincombs, clsags, ourPreprocess := preprocesses },
    preprocesses), rng)

/-- What can panic within making a transaction, but not fail. -/
def expectOk {α : Type} : Send α → Except (Failure FrostError) α
  | .ok a => .ok a
  | .error (.panic message) => .error (.panic message)
  | .error (.error e) => .error (.panic e.display)

namespace TransactionSignMachine

/-- The preprocess of a participant for the `c`-th machine. -/
def preprocessOf (machine : TransactionSignMachine F) (commitments : ParticipantMap (List F.Preprocess)) (c : ℕ) (l : Participant) :
    Except (Failure FrostError) F.Preprocess :=
  if l = F.i machine.keys then
    match machine.ourPreprocess[c]? with
    | some preprocess => .ok preprocess
    | none => .error (.panic "index out of bounds")
  else match commitments.get l with
    | none => .error (.error (.MissingParticipant l))
    | some preprocesses => match preprocesses[c]? with
      | some preprocess => .ok preprocess
      | none => .error (.panic "index out of bounds")

/-- The loop over the participants for the `c`-th machine: what their shares of the key image interpolate to, added to the image
so far, and their preprocesses. -/
def gather (machine : TransactionSignMachine F) (commitments : ParticipantMap (List F.Preprocess))
    (view : ThresholdView Γ) (c : ℕ) :
    List Participant → Γ.Point → Except (Failure FrostError) (Γ.Point × List (Participant × F.Preprocess))
  | [], image => .ok (image, [])
  | l :: ls, image => do
    let preprocess ← machine.preprocessOf commitments c l
    match view.interpolationFactor l with
    | none => .error (.error (.InternalError "view successfully formed with participant without an interpolation factor"))
    | some factor => do
      let (image, rest) ← machine.gather commitments view c ls (image + factor • (F.addendum preprocess).keyImageShare)
      .ok (image, (l, preprocess) :: rest)

/-- The key image of an input, of what the shares interpolate to and the linear combination the key is. -/
def finishImage (image : Γ.Point) (lincomb : Γ.Point × Scalar × Scalar) : CompressedPoint :=
  Γ.compress (lincomb.2.1 • image + lincomb.2.2 • lincomb.1)

/-- The loop which decides the masks and sends them. The last is what the others leave of the sum. -/
def sendMasks {α : Type} (outputMasks : Scalar) : List (AlgorithmSignMachine F × α) → Scalar → Rng →
    List (AlgorithmSignMachine F × α)
  | [], _, _ => []
  | (clsag, commitments) :: clsags, sumPseudoOuts, rng =>
    let (mask, rng) := Scalar.random rng
    let mask' := if clsags.isEmpty then outputMasks - sumPseudoOuts else mask
    ({ clsag with algorithm := clsag.algorithm.send mask' }, commitments) :: sendMasks outputMasks clsags (sumPseudoOuts + mask) rng

/-- The included participants, sorted. -/
def includedOf (machine : TransactionSignMachine F) (commitments : ParticipantMap (List F.Preprocess)) : List Participant :=
  (commitments.keys ++ [F.i machine.keys]).mergeSort fun a b => a ≤ b

/-- The key images of the inputs, and the preprocesses of the other participants for each machine. -/
def imagesAndCommitments (machine : TransactionSignMachine F) (commitments : ParticipantMap (List F.Preprocess)) :
    Except (Failure FrostError) (List (CompressedPoint × List (Participant × F.Preprocess))) := do
  let included := machine.includedOf commitments
  let view ← match F.view machine.keys included with
    | some view => .ok view
    | none => .error (.error (.InvalidSigningSet "couldn't form an interpolated view of the key"))
  let gathered ← (List.range machine.clsags.length).mapM fun c => machine.gather commitments view c included 0
  pure ((gathered.zip machine.keyImageGeneratorsAndLincombs).map fun pair =>
    (finishImage pair.1.1 pair.2, pair.1.2.filter fun entry => entry.1 ≠ F.i machine.keys))

/-- Sign with one machine. -/
def signOne (msg : Bytes 32) (pair : AlgorithmSignMachine F × List (Participant × F.Preprocess)) :
    Except (Failure FrostError) (AlgorithmSignatureMachine F × F.SignatureShare) := do
  let (algorithm, signing, share) ← F.sign pair.1.algorithm pair.1.keys pair.1.nonces pair.1.preprocess pair.2 msg
  pure ({ algorithm, signing }, share)

/-- What `TransactionSignMachine::sign` does once it has the key images. -/
def signWith (machine : TransactionSignMachine F) (images : List (CompressedPoint × List (Participant × F.Preprocess))) :
    Except (Failure FrostError) (TransactionSignatureMachine F × List F.SignatureShare) := do
  let keyImages := images.map Prod.fst
  -- The inputs will be sorted by key image, and so are the machines
  let clsags := (Sorting.sortBy keyImageSort Prod.fst (keyImages.zip (machine.clsags.zip (images.map Prod.snd)))).map Prod.snd
  let tx := machine.signable.withKeyImages keyImages
  let outputMasks ← expectOk (tx.intent.sumOutputMasks tx.keyImages)
  let toSign := sendMasks outputMasks clsags 0 (tx.intent.seededRng "multisig_pseudo_out_masks")
  let tx ← expectOk tx.transactionWithoutSignatures
  match tx.signatureHash Γ with
  | none => .error (.panic "signing a transaction which isn't signed?")
  | some msg => do
    let signed ← toSign.mapM (signOne msg)
    pure ({ tx, clsags := signed.map Prod.fst }, signed.map Prod.snd)

/-- `TransactionSignMachine::sign`. -/
def sign (machine : TransactionSignMachine F) (commitments : ParticipantMap (List F.Preprocess)) (msg : List UInt8) :
    Except (Failure FrostError) (TransactionSignatureMachine F × List F.SignatureShare) :=
  if msg ≠ [] then .error (.panic "message was passed to the TransactionMachine when it generates its own")
  else if ∃ entry ∈ commitments.entries, entry.2.length ≠ machine.clsags.length then
    .error (.error (.InternalError "preprocesses from another instance of the signing protocol were passed in"))
  else do
    -- This participant is not included twice, if it was redundantly included
    let commitments := commitments.remove (F.i machine.keys)
    let images ← machine.imagesAndCommitments commitments
    machine.signWith images

end TransactionSignMachine

namespace TransactionSignatureMachine

/-- Complete the signature of the `c`-th machine. -/
def completeOne (shares : ParticipantMap (List F.SignatureShare)) (c : ℕ) (clsag : AlgorithmSignatureMachine F) :
    Except (Failure FrostError) (Clsag × CompressedPoint) := do
  let shares ← shares.entries.mapM fun entry => match entry.2[c]? with
    | some share => .ok (entry.1, share)
    | none => .error (.panic "index out of bounds")
  let (clsag, pseudoOut) ← F.complete clsag.algorithm clsag.signing shares
  pure (clsag, Γ.compress pseudoOut)

/-- `TransactionSignatureMachine::complete`. -/
def complete (machine : TransactionSignatureMachine F) (shares : ParticipantMap (List F.SignatureShare)) :
    Except (Failure FrostError) (Transaction NotPruned) :=
  if ∃ entry ∈ shares.entries, entry.2.length ≠ machine.clsags.length then
    .error (.error (.InternalError "signature shares from another instance of the signing protocol were passed in"))
  else do
    let signatures ← machine.clsags.zipIdx.mapM fun pair => completeOne shares pair.2 pair.1
    expectOk (SignableTransaction.fillIn
      "internal error: entered unreachable code: attempted to sign a multisig TX which wasn't CLSAG" machine.tx signatures)

end TransactionSignatureMachine

end

end MoneroOxide
