import MoneroOxide.Clsag

/-!
# CLSAG multisig (`ringct/clsag/src/multisig.rs`)

The algorithm a FROST protocol runs to produce a CLSAG. FROST itself (`modular-frost`) and the transcript are not part of the
repository: a `ThresholdView` is what FROST gives a participant for a signing set, and a transcript is the list of the labelled
messages appended to it.
-/

namespace MoneroOxide

/-- `Participant`. -/
abbrev Participant : Type := UInt16

/-- `FrostError`, as far as the repository returns it, and the errors only FROST itself returns. -/
inductive FrostError where
  | InternalError (message : String)
  | InvalidSigningSet (message : String)
  | MissingParticipant (l : Participant)
  | ofFrost (message : String)
  deriving DecidableEq, Repr

/-- `RecommendedTranscript`: the labels and the messages appended so far. -/
abbrev Transcript : Type := List (List UInt8 × List UInt8)

namespace Transcript

/-- `Transcript::append_message`. -/
def appendMessage (transcript : Transcript) (label : String) (message : List UInt8) : Transcript :=
  transcript ++ [(ascii label, message)]

/-- `Transcript::domain_separate`. -/
def domainSeparate (transcript : Transcript) (label : String) : Transcript :=
  appendMessage transcript "domain-separator" (ascii label)

end Transcript

/-- `ThresholdView`: the keys of a participant for a signing set. -/
structure ThresholdView (Γ : Ctx) where
  groupKey : Γ.Point
  scalar : Scalar
  offset : Scalar
  interpolationFactor : Participant → Option Scalar
  verificationShare : Participant → Γ.Point
  secretShare : Scalar

/-- `ClsagContext::transcript`. -/
def ClsagContext.transcript {Γ : Ctx} (context : ClsagContext Γ) (transcript : Transcript) : Transcript :=
  context.decoys.ring.zipIdx.foldl
    (fun transcript pair =>
      ((transcript.appendMessage "member" [UInt8.ofNat pair.2]).appendMessage "key" (Γ.compress pair.1.1).toList).appendMessage
        "commitment" (Γ.compress pair.1.2).toList)
    (transcript.appendMessage "signer_index" [context.decoys.signerIndex])

/-- `ClsagAddendum`: a participant's share of the key image. -/
structure ClsagAddendum (Γ : Ctx) where
  keyImageShare : Γ.Point

/-- `Interim`: what is kept of signing for when the shares are in. -/
structure Interim (Γ : Ctx) where
  p : Scalar
  c : Scalar
  clsag : Clsag
  pseudoOut : Γ.Point

/-- `ClsagMultisig`. The receiver of the mask shares a buffer with its sender: `some none` is a receiver to which no mask was sent,
and `none` stands for the receiver having been used. -/
structure ClsagMultisig (Γ : Ctx) where
  transcript : Transcript
  keyImageGenerator : Γ.Point
  keyImageShares : Bytes 32 → Option Γ.Point
  image : Γ.Point
  context : ClsagContext Γ
  maskRecv : Option (Option Scalar)
  mask : Option Scalar
  msgHash : Option (Bytes 32)
  interim : Option (Interim Γ)

namespace ClsagMultisig

variable {Γ : Ctx}

/-- `ClsagMultisig::new`. -/
def new (transcript : Transcript) (context : ClsagContext Γ) : ClsagMultisig Γ where
  transcript := transcript
  keyImageGenerator := Point.biasedHash Γ (Γ.compress context.decoys.signerRingMembers.1)
  keyImageShares := fun _ => none
  image := 0
  context := context
  maskRecv := some none
  mask := none
  msgHash := none
  interim := none

/-- `ClsagMultisigMaskSender::send`. -/
def send (algorithm : ClsagMultisig Γ) (mask : Scalar) : ClsagMultisig Γ :=
  { algorithm with maskRecv := algorithm.maskRecv.map fun _ => some mask }

/-- `ClsagMultisig::nonces`: the generators a nonce is represented against. -/
def nonces (algorithm : ClsagMultisig Γ) : List (List Γ.Point) := [[Γ.G, algorithm.keyImageGenerator]]

/-- `ClsagMultisig::preprocess_addendum`. -/
def preprocessAddendum (algorithm : ClsagMultisig Γ) (originalSecretShare : Scalar) : ClsagAddendum Γ where
  keyImageShare := originalSecretShare • algorithm.keyImageGenerator

/-- A method of the algorithm. What it did to the algorithm stands when it fails. -/
abbrev Method (Γ : Ctx) (α : Type) : Type := EStateM (Failure FrostError) (ClsagMultisig Γ) α

/-- What `process_addendum` does the first time only: transcript the ring, fetch the mask and transcript it. It returns the offset,
which is to be applied to the first participant. -/
def receiveMask (view : ThresholdView Γ) (buf : Option Scalar) : Method Γ Scalar := do
  modify fun algorithm => { algorithm with
    maskRecv := none
    transcript := algorithm.context.transcript (algorithm.transcript.domainSeparate "CLSAG") }
  match buf with
  | none => throw (.error (.InternalError "CLSAG mask was not provided before process_addendum"))
  | some mask => do
    modify fun algorithm => { algorithm with
      mask := some mask
      transcript := algorithm.transcript.appendMessage "mask" mask.toBytes.toList }
    pure view.offset

/-- `ClsagMultisig::process_addendum`. -/
def processAddendum (view : ThresholdView Γ) (l : Participant) (addendum : ClsagAddendum Γ) : Method Γ Unit := do
  let algorithm ← get
  if view.groupKey ≠ algorithm.context.decoys.signerRingMembers.1 then
    throw (.error (.InternalError "CLSAG is being signed with a distinct key than intended"))
  else do
    let offset ← match algorithm.maskRecv with
      | some buf => receiveMask view buf
      | none => pure 0
    modify fun algorithm => { algorithm with
      transcript := (algorithm.transcript.appendMessage "participant" (leBytes 2 l.toNat).toList).appendMessage
        "key_image_share" (Γ.compress addendum.keyImageShare).toList }
    match view.interpolationFactor l with
    | none => throw (.error (.InternalError "processing addendum for non-participant"))
    | some interpolationFactor =>
      modify fun algorithm =>
        let share := view.scalar • interpolationFactor • addendum.keyImageShare + offset • algorithm.keyImageGenerator
        { algorithm with
          image := algorithm.image + share
          keyImageShares := Function.update algorithm.keyImageShares (Γ.compress (view.verificationShare l)) (some share) }

/-- `ClsagMultisig::sign_share`. The sums of the nonces are given over the two generators of `nonces`. -/
def signShare (view : ThresholdView Γ) (nonceSums : Γ.Point × Γ.Point) (nonce : Scalar) (msgHash : Bytes 32) :
    Method Γ Scalar := do
  let algorithm ← get
  let rng := Γ.chaCha20 (Γ.rngSeed (algorithm.transcript.appendMessage "rng_seed" (ascii "decoy_responses")))
  match algorithm.mask with
  | none => throw (.panic "mask wasn't set within process_addendum")
  | some mask =>
    let signCore :=
      (Clsag.signCore rng algorithm.image algorithm.context mask msgHash nonceSums.1 nonceSums.2).1
    set { algorithm with
      transcript := algorithm.transcript.appendMessage "rng_seed" (ascii "decoy_responses")
      msgHash := some msgHash
      interim := some { p := signCore.keyChallenge, c := signCore.challengedMask, clsag := signCore.incompleteClsag,
                        pseudoOut := signCore.pseudoOut } }
    -- r - p x, where p is the challenge for the keys
    pure (nonce - signCore.keyChallenge * view.secretShare)

/-- `ClsagMultisig::verify`: the signature the sum of the shares completes, if it verifies. -/
def verify (algorithm : ClsagMultisig Γ) (sum : Scalar) : Except (Failure FrostError) (Option (Clsag × Γ.Point)) :=
  match algorithm.interim, algorithm.msgHash with
  | some interim, some msgHash =>
    -- The shares are `r - p x`, yet the signature is `r - p x - c x`
    let clsag := { interim.clsag with
      s := Clsag.setSignerS interim.clsag.s algorithm.context.decoys.signerIndex (sum - interim.c) }
    let ring := algorithm.context.decoys.ring.map fun m => (Γ.compress m.1, Γ.compress m.2)
    match Clsag.verify Γ clsag ring (Γ.compress algorithm.image) (Γ.compress interim.pseudoOut) msgHash with
    | .ok () => .ok (some (clsag, interim.pseudoOut))
    | .error _ => .ok none
  | _, _ => .error (.panic "verify called before sign_share")

/-- What `verify_share` hashes for its weight: every variable relevant to it. -/
def weightTranscript (algorithm : ClsagMultisig Γ) (interim : Interim Γ) (verificationShare keyImageShare : Γ.Point)
    (nonces : Γ.Point × Γ.Point) (share : Scalar) : Transcript :=
  let transcript : Transcript := [(ascii "name", ascii "monero-oxide v0.1 ClsagMultisig::verify_share")]
  let transcript := transcript.appendMessage "G" (Γ.compress Γ.G).toList
  let transcript := transcript.appendMessage "H" (Γ.compress algorithm.keyImageGenerator).toList
  let transcript := transcript.appendMessage "xG" (Γ.compress verificationShare).toList
  let transcript := transcript.appendMessage "xH" (Γ.compress keyImageShare).toList
  let transcript := transcript.appendMessage "rG" (Γ.compress nonces.1).toList
  let transcript := transcript.appendMessage "rH" (Γ.compress nonces.2).toList
  let transcript := transcript.appendMessage "c" interim.p.toBytes.toList
  transcript.appendMessage "s" share.toBytes.toList

/-- The scalars and the points `verify_share` returns: those for the key, and weighted those for the key image. -/
def shareStatements (algorithm : ClsagMultisig Γ) (interim : Interim Γ) (verificationShare keyImageShare : Γ.Point)
    (nonces : Γ.Point × Γ.Point) (share weight : Scalar) : List (Scalar × Γ.Point) :=
  let partOne := [(share, Γ.G), (-1, nonces.1), (interim.p, verificationShare)]
  let partTwo := [(weight * share, algorithm.keyImageGenerator), (-weight, nonces.2), (weight * interim.p, keyImageShare)]
  partOne ++ partTwo

/-- `ClsagMultisig::verify_share`: what adds up to the identity if the share is right. `challenge` is
`RecommendedTranscript::challenge`, of all that was appended to the transcript. -/
def verifyShare (challenge : Transcript → Bytes 64) (algorithm : ClsagMultisig Γ) (verificationShare : Γ.Point)
    (nonces : Γ.Point × Γ.Point) (share : Scalar) : Except (Failure FrostError) (List (Scalar × Γ.Point)) :=
  match algorithm.interim with
  | none => .error (.panic "verify_share called before sign_share")
  | some interim =>
    match algorithm.keyImageShares (Γ.compress verificationShare) with
    | none => .error (.panic "no entry found for key")
    | some keyImageShare =>
      let transcript := weightTranscript algorithm interim verificationShare keyImageShare nonces share
      let weight := Scalar.fromBytesModOrder (challenge (transcript.appendMessage "challenge" (ascii "weight")))
      .ok (shareStatements algorithm interim verificationShare keyImageShare nonces share weight)

end ClsagMultisig

end MoneroOxide
