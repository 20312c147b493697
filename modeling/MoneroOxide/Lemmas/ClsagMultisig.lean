import MoneroOxide.ClsagMultisig
import MoneroOxide.Lemmas.Clsag
import MoneroOxide.Lib.Call

/-!
# What the steps of CLSAG multisig do

`process_addendum` as one function on the algorithm: on the first addendum the mask is received and the offset applied
(`processAddendum_first`), on a later one neither is (`processAddendum_later`). By induction over what FROST does to the algorithm
before shares are signed, the image is the sum of the interpolated shares and the offset once (`run_spec`), whatever the addenda.
-/

namespace MoneroOxide

namespace ClsagMultisig

variable {Γ : Ctx}

/-- The algorithm once it has received the mask. -/
def received (mask : Scalar) (algorithm : ClsagMultisig Γ) : ClsagMultisig Γ :=
  { algorithm with
    maskRecv := none
    mask := some mask
    transcript := (algorithm.context.transcript (algorithm.transcript.domainSeparate "CLSAG")).appendMessage "mask"
      mask.toBytes.toList }

/-- The algorithm once it has processed an addendum, where the offset is given. -/
def accumulated (view : ThresholdView Γ) (l : Participant) (factor offset : Scalar) (addendum : ClsagAddendum Γ)
    (algorithm : ClsagMultisig Γ) : ClsagMultisig Γ :=
  let share := view.scalar • factor • addendum.keyImageShare + offset • algorithm.keyImageGenerator
  { algorithm with
    transcript := (algorithm.transcript.appendMessage "participant" (leBytes 2 l.toNat).toList).appendMessage
      "key_image_share" (Γ.compress addendum.keyImageShare).toList
    image := algorithm.image + share
    keyImageShares := Function.update algorithm.keyImageShares (Γ.compress (view.verificationShare l)) (some share) }

section

variable {view : ThresholdView Γ} {l : Participant} {addendum : ClsagAddendum Γ} {algorithm : ClsagMultisig Γ} {factor : Scalar}
  (hkey : view.groupKey = algorithm.context.decoys.signerRingMembers.1) (hfactor : view.interpolationFactor l = some factor)

include hkey hfactor

/-- The first addendum: the mask is received, and the offset applied. -/
theorem processAddendum_first {mask : Scalar} (hrecv : algorithm.maskRecv = some (some mask)) :
    processAddendum view l addendum algorithm =
      .ok () (accumulated view l factor view.offset addendum (received mask algorithm)) := by
  simp only [processAddendum, Call.get_bind, Call.modify_bind, hkey, ne_eq, not_true_eq_false, if_false, hrecv, receiveMask,
    bind_assoc, pure_bind, hfactor]
  rfl

/-- A later addendum. -/
theorem processAddendum_later (hrecv : algorithm.maskRecv = none) :
    processAddendum view l addendum algorithm = .ok () (accumulated view l factor 0 addendum algorithm) := by
  simp only [processAddendum, Call.get_bind, Call.modify_bind, hkey, ne_eq, not_true_eq_false, if_false, hrecv, pure_bind, hfactor]
  rw [← hrecv]
  rfl

end

/-- What FROST does to the algorithm of a participant before its share is signed: it appends to the transcript, and processes
addenda. -/
inductive Event (Γ : Ctx) where
  | append (label message : List UInt8)
  | addendum (l : Participant) (addendum : ClsagAddendum Γ)

/-- The addenda which are processed, in order. -/
def addenda : List (Event Γ) → List (Participant × ClsagAddendum Γ)
  | [] => []
  | .append _ _ :: events => addenda events
  | .addendum l addendum :: events => (l, addendum) :: addenda events

/-- One event. -/
def step (view : ThresholdView Γ) : Event Γ → Method Γ Unit
  | .append label message => modify fun algorithm => { algorithm with transcript := algorithm.transcript ++ [(label, message)] }
  | .addendum l addendum => processAddendum view l addendum

/-- The events of a participant, in order. -/
def run (view : ThresholdView Γ) : List (Event Γ) → Method Γ Unit
  | [] => pure ()
  | event :: events => do
    step view event
    run view events

theorem run_cons {view : ThresholdView Γ} {event : Event Γ} {events : List (Event Γ)} {algorithm algorithm' : ClsagMultisig Γ}
    (h : step view event algorithm = .ok () algorithm') : run view (event :: events) algorithm = run view events algorithm' := by
  rw [run]
  show EStateM.bind (step view event) (fun _ => run view events) algorithm = _
  rw [EStateM.bind, h]

/-- The interpolated share of the image of a participant, without the offset. -/
def interpolated (view : ThresholdView Γ) (pair : Participant × ClsagAddendum Γ) : Γ.Point :=
  view.scalar • ((view.interpolationFactor pair.1).getD 0) • pair.2.keyImageShare

/-- The sum of the interpolated shares of the image. -/
def interpolatedSum (view : ThresholdView Γ) (events : List (Event Γ)) : Γ.Point :=
  ((addenda events).map (interpolated view)).sum

theorem interpolatedSum_addendum (view : ThresholdView Γ) (l : Participant) (addendum : ClsagAddendum Γ) (events : List (Event Γ)) :
    interpolatedSum view (.addendum l addendum :: events) = interpolated view (l, addendum) + interpolatedSum view events :=
  List.sum_cons

/-- What an algorithm keeps while addenda are processed, once it has the mask. -/
structure Holds (context : ClsagContext Γ) (generator : Γ.Point) (mask : Scalar) (image : Γ.Point) (algorithm : ClsagMultisig Γ) :
    Prop where
  context_eq : algorithm.context = context
  generator_eq : algorithm.keyImageGenerator = generator
  maskRecv_eq : algorithm.maskRecv = none
  mask_eq : algorithm.mask = some mask
  image_eq : algorithm.image = image

section

variable {view : ThresholdView Γ} {context : ClsagContext Γ} {generator image : Γ.Point} {mask : Scalar}
  (hkey : view.groupKey = context.decoys.signerRingMembers.1)

include hkey

/-- The events after the first addendum add the interpolated shares to the image. -/
theorem run_later (events : List (Event Γ)) (hfactor : ∀ pair ∈ addenda events, (view.interpolationFactor pair.1).isSome)
    {algorithm : ClsagMultisig Γ} (h : Holds context generator mask image algorithm) :
    ∃ algorithm', run view events algorithm = .ok () algorithm' ∧
      Holds context generator mask (image + interpolatedSum view events) algorithm' := by
  induction events generalizing algorithm image with
  | nil =>
    refine ⟨algorithm, rfl, ?_⟩
    simpa [interpolatedSum, addenda] using h
  | cons event events ih =>
    cases event with
    | append label message =>
      exact ih hfactor { h with }
    | addendum l addendum =>
      obtain ⟨factor, hl⟩ := Option.isSome_iff_exists.1 (hfactor (l, addendum) List.mem_cons_self)
      have hstep : step view (.addendum l addendum) algorithm = .ok () (accumulated view l factor 0 addendum algorithm) :=
        processAddendum_later (h.context_eq ▸ hkey) hl h.maskRecv_eq
      have hnext : Holds context generator mask (image + interpolated view (l, addendum))
          (accumulated view l factor 0 addendum algorithm) := by
        refine { h with image_eq := ?_ }
        show algorithm.image + (view.scalar • factor • addendum.keyImageShare + (0 : Scalar) • algorithm.keyImageGenerator) = _
        rw [h.image_eq, Scalar.zero_smul, add_zero, interpolated, hl, Option.getD_some]
      obtain ⟨algorithm', hrun, hholds⟩ := ih (fun pair hpair => hfactor pair (List.mem_cons_of_mem _ hpair)) hnext
      refine ⟨algorithm', (run_cons hstep).trans hrun, ?_⟩
      have hsum : image + interpolatedSum view (.addendum l addendum :: events) =
          image + interpolated view (l, addendum) + interpolatedSum view events := by
        rw [interpolatedSum_addendum, add_assoc]
      rw [hsum]
      exact hholds

/-- The events of a participant to which the mask was sent: the image is the sum of the interpolated shares, and the offset. -/
theorem run_spec (events : List (Event Γ)) (hne : addenda events ≠ [])
    (hfactor : ∀ pair ∈ addenda events, (view.interpolationFactor pair.1).isSome) {algorithm : ClsagMultisig Γ}
    (hcontext : algorithm.context = context) (hgenerator : algorithm.keyImageGenerator = generator)
    (hrecv : algorithm.maskRecv = some (some mask)) (himage : algorithm.image = 0) :
    ∃ algorithm', run view events algorithm = .ok () algorithm' ∧
      Holds context generator mask (view.offset • generator + interpolatedSum view events) algorithm' := by
  induction events generalizing algorithm with
  | nil => exact absurd rfl hne
  | cons event events ih =>
    cases event with
    | append label message => exact ih hne hfactor hcontext hgenerator hrecv himage
    | addendum l addendum =>
      obtain ⟨factor, hl⟩ := Option.isSome_iff_exists.1 (hfactor (l, addendum) List.mem_cons_self)
      have hstep : step view (.addendum l addendum) algorithm =
          .ok () (accumulated view l factor view.offset addendum (received mask algorithm)) :=
        processAddendum_first (hcontext ▸ hkey) hl hrecv
      have hnext : Holds context generator mask (view.offset • generator + interpolated view (l, addendum))
          (accumulated view l factor view.offset addendum (received mask algorithm)) := by
        refine { context_eq := hcontext, generator_eq := hgenerator, maskRecv_eq := rfl, mask_eq := rfl, image_eq := ?_ }
        show algorithm.image + (view.scalar • factor • addendum.keyImageShare + view.offset • algorithm.keyImageGenerator) = _
        rw [himage, zero_add, hgenerator, interpolated, hl, Option.getD_some, add_comm]
      obtain ⟨algorithm', hrun, hholds⟩ := run_later hkey events
        (fun pair hpair => hfactor pair (List.mem_cons_of_mem _ hpair)) hnext
      refine ⟨algorithm', (run_cons hstep).trans hrun, ?_⟩
      have hsum : view.offset • generator + interpolatedSum view (.addendum l addendum :: events) =
          view.offset • generator + interpolated view (l, addendum) + interpolatedSum view events := by
        rw [interpolatedSum_addendum, add_assoc]
      rw [hsum]
      exact hholds

end

/-- An addendum is processed for the key of the ring only, and for a participant with an interpolation factor. -/
theorem of_processAddendum {view : ThresholdView Γ} {l : Participant} {addendum : ClsagAddendum Γ}
    {algorithm algorithm' : ClsagMultisig Γ} {u : Unit} (h : processAddendum view l addendum algorithm = .ok u algorithm') :
    view.groupKey = algorithm.context.decoys.signerRingMembers.1 ∧ (view.interpolationFactor l).isSome ∧
      algorithm'.context = algorithm.context := by
  by_cases hkey : view.groupKey = algorithm.context.decoys.signerRingMembers.1
  · cases hrecv : algorithm.maskRecv with
    | none =>
      cases hfactor : view.interpolationFactor l with
      | none =>
        simp only [processAddendum, Call.get_bind, Call.modify_bind, hkey, ne_eq, not_true_eq_false, if_false, hrecv, pure_bind,
          hfactor] at h
        cases h
      | some factor =>
        rw [processAddendum_later hkey hfactor hrecv] at h
        cases h
        exact ⟨hkey, rfl, rfl⟩
    | some buf =>
      cases buf with
      | none =>
        simp only [processAddendum, Call.get_bind, hkey, ne_eq, not_true_eq_false, if_false, hrecv, receiveMask] at h
        cases h
      | some mask =>
        cases hfactor : view.interpolationFactor l with
        | none =>
          simp only [processAddendum, Call.get_bind, Call.modify_bind, hkey, ne_eq, not_true_eq_false, if_false, hrecv, receiveMask,
            bind_assoc, pure_bind, hfactor] at h
          cases h
        | some factor =>
          rw [processAddendum_first hkey hfactor hrecv] at h
          cases h
          exact ⟨hkey, rfl, rfl⟩
  · simp only [processAddendum, Call.get_bind, ne_eq, hkey, not_false_eq_true, if_true] at h
    cases h

/-- Addenda are processed for the key of the ring only, and for participants with interpolation factors. -/
theorem of_run {view : ThresholdView Γ} {events : List (Event Γ)} {algorithm algorithm' : ClsagMultisig Γ} {u : Unit}
    (h : run view events algorithm = .ok u algorithm') :
    ∀ pair ∈ addenda events,
      view.groupKey = algorithm.context.decoys.signerRingMembers.1 ∧ (view.interpolationFactor pair.1).isSome := by
  induction events generalizing algorithm with
  | nil => exact fun pair hpair => absurd hpair List.not_mem_nil
  | cons event events ih =>
    cases event with
    | append label message =>
      have hstep : step view (.append label message) algorithm =
          .ok () { algorithm with transcript := algorithm.transcript ++ [(label, message)] } := rfl
      rw [run_cons hstep] at h
      have hrest := ih h
      exact hrest
    | addendum l addendum =>
      cases hstep : step view (.addendum l addendum) algorithm with
      | error e algorithm₁ =>
        rw [run] at h
        change EStateM.bind (step view (.addendum l addendum)) (fun _ => run view events) algorithm = _ at h
        rw [EStateM.bind, hstep] at h
        cases h
      | ok u algorithm₁ =>
        obtain ⟨hkey, hfactor, hcontext⟩ := of_processAddendum hstep
        rw [run_cons hstep] at h
        exact List.forall_mem_cons.2 ⟨⟨hkey, hfactor⟩, hcontext ▸ ih h⟩

/-- What `sign_share` signs with, from the sums of the nonces. -/
def signOf (algorithm : ClsagMultisig Γ) (mask : Scalar) (msgHash : Bytes 32) (A AH : Γ.Point) : Clsag.SignCore Γ :=
  let rng := Γ.chaCha20 (Γ.rngSeed (algorithm.transcript.appendMessage "rng_seed" (ascii "decoy_responses")))
  (Clsag.signCore rng algorithm.image algorithm.context mask msgHash A AH).1

/-- The algorithm once it has signed a share. -/
def afterShare (algorithm : ClsagMultisig Γ) (mask : Scalar) (msgHash : Bytes 32) (A AH : Γ.Point) : ClsagMultisig Γ :=
  let signed := signOf algorithm mask msgHash A AH
  { algorithm with
    transcript := algorithm.transcript.appendMessage "rng_seed" (ascii "decoy_responses")
    msgHash := some msgHash
    interim := some { p := signed.keyChallenge, c := signed.challengedMask, clsag := signed.incompleteClsag,
                      pseudoOut := signed.pseudoOut } }

theorem signShare_eq {algorithm : ClsagMultisig Γ} {mask : Scalar} (hmask : algorithm.mask = some mask) (view : ThresholdView Γ)
    (A AH : Γ.Point) (nonce : Scalar) (msgHash : Bytes 32) :
    signShare view (A, AH) nonce msgHash algorithm =
      .ok (nonce - (signOf algorithm mask msgHash A AH).keyChallenge * view.secretShare)
        (afterShare algorithm mask msgHash A AH) := by
  simp only [signShare, Call.get_bind, hmask, afterShare, signOf]
  rw [← hmask]
  rfl

/-- What `verify` returns for the sum of the shares, where the signature it completes verifies. -/
theorem verify_afterShare {algorithm : ClsagMultisig Γ} {mask sum : Scalar} {msgHash : Bytes 32} {A AH : Γ.Point} {clsag : Clsag}
    (hclsag : clsag = { (signOf algorithm mask msgHash A AH).incompleteClsag with
      s := Clsag.setSignerS (signOf algorithm mask msgHash A AH).incompleteClsag.s algorithm.context.decoys.signerIndex
        (sum - (signOf algorithm mask msgHash A AH).challengedMask) })
    (h : Clsag.verify Γ clsag (Clsag.compressRing Γ algorithm.context.decoys.ring) (Γ.compress algorithm.image)
      (Γ.compress (signOf algorithm mask msgHash A AH).pseudoOut) msgHash = .ok ()) :
    verify (afterShare algorithm mask msgHash A AH) sum = .ok (some (clsag, (signOf algorithm mask msgHash A AH).pseudoOut)) := by
  subst hclsag
  simp only [verify, afterShare]
  rw [Clsag.compressRing] at h
  rw [h]

/-- What `verify` returns is a signature which verifies. -/
theorem of_verify_afterShare {algorithm : ClsagMultisig Γ} {mask sum : Scalar} {msgHash : Bytes 32} {A AH : Γ.Point}
    {signature : Clsag × Γ.Point} (h : verify (afterShare algorithm mask msgHash A AH) sum = .ok (some signature)) :
    signature.2 = Commitment.commit Γ { mask, amount := algorithm.context.commitment.amount } ∧
      signature.1.s.length = algorithm.context.decoys.ring.length ∧
      Clsag.verify Γ signature.1 (Clsag.compressRing Γ algorithm.context.decoys.ring) (Γ.compress algorithm.image)
        (Γ.compress signature.2) msgHash = .ok () := by
  simp only [verify, afterShare] at h
  split at h
  · rename_i hverify
    cases h
    exact ⟨rfl, (Clsag.length_setSignerS _ _ _).trans (Clsag.length_randomScalars _ _), hverify⟩
  · cases h

end ClsagMultisig

end MoneroOxide
