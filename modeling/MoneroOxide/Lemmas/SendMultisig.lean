import MoneroOxide.Lemmas.ClsagMultisig
import MoneroOxide.Lemmas.Sign
import MoneroOxide.SendMultisig

/-!
# Transactions signed by a multisig

What is relied on of FROST is `Frost.Lawful`. The machines are made in the order of the inputs and sorted with them, so that each
stays the machine of its input (`forall₂_sortBy`); the key image which the transaction is made with is the one the algorithm of the
machine comes to, whatever the other participants sent, as both are the sum of the same shares.
-/

namespace MoneroOxide

open ClsagMultisig

/-- What an algorithm went through when a machine signed with it: the addendum of each included participant, with the view for them,
and the share. -/
structure Frost.SignRun {Γ : Ctx} (F : Frost Γ) (algorithm : ClsagMultisig Γ) (keys : F.ThresholdKeys)
    (preprocesses : List (Participant × F.Preprocess)) (msgHash : Bytes 32) (algorithm' : ClsagMultisig Γ) : Prop where
  run : ∃ included view events processed nonceSums nonce share, included.Perm (preprocesses.map Prod.fst) ∧
    F.view keys included = some view ∧
    (addenda events).Perm (preprocesses.map fun entry => (entry.1, F.addendum entry.2)) ∧
    ClsagMultisig.run view events algorithm = .ok () processed ∧
    signShare view nonceSums nonce msgHash processed = .ok share algorithm'

/-- What the code relies on of `modular-frost`. -/
structure Frost.Lawful {Γ : Ctx} (F : Frost Γ) : Prop where
  /-- Keys which are scaled and offset are still those of the same participant. -/
  i_offset : ∀ {keys scaled : F.ThresholdKeys} {scalar : Scalar} (offset : Scalar), F.scale keys scalar = some scaled →
    F.i (F.offset scaled offset) = F.i keys
  /-- A view carries the scalar and the offset of the keys. -/
  view_lincomb : ∀ {keys : F.ThresholdKeys} {included : List Participant} {view : ThresholdView Γ},
    F.view keys included = some view → view.scalar = F.currentScalar keys ∧ view.offset = F.currentOffset keys
  /-- The interpolation factors depend on the signing set only. -/
  interpolationFactor_eq : ∀ {keys scaled : F.ThresholdKeys} {scalar : Scalar}
    (offset : Scalar) {included included' : List Participant}
    {view view' : ThresholdView Γ}, F.scale keys scalar = some scaled → included.Perm included' → F.view keys included = some view →
    F.view (F.offset scaled offset) included' = some view' → view'.interpolationFactor = view.interpolationFactor
  /-- A machine which signs processed the addendum of each included participant once. -/
  sign_run : ∀ {algorithm algorithm' : ClsagMultisig Γ} {keys : F.ThresholdKeys} {nonces : F.Nonces} {preprocess : F.Preprocess}
    {others : List (Participant × F.Preprocess)} {msgHash : Bytes 32} {signing : F.Signing} {share : F.SignatureShare},
    F.sign algorithm keys nonces preprocess others msgHash = .ok (algorithm', signing, share) →
    F.SignRun algorithm keys ((F.i keys, preprocess) :: others) msgHash algorithm'
  /-- A machine completes a signature its algorithm verified only. -/
  complete_verify : ∀ {algorithm : ClsagMultisig Γ} {signing : F.Signing} {shares : List (Participant × F.SignatureShare)}
    {signature : Clsag × Γ.Point}, F.complete algorithm signing shares = .ok signature →
    ∃ sum, algorithm.verify sum = .ok (some signature)

variable {Γ : Ctx} {F : Frost Γ}

/-! ## The machines -/

/-- The machine of an input. -/
structure MachineFor (keys : F.ThresholdKeys) (input : OutputWithDecoys Γ) (algorithm : ClsagMultisig Γ)
    (offset : F.ThresholdKeys) :
    Prop where
  derived : ∃ scaled, F.scale keys 1 = some scaled ∧ offset = F.offset scaled input.keyOffset
  algorithm_eq : ∃ context : ClsagContext Γ, context.decoys = input.decoys ∧ context.commitment = input.commitment ∧
    algorithm = ClsagMultisig.new (Transcript.new "Monero Multisignature Transaction") context

theorem multisigInput_eq_ok {keys : F.ThresholdKeys} {input : OutputWithDecoys Γ}
    {made : (Γ.Point × Scalar × Scalar) × AlgorithmMachine F}
    (h : SignableTransaction.multisigInput F keys input = .ok made) :
    MachineFor keys input made.2.algorithm made.2.keys ∧
      made.1 = (made.2.algorithm.keyImageGenerator, F.currentScalar made.2.keys, F.currentOffset made.2.keys) := by
  unfold SignableTransaction.multisigInput at h
  split at h
  · cases h
  · rename_i scaled hscaled
    simp only at h
    split at h
    · cases h
    · unfold ClsagContext.new at h
      by_cases hopens : input.decoys.signerRingMembers.2 = input.commitment.commit Γ
      · rw [dif_pos hopens] at h
        cases h
        exact ⟨⟨⟨scaled, hscaled, rfl⟩, ⟨_, rfl, rfl, rfl⟩⟩, rfl⟩
      · rw [dif_neg hopens] at h
        cases h

/-- The first round changes neither the algorithms nor the keys. -/
theorem forall₂_preprocessAll (clsags : List (AlgorithmMachine F)) (rng : Rng) :
    List.Forall₂ (fun machine signMachine => signMachine.algorithm = machine.algorithm ∧ signMachine.keys = machine.keys) clsags
      (preprocessAll clsags rng).1 := by
  induction clsags generalizing rng with
  | nil => exact .nil
  | cons clsag clsags ih => exact .cons ⟨rfl, rfl⟩ (ih _)

/-- A machine for the second round, for the inputs of what is to be signed. -/
structure Prepared (keys : F.ThresholdKeys) (t : SignableTransaction Γ) (machine : TransactionSignMachine F) : Prop where
  signable : machine.signable = t
  keys_eq : machine.keys = keys
  preprocesses : machine.ourPreprocess = machine.clsags.map AlgorithmSignMachine.preprocess
  lincombs : machine.keyImageGeneratorsAndLincombs = machine.clsags.map fun clsag =>
    (clsag.algorithm.keyImageGenerator, F.currentScalar clsag.keys, F.currentOffset clsag.keys)
  clsags : List.Forall₂ (fun input clsag => MachineFor keys input clsag.algorithm clsag.keys) t.inputs machine.clsags

/-- `multisig` and the first round. -/
theorem prepared_preprocess {t : SignableTransaction Γ} {keys : F.ThresholdKeys} {machine : TransactionMachine F}
    (h : t.multisig F keys = .ok machine) (rng : Rng) : Prepared keys t (machine.preprocess rng).1.1 := by
  unfold SignableTransaction.multisig at h
  obtain ⟨inputs, hinputs, h⟩ := Results.bind_eq_ok.1 h
  cases h
  rw [Results.mapM_eq_ok] at hinputs
  have hall := forall₂_preprocessAll (inputs.map Prod.snd) rng
  have hmade : List.Forall₂ (fun input made => MachineFor keys input made.2.algorithm made.2.keys ∧
      made.1 = (made.2.algorithm.keyImageGenerator, F.currentScalar made.2.keys, F.currentOffset made.2.keys)) t.inputs inputs :=
    hinputs.imp fun input made h => multisigInput_eq_ok h
  refine
    { signable := rfl
      keys_eq := rfl
      preprocesses := rfl
      lincombs := ?_
      clsags := ?_ }
  · have hlincombs : inputs.map Prod.fst = (inputs.map Prod.snd).map fun machine =>
        (machine.algorithm.keyImageGenerator, F.currentScalar machine.keys, F.currentOffset machine.keys) := by
      rw [List.map_map]
      refine List.map_congr_left fun made hin => ?_
      obtain ⟨input, -, -, hlincomb⟩ := Lists.exists_mem_of_forall₂ hmade hin
      exact hlincomb
    refine hlincombs.trans (Lists.map_eq_map (hall.imp fun machine signMachine heq => ?_))
    rw [heq.1, heq.2]
  · have hmade' : List.Forall₂ (fun input (machine : AlgorithmMachine F) => MachineFor keys input machine.algorithm machine.keys)
        t.inputs (inputs.map Prod.snd) := List.forall₂_map_right_iff.2 (hmade.imp fun input made h => h.1)
    refine (Lists.forall₂_trans hmade' hall).imp fun input signMachine h => ?_
    obtain ⟨machine, -, hmachine, halgorithm, hkeys⟩ := h
    rw [halgorithm, hkeys]
    exact hmachine

/-! ## The key images -/

namespace TransactionSignMachine

variable {machine : TransactionSignMachine F} {commitments : ParticipantMap (List F.Preprocess)} {view : ThresholdView Γ} {c : ℕ}

/-- The sum of the shares of a key image, interpolated. -/
def sharesSum (F : Frost Γ) (view : ThresholdView Γ) (preprocesses : List (Participant × F.Preprocess)) : Γ.Point :=
  (preprocesses.map fun entry => ((view.interpolationFactor entry.1).getD 0) • (F.addendum entry.2).keyImageShare).sum

/-- The loop over the participants. -/
theorem gather_eq_ok {ls : List Participant} {image image' : Γ.Point} {entries : List (Participant × F.Preprocess)}
    (h : machine.gather commitments view c ls image = .ok (image', entries)) :
    entries.map Prod.fst = ls ∧ (∀ entry ∈ entries, machine.preprocessOf commitments c entry.1 = .ok entry.2) ∧
      image' = image + sharesSum F view entries := by
  induction ls generalizing image image' entries with
  | nil =>
    cases h
    exact ⟨rfl, fun entry hin => absurd hin List.not_mem_nil, (add_zero _).symm⟩
  | cons l ls ih =>
    rw [gather] at h
    obtain ⟨preprocess, hpreprocess, h⟩ := Results.bind_eq_ok.1 h
    cases hfactor : view.interpolationFactor l with
    | none =>
      rw [hfactor] at h
      cases h
    | some factor =>
      rw [hfactor] at h
      obtain ⟨⟨image'', rest⟩, hrest, h⟩ := Results.bind_eq_ok.1 h
      cases h
      obtain ⟨hfst, hof, hsum⟩ := ih hrest
      refine ⟨by rw [List.map_cons, hfst], List.forall_mem_cons.2 ⟨hpreprocess, hof⟩, ?_⟩
      rw [hsum, sharesSum, sharesSum, List.map_cons, List.sum_cons, hfactor, Option.getD_some, add_assoc]

/-- What is gathered for a machine: the preprocesses of the other participants, and the key image all of them come to. -/
structure GatheredFor (keys : F.ThresholdKeys) (included : List Participant) (view : ThresholdView Γ)
    (clsag : AlgorithmSignMachine F)
    (gathered : CompressedPoint × List (Participant × F.Preprocess)) : Prop where
  participants : included.Perm (F.i keys :: gathered.2.map Prod.fst)
  keyImage : gathered.1 = Γ.compress (F.currentScalar clsag.keys • sharesSum F view ((F.i keys, clsag.preprocess) :: gathered.2) +
    F.currentOffset clsag.keys • clsag.algorithm.keyImageGenerator)

theorem sharesSum_perm {entries entries' : List (Participant × F.Preprocess)} (h : entries.Perm entries') :
    sharesSum F view entries = sharesSum F view entries' := (h.map _).sum_eq

/-- Each participant is included once. -/
theorem nodup_includedOf (hnotin : F.i machine.keys ∉ commitments.keys) : (machine.includedOf commitments).Nodup := by
  rw [includedOf, (List.mergeSort_perm _ _).nodup_iff, List.nodup_append]
  refine ⟨commitments.nodup, List.nodup_singleton _, ?_⟩
  intro a ha b hb heq
  rw [List.mem_singleton.1 hb] at heq
  exact hnotin (heq ▸ ha)

theorem mem_includedOf : F.i machine.keys ∈ machine.includedOf commitments := by
  rw [includedOf, (List.mergeSort_perm _ _).mem_iff]
  exact List.mem_append_right _ (List.mem_singleton_self _)

/-- The own preprocess is among those gathered. -/
theorem perm_gathered (hpreprocesses : machine.ourPreprocess = machine.clsags.map AlgorithmSignMachine.preprocess)
    (hnotin : F.i machine.keys ∉ commitments.keys) {image : Γ.Point} {entries : List (Participant × F.Preprocess)}
    (hc : c < machine.clsags.length)
    (h : machine.gather commitments view c (machine.includedOf commitments) 0 = .ok (image, entries)) :
    entries.Perm ((F.i machine.keys, (machine.clsags.get ⟨c, hc⟩).preprocess) ::
      entries.filter fun entry => entry.1 ≠ F.i machine.keys) := by
  obtain ⟨hfst, hof, -⟩ := gather_eq_ok h
  have hnodup : (entries.map Prod.fst).Nodup := hfst ▸ nodup_includedOf hnotin
  have hown : F.i machine.keys ∈ entries.map Prod.fst := hfst ▸ mem_includedOf
  obtain ⟨⟨l, preprocess⟩, hentry, rfl⟩ := List.mem_map.1 hown
  have hpreprocess := hof _ hentry
  rw [preprocessOf, if_pos rfl, hpreprocesses, List.getElem?_map, List.getElem?_eq_getElem hc] at hpreprocess
  have heq : (machine.clsags.get ⟨c, hc⟩).preprocess = preprocess := Except.ok.inj hpreprocess
  exact Lists.perm_cons_filter hnodup (heq ▸ hentry)

/-- The key images, and what each machine is to sign with. -/
theorem imagesAndCommitments_eq_ok {keys : F.ThresholdKeys} {t : SignableTransaction Γ} (hp : Prepared keys t machine)
    (hnotin : F.i keys ∉ commitments.keys) {images : List (CompressedPoint × List (Participant × F.Preprocess))}
    (h : machine.imagesAndCommitments commitments = .ok images) :
    ∃ view, F.view keys (machine.includedOf commitments) = some view ∧
      List.Forall₂ (GatheredFor keys (machine.includedOf commitments) view) machine.clsags images := by
  have hkeys := hp.keys_eq
  subst hkeys
  cases hview : F.view machine.keys (machine.includedOf commitments) with
  | none =>
    simp only [imagesAndCommitments, hview, Results.error_bind] at h
    cases h
  | some view =>
    simp only [imagesAndCommitments, hview, Results.ok_bind] at h
    obtain ⟨gathered, hgathered, h⟩ := Results.bind_eq_ok.1 h
    cases h
    rw [Results.mapM_eq_ok] at hgathered
    have hlen : gathered.length = machine.clsags.length := by rw [← hgathered.length_eq, List.length_range]
    refine ⟨view, rfl, ?_⟩
    rw [hp.lincombs, List.forall₂_iff_get]
    refine ⟨by simp [hlen], fun i hi hi' => ?_⟩
    have hget := hgathered.get (by simpa using hi) (hlen ▸ hi)
    simp only [List.get_eq_getElem, List.getElem_range] at hget
    obtain ⟨hfst, -, hsum⟩ := gather_eq_ok hget
    have hperm := perm_gathered hp.preprocesses hnotin hi hget
    simp only [List.get_eq_getElem, List.getElem_map, List.getElem_zip]
    refine ⟨?_, ?_⟩
    · rw [← hfst]
      exact hperm.map Prod.fst
    · change gathered[i].1 = _ at hsum
      simp only [finishImage, hsum, zero_add]
      rw [sharesSum_perm hperm]
      rfl

/-! ## The masks -/

/-- The loop which sends the masks. They leave the sum of the masks as it should be. -/
theorem sendMasks_spec {α : Type} (outputMasks : Scalar) (clsags : List (AlgorithmSignMachine F × α)) (sumPseudoOuts : Scalar)
    (rng : Rng) : ∃ masks : List Scalar, masks.length = clsags.length ∧
      (clsags ≠ [] → sumPseudoOuts + masks.sum = outputMasks) ∧
      List.Forall₂ (fun cm sent => sent = ({ cm.1.1 with algorithm := cm.1.1.algorithm.send cm.2 }, cm.1.2)) (clsags.zip masks)
        (sendMasks outputMasks clsags sumPseudoOuts rng) := by
  induction clsags generalizing sumPseudoOuts rng with
  | nil => exact ⟨[], rfl, fun h => absurd rfl h, .nil⟩
  | cons clsag clsags ih =>
    cases clsags with
    | nil => exact ⟨[outputMasks - sumPseudoOuts], rfl, fun _ => by simp, .cons rfl .nil⟩
    | cons clsag' clsags =>
      obtain ⟨masks, hlen, hsum, hall⟩ := ih (sumPseudoOuts + (Scalar.random rng).1) (Scalar.random rng).2
      refine ⟨(Scalar.random rng).1 :: masks, congrArg (· + 1) hlen, fun _ => ?_, .cons rfl hall⟩
      rw [List.sum_cons, ← add_assoc]
      exact hsum (List.cons_ne_nil _ _)

end TransactionSignMachine

/-! ## What the algorithms come to -/

/-- An algorithm which signed for an input, with a mask: its image is the key image the input has in the transaction. -/
structure AlgorithmFor (msgHash : Bytes 32) (input : OutputWithDecoys Γ × CompressedPoint) (mask : Scalar)
    (algorithm : ClsagMultisig Γ) : Prop where
  decoys : algorithm.context.decoys = input.1.decoys
  commitment : algorithm.context.commitment = input.1.commitment
  image : Γ.compress algorithm.image = input.2
  share : ∃ processed A AH, algorithm = afterShare processed mask msgHash A AH

/-- Multiplication of a sum of points. -/
theorem smul_sum (s : Scalar) (Ps : List Γ.Point) : s • Ps.sum = (Ps.map (s • ·)).sum := by
  induction Ps with
  | nil => exact Scalar.smul_zero s
  | cons P Ps ih => rw [List.sum_cons, Scalar.smul_add, ih, List.map_cons, List.sum_cons]

/-- The addenda which are processed interpolate to what was gathered. -/
theorem interpolatedSum_eq {view view' : ThresholdView Γ} {events : List (Event Γ)} {entries : List (Participant × F.Preprocess)}
    (hperm : (addenda events).Perm (entries.map fun entry => (entry.1, F.addendum entry.2)))
    (hfactor : view'.interpolationFactor = view.interpolationFactor) :
    interpolatedSum view' events = view'.scalar • TransactionSignMachine.sharesSum F view entries := by
  rw [interpolatedSum, (hperm.map _).sum_eq, TransactionSignMachine.sharesSum, smul_sum, List.map_map, List.map_map, ← hfactor]
  rfl

/-- The image of an algorithm is the key image of the transaction, whatever the addenda. -/
theorem algorithmFor_of_sign (hF : F.Lawful) {keys : F.ThresholdKeys} {input : OutputWithDecoys Γ} {included : List Participant}
    {view : ThresholdView Γ} {clsag : AlgorithmSignMachine F} {gathered : CompressedPoint × List (Participant × F.Preprocess)}
    (hview : F.view keys included = some view) (hmachine : MachineFor keys input clsag.algorithm clsag.keys)
    (hgathered : TransactionSignMachine.GatheredFor keys included view clsag gathered) {mask : Scalar} {msgHash : Bytes 32}
    {algorithm' : ClsagMultisig Γ} {signing : F.Signing} {share : F.SignatureShare}
    (h : F.sign (clsag.algorithm.send mask) clsag.keys clsag.nonces clsag.preprocess gathered.2 msgHash =
      .ok (algorithm', signing, share)) : AlgorithmFor msgHash (input, gathered.1) mask algorithm' := by
  obtain ⟨scaled, hscaled, hderived⟩ := hmachine.derived
  obtain ⟨context, hdecoys, hcommitment, halgorithm⟩ := hmachine.algorithm_eq
  obtain ⟨included', view', events, processed, ⟨A, AH⟩, nonce, shareScalar, hincluded, hview', hperm, hrun, hshare⟩ :=
    (hF.sign_run h).run
  have hi : F.i clsag.keys = F.i keys := by rw [hderived, hF.i_offset _ hscaled]
  rw [hi] at hincluded hperm
  have hfactor : view'.interpolationFactor = view.interpolationFactor :=
    hF.interpolationFactor_eq input.keyOffset hscaled (hgathered.participants.trans hincluded.symm) hview (hderived ▸ hview')
  obtain ⟨hscalar, hoffset⟩ := hF.view_lincomb hview'
  have hne : addenda events ≠ [] := by
    intro hnil
    rw [hnil] at hperm
    cases hperm.nil_eq
  have hchecked := of_run hrun
  obtain ⟨pair, hpair⟩ := List.exists_mem_of_ne_nil _ hne
  have hkey : view'.groupKey = context.decoys.signerRingMembers.1 := by
    have hkey := (hchecked pair hpair).1
    rw [halgorithm] at hkey
    exact hkey
  have hspec : ∃ processed', run view' events (clsag.algorithm.send mask) = .ok () processed' ∧
      Holds context clsag.algorithm.keyImageGenerator mask
        (view'.offset • clsag.algorithm.keyImageGenerator + interpolatedSum view' events) processed' := by
    refine run_spec hkey events hne (fun pair hpair => (hchecked pair hpair).2) ?_ rfl ?_ ?_
    · rw [halgorithm]
      rfl
    · rw [halgorithm]
      rfl
    · rw [halgorithm]
      rfl
  obtain ⟨processed', hrun', hholds⟩ := hspec
  rw [hrun] at hrun'
  cases hrun'
  rw [signShare_eq hholds.mask_eq] at hshare
  cases hshare
  refine
    { decoys := ?_
      commitment := ?_
      image := ?_
      share := ⟨processed, A, AH, rfl⟩ }
  · exact (congrArg ClsagContext.decoys hholds.context_eq).trans hdecoys
  · exact (congrArg ClsagContext.commitment hholds.context_eq).trans hcommitment
  · change Γ.compress processed.image = gathered.1
    rw [hholds.image_eq, hgathered.keyImage, interpolatedSum_eq hperm hfactor, hscalar, hoffset, add_comm]

/-- The signature verifies for the input. -/
def Verifies (Γ : Ctx) (msgHash : Bytes 32) (input : OutputWithDecoys Γ × CompressedPoint) (signed : Clsag × Γ.Point) : Prop :=
  Clsag.verify Γ signed.1 (Clsag.compressRing Γ input.1.decoys.ring) input.2 (Γ.compress signed.2) msgHash = .ok ()

/-- A signature the algorithm verified is one for the input. -/
theorem signsInput_of_verify {msgHash : Bytes 32} {input : OutputWithDecoys Γ × CompressedPoint} {mask sum : Scalar}
    {algorithm : ClsagMultisig Γ} {signature : Clsag × Γ.Point} (h : AlgorithmFor msgHash input mask algorithm)
    (hverify : algorithm.verify sum = .ok (some signature)) :
    SignableTransaction.SignsInput msgHash input mask signature ∧ Verifies Γ msgHash input signature := by
  obtain ⟨processed, A, AH, rfl⟩ := h.share
  obtain ⟨hpseudoOut, hlength, hverifies⟩ := of_verify_afterShare hverify
  have hdecoys : processed.context.decoys = input.1.decoys := h.decoys
  have hcommitment : processed.context.commitment = input.1.commitment := h.commitment
  have himage : Γ.compress processed.image = input.2 := h.image
  rw [hdecoys] at hlength hverifies
  rw [himage] at hverifies
  exact ⟨
    { pseudoOut := hcommitment ▸ hpseudoOut
      length_s := hlength
      verifies := fun _ _ => hverifies }, hverifies⟩

/-! ## The transaction -/

/-- What the second round leaves: the transaction without signatures for these key images, and the algorithms of its inputs. -/
structure SignedShares (t : SignableTransaction Γ) (keyImages : List CompressedPoint) (masks : List Scalar)
    (machine : TransactionSignatureMachine F) : Prop where
  length_keyImages : keyImages.length = t.inputs.length
  length_masks : masks.length = t.inputs.length
  sum_masks : masks.sum = (t.withKeyImages keyImages).intent.maskSum (t.withKeyImages keyImages).keyImages
  unsigned : ∃ bp, (t.withKeyImages keyImages).transactionWithoutSignatures =
      .ok ((t.withKeyImages keyImages).intent.txWith (t.withKeyImages keyImages).keyImages bp [] []) ∧
    machine.tx = (t.withKeyImages keyImages).intent.txWith (t.withKeyImages keyImages).keyImages bp [] []
  signs : ∃ msgHash, machine.tx.signatureHash Γ = some msgHash ∧
    List.Forall₂ (fun im (clsag : AlgorithmSignatureMachine F) => AlgorithmFor msgHash im.1 im.2 clsag.algorithm)
      ((t.sorted keyImages).zip masks) machine.clsags

theorem notin_remove {α : Type} (map : ParticipantMap α) (l : Participant) : l ∉ (map.remove l).keys := by
  intro hin
  obtain ⟨entry, hentry, heq⟩ := List.mem_map.1 hin
  exact of_decide_eq_true (List.mem_filter.1 hentry).2 heq

/-- What the second round does once it has the key images. -/
theorem signedShares_of_signWith (hF : F.Lawful) {t : SignableTransaction Γ} (hv : t.Valid) {keys : F.ThresholdKeys}
    {machine : TransactionSignMachine F} (hp : Prepared keys t machine) {included : List Participant} {view : ThresholdView Γ}
    (hview : F.view keys included = some view) {images : List (CompressedPoint × List (Participant × F.Preprocess))}
    (himages : List.Forall₂ (TransactionSignMachine.GatheredFor keys included view) machine.clsags images)
    {signatureMachine : TransactionSignatureMachine F} {shares : List F.SignatureShare}
    (h : machine.signWith images = .ok (signatureMachine, shares)) :
    ∃ masks, SignedShares t (images.map Prod.fst) masks signatureMachine := by
  set keyImages := images.map Prod.fst with hkeyImages
  have hlen : keyImages.length = t.inputs.length := by
    rw [hkeyImages, List.length_map, ← himages.length_eq, hp.clsags.length_eq]
  have hreorders := SignableTransaction.reorders_withKeyImages hlen
  obtain ⟨bp, hunsigned, -⟩ := (hv.reorders hreorders).transactionWithoutSignatures_eq (t.withKeyImages keyImages).keyImages
  have hunsigned : (t.withKeyImages keyImages).transactionWithoutSignatures =
      .ok ((t.withKeyImages keyImages).intent.txWith (t.withKeyImages keyImages).keyImages bp [] []) := hunsigned
  -- The machines are sorted as the inputs are
  have hmachines : List.Forall₂ (fun input clsag => MachineFor keys input.1 clsag.1.algorithm clsag.1.keys ∧
      TransactionSignMachine.GatheredFor keys included view clsag.1 (input.2, clsag.2)) (t.sorted keyImages)
        ((Sorting.sortBy keyImageSort Prod.fst (keyImages.zip (machine.clsags.zip (images.map Prod.snd)))).map Prod.snd) :=
    Sorting.forall₂_sortBy hlen (Lists.forall₂_zip_zip hp.clsags himages)
  simp only [TransactionSignMachine.signWith, ← hkeyImages, hp.signable, (hv.reorders hreorders).sumOutputMasks_eq, hunsigned,
    expectOk, Results.ok_bind, SignableTransaction.signatureHash_txWith] at h
  set clsags := (Sorting.sortBy keyImageSort Prod.fst (keyImages.zip (machine.clsags.zip (images.map Prod.snd)))).map Prod.snd
  set tx₀ := t.withKeyImages keyImages with htx₀
  set msgHash := tx₀.intent.toSign tx₀.keyImages bp with hmsgHash
  obtain ⟨signed, hsigned, h⟩ := Results.bind_eq_ok.1 h
  cases h
  rw [Results.mapM_eq_ok] at hsigned
  obtain ⟨masks, hmasks, hsum, hsent⟩ := TransactionSignMachine.sendMasks_spec (tx₀.intent.maskSum tx₀.keyImages) clsags 0
    (tx₀.intent.seededRng "multisig_pseudo_out_masks")
  have hlenClsags : clsags.length = t.inputs.length := by
    rw [← hmachines.length_eq, SignableTransaction.length_sorted hlen]
  have hne : clsags ≠ [] := by
    intro hnil
    rw [hnil, List.length_nil, eq_comm, List.length_eq_zero_iff] at hlenClsags
    exact hv.inputs_ne_nil hlenClsags
  refine ⟨masks,
    { length_keyImages := hlen
      length_masks := hmasks.trans hlenClsags
      sum_masks := by rw [← hsum hne, zero_add]
      unsigned := ⟨bp, hunsigned, rfl⟩
      signs := ⟨msgHash, SignableTransaction.signatureHash_txWith _ _ _ _, ?_⟩ }⟩
  rw [List.forall₂_map_right_iff]
  refine (Lists.forall₂_zip_left hmachines (Lists.forall₂_trans hsent hsigned)).imp fun im result hresult => ?_
  obtain ⟨clsag, ⟨hmachine, hgathered⟩, sent, -, rfl, hone⟩ := hresult
  obtain ⟨⟨algorithm, signing, share⟩, hsign, hresult⟩ := Results.bind_eq_ok.1 hone
  cases hresult
  exact algorithmFor_of_sign hF hview hmachine hgathered hsign

/-- The second round. -/
theorem signedShares_of_sign (hF : F.Lawful) {t : SignableTransaction Γ} (hv : t.Valid) {keys : F.ThresholdKeys}
    {machine : TransactionSignMachine F} (hp : Prepared keys t machine) {commitments : ParticipantMap (List F.Preprocess)}
    {msg : List UInt8} {signatureMachine : TransactionSignatureMachine F} {shares : List F.SignatureShare}
    (h : machine.sign commitments msg = .ok (signatureMachine, shares)) :
    ∃ images masks, machine.imagesAndCommitments (commitments.remove (F.i keys)) = .ok images ∧
      SignedShares t (images.map Prod.fst) masks signatureMachine := by
  rw [TransactionSignMachine.sign] at h
  split at h
  · cases h
  · split at h
    · cases h
    · obtain ⟨images, himages, h⟩ := Results.bind_eq_ok.1 h
      rw [hp.keys_eq] at himages
      obtain ⟨view, hview, hall⟩ := TransactionSignMachine.imagesAndCommitments_eq_ok hp (notin_remove _ _) himages
      obtain ⟨masks, hshares⟩ := signedShares_of_signWith hF hv hp hview hall h
      exact ⟨images, masks, himages, hshares⟩

/-- The signatures are completed for the transaction of the second round. -/
theorem signed_of_complete (hF : F.Lawful) {t : SignableTransaction Γ} {keyImages : List CompressedPoint} {masks : List Scalar}
    {machine : TransactionSignatureMachine F} (hshares : SignedShares t keyImages masks machine)
    {shares : ParticipantMap (List F.SignatureShare)} {tx : Transaction NotPruned} (h : machine.complete shares = .ok tx) :
    ∃ signatures, SignableTransaction.Signed t keyImages masks signatures tx ∧
      ∃ msgHash, tx.signatureHash Γ = some msgHash ∧ List.Forall₂ (Verifies Γ msgHash) (t.sorted keyImages) signatures := by
  rw [TransactionSignatureMachine.complete] at h
  split at h
  · cases h
  · obtain ⟨compressed, hcompressed, h⟩ := Results.bind_eq_ok.1 h
    rw [Results.mapM_eq_ok] at hcompressed
    obtain ⟨bp, hunsigned, htx⟩ := hshares.unsigned
    obtain ⟨msgHash, hmsgHash, hsigns⟩ := hshares.signs
    have hverified : List.Forall₂ (fun (clsag : AlgorithmSignatureMachine F) out => ∃ signature : Clsag × Γ.Point,
        (∃ sum, clsag.algorithm.verify sum = .ok (some signature)) ∧ out = (signature.1, Γ.compress signature.2))
          machine.clsags compressed := by
      rw [← List.zipIdx_map_fst 0 machine.clsags, List.forall₂_map_left_iff]
      refine hcompressed.imp fun pair out hout => ?_
      obtain ⟨_, -, hout⟩ := Results.bind_eq_ok.1 hout
      obtain ⟨signature, hcomplete, hout⟩ := Results.bind_eq_ok.1 hout
      cases hout
      exact ⟨signature, hF.complete_verify hcomplete, rfl⟩
    obtain ⟨signatures, hsignatures, rfl⟩ := Lists.exists_map_of_forall₂ hverified
    rw [htx, SignableTransaction.fillIn_txWith] at h
    simp only [expectOk, Except.ok.injEq, List.map_map] at h
    have hhash : tx.signatureHash Γ = some msgHash := by
      rw [← h, SignableTransaction.signatureHash_txWith, ← hmsgHash, htx, SignableTransaction.signatureHash_txWith]
    have hall : List.Forall₂ (fun im signed => SignableTransaction.SignsInput msgHash im.1 im.2 signed ∧
      Verifies Γ msgHash im.1 signed)
        ((t.sorted keyImages).zip masks) signatures := by
      refine (Lists.forall₂_trans hsigns hsignatures).imp fun im signature hsignature => ?_
      obtain ⟨clsag, -, halgorithm, sum, hverify⟩ := hsignature
      exact signsInput_of_verify halgorithm hverify
    have hlen : (t.sorted keyImages).length = masks.length :=
      (SignableTransaction.length_sorted hshares.length_keyImages).trans hshares.length_masks.symm
    refine ⟨signatures,
      { length_keyImages := hshares.length_keyImages
        length_masks := hshares.length_masks
        sum_masks := hshares.sum_masks
        filled := ⟨bp, hunsigned, h.symm⟩
        signs := ⟨msgHash, hhash, hall.imp fun im signed hsigned => hsigned.1⟩ }, msgHash, hhash, ?_⟩
    rw [← List.map_fst_zip hlen.le, List.forall₂_map_left_iff]
    exact hall.imp fun im signed hsigned => hsigned.2

/-- The transactions which are signed: by a single signer, or by a multisig with whatever the other participants sent. -/
inductive SignsTo (F : Frost Γ) (t : SignableTransaction Γ) : Transaction NotPruned → Prop where
  | sign {rng rng' : Rng} {key : Scalar} {tx : Transaction NotPruned} (h : t.sign rng key = .ok (tx, rng')) : SignsTo F t tx
  | multisig {keys : F.ThresholdKeys} {machine : TransactionMachine F} {rng : Rng} {commitments : ParticipantMap (List F.Preprocess)}
      {msg : List UInt8} {signatureMachine : TransactionSignatureMachine F} {ownShares : List F.SignatureShare}
      {shares : ParticipantMap (List F.SignatureShare)} {tx : Transaction NotPruned} (hmachine : t.multisig F keys = .ok machine)
      (hsign : (machine.preprocess rng).1.1.sign commitments msg = .ok (signatureMachine, ownShares))
      (hcomplete : signatureMachine.complete shares = .ok tx) : SignsTo F t tx

theorem SignsTo.signed (hF : F.Lawful) {t : SignableTransaction Γ} (hv : t.Valid) {tx : Transaction NotPruned}
    (h : SignsTo F t tx) :
    ∃ keyImages masks signatures, SignableTransaction.Signed t keyImages masks signatures tx := by
  cases h with
  | sign h =>
    obtain ⟨keyImages, masks, signatures, hsigned, -⟩ := SignableTransaction.signed_of_sign hv h
    exact ⟨keyImages, masks, signatures, hsigned⟩
  | multisig hmachine hsign hcomplete =>
    obtain ⟨images, masks, -, hshares⟩ := signedShares_of_sign hF hv (prepared_preprocess hmachine _) hsign
    obtain ⟨signatures, hsigned, -⟩ := signed_of_complete hF hshares hcomplete
    exact ⟨_, masks, signatures, hsigned⟩

/-! ## Panics -/

namespace TransactionSignMachine

variable {machine : TransactionSignMachine F} {commitments : ParticipantMap (List F.Preprocess)}

/-- There is a preprocess of each participant for each machine. -/
theorem preprocessOf_ne_panic (hlen : machine.ourPreprocess.length = machine.clsags.length)
    (hcommitments : ∀ entry ∈ commitments.entries, entry.2.length = machine.clsags.length) {c : ℕ} (hc : c < machine.clsags.length)
    (l : Participant) (message : String) : machine.preprocessOf commitments c l ≠ .error (.panic message) := by
  intro h
  rw [preprocessOf] at h
  split at h
  · rw [List.getElem?_eq_getElem (hlen ▸ hc)] at h
    cases h
  · split at h
    · cases h
    · rename_i preprocesses hget
      have hentry : (l, preprocesses) ∈ commitments.entries := by
        rw [ParticipantMap.get] at hget
        obtain ⟨before, after, hentries, -⟩ := List.lookup_eq_some_iff.1 hget
        rw [hentries]
        exact List.mem_append_right _ List.mem_cons_self
      have hpreprocesses := hcommitments _ hentry
      rw [List.getElem?_eq_getElem (hpreprocesses ▸ hc)] at h
      cases h

theorem gather_ne_panic (hlen : machine.ourPreprocess.length = machine.clsags.length)
    (hcommitments : ∀ entry ∈ commitments.entries, entry.2.length = machine.clsags.length) {c : ℕ} (hc : c < machine.clsags.length)
    (view : ThresholdView Γ) (ls : List Participant) (image : Γ.Point) (message : String) :
    machine.gather commitments view c ls image ≠ .error (.panic message) := by
  induction ls generalizing image with
  | nil =>
    intro h
    cases h
  | cons l ls ih =>
    intro h
    rw [gather] at h
    rcases Results.bind_eq_error.1 h with hof | ⟨preprocess, -, h⟩
    · exact preprocessOf_ne_panic hlen hcommitments hc l message hof
    · split at h
      · cases h
      · rcases Results.bind_eq_error.1 h with hrest | ⟨rest, -, h⟩
        · exact ih _ hrest
        · cases h

theorem imagesAndCommitments_ne_panic (hlen : machine.ourPreprocess.length = machine.clsags.length)
    (hcommitments : ∀ entry ∈ commitments.entries, entry.2.length = machine.clsags.length) (message : String) :
    machine.imagesAndCommitments commitments ≠ .error (.panic message) := by
  intro h
  cases hview : F.view machine.keys (machine.includedOf commitments) with
  | none =>
    simp only [imagesAndCommitments, hview, Results.error_bind] at h
    cases h
  | some view =>
    simp only [imagesAndCommitments, hview, Results.ok_bind] at h
    rcases Results.bind_eq_error.1 h with hgathered | ⟨gathered, -, h⟩
    · obtain ⟨c, hc, hgather⟩ := Results.mapM_eq_error hgathered
      exact gather_ne_panic hlen hcommitments (List.mem_range.1 hc) view _ _ message hgather
    · cases h

/-- Making the transaction does not panic, and signing it only where FROST does. -/
theorem panic_of_signWith {t : SignableTransaction Γ} (hv : t.Valid) (hsignable : machine.signable = t)
    {images : List (CompressedPoint × List (Participant × F.Preprocess))} (hlen : images.length = t.inputs.length)
    {message : String}
    (h : machine.signWith images = .error (.panic message)) :
    ∃ algorithm keys nonces preprocess others msgHash, F.sign algorithm keys nonces preprocess others msgHash =
      .error (.panic message) := by
  have hreorders := SignableTransaction.reorders_withKeyImages ((List.length_map Prod.fst).trans hlen)
  obtain ⟨bp, hunsigned, -⟩ :=
    (hv.reorders hreorders).transactionWithoutSignatures_eq (t.withKeyImages (images.map Prod.fst)).keyImages
  have hunsigned : (t.withKeyImages (images.map Prod.fst)).transactionWithoutSignatures = .ok _ := hunsigned
  simp only [signWith, hsignable, (hv.reorders hreorders).sumOutputMasks_eq, hunsigned, expectOk, Results.ok_bind,
    SignableTransaction.signatureHash_txWith] at h
  rcases Results.bind_eq_error.1 h with hsigned | ⟨signed, -, h⟩
  · obtain ⟨pair, -, hone⟩ := Results.mapM_eq_error hsigned
    rcases Results.bind_eq_error.1 hone with hsign | ⟨result, -, hone⟩
    · exact ⟨_, _, _, _, _, _, hsign⟩
    · cases hone
  · cases h

/-- The second round panics only where FROST does. -/
theorem panic_of_sign {t : SignableTransaction Γ} (hv : t.Valid) {keys : F.ThresholdKeys} (hp : Prepared keys t machine)
    {message : String} (h : machine.sign commitments [] = .error (.panic message)) :
    ∃ algorithm keys nonces preprocess others msgHash, F.sign algorithm keys nonces preprocess others msgHash =
      .error (.panic message) := by
  rw [sign, if_neg (by simp)] at h
  split at h
  · cases h
  · rename_i hall
    have hcommitments : ∀ entry ∈ (commitments.remove (F.i machine.keys)).entries, entry.2.length = machine.clsags.length := by
      intro entry hentry
      by_contra hne
      exact hall ⟨entry, (List.mem_filter.1 hentry).1, hne⟩
    rcases Results.bind_eq_error.1 h with himages | ⟨images, himages, h⟩
    · exact absurd himages
        (imagesAndCommitments_ne_panic (by rw [hp.preprocesses, List.length_map]) hcommitments message)
    · have hkeys := hp.keys_eq
      subst hkeys
      obtain ⟨view, -, himages⟩ := imagesAndCommitments_eq_ok hp (notin_remove _ _) himages
      exact panic_of_signWith hv hp.signable (himages.length_eq.symm.trans hp.clsags.length_eq.symm) h

end TransactionSignMachine

/-! ## A multisig of one -/

/-- The view of the one participant, whose secret share is `1`, of the keys with a scalar and an offset. -/
def soloView (Γ : Ctx) (keys : Scalar × Scalar) : ThresholdView Γ where
  groupKey := (keys.1 + keys.2) • Γ.G
  scalar := keys.1
  offset := keys.2
  interpolationFactor := fun l => if l = 1 then some 1 else none
  verificationShare := fun _ => (keys.1 + keys.2) • Γ.G
  secretShare := keys.1 + keys.2

/-- The one participant processes its own addendum, and signs with the nonce `1`. -/
def soloSign (view : ThresholdView Γ) (addendum : ClsagAddendum Γ) (msgHash : Bytes 32) : Method Γ Scalar := do
  run view [.addendum 1 addendum]
  let algorithm ← get
  signShare view (Γ.G, algorithm.keyImageGenerator) 1 msgHash

/-- Sign, if there are no other participants. -/
def soloFrostSign (algorithm : ClsagMultisig Γ) (keys : Scalar × Scalar) (addendum : ClsagAddendum Γ)
    (others : List (Participant × ClsagAddendum Γ)) (msgHash : Bytes 32) :
    Except (Failure FrostError) (ClsagMultisig Γ × Scalar × Scalar) :=
  if others.isEmpty then
    match soloSign (soloView Γ keys) addendum msgHash algorithm with
    | .ok share algorithm' => .ok (algorithm', share, share)
    | .error e _ => .error e
  else .error (.error (.ofFrost "invalid signing set"))

/-- Complete the signature of the one share. -/
def soloComplete (algorithm : ClsagMultisig Γ) (share : Scalar) : Except (Failure FrostError) (Clsag × Γ.Point) :=
  match algorithm.verify share with
  | .ok (some signature) => .ok signature
  | .ok none => .error (.error (.ofFrost "invalid share"))
  | .error e => .error e

/-- FROST with one participant. -/
def soloFrost (Γ : Ctx) : Frost Γ where
  ThresholdKeys := Scalar × Scalar
  scale := fun keys scalar => if scalar = 0 then none else some (keys.1 * scalar, keys.2 * scalar)
  offset := fun keys offset => (keys.1, keys.2 + offset)
  groupKey := fun keys => (keys.1 + keys.2) • Γ.G
  currentScalar := Prod.fst
  currentOffset := Prod.snd
  i := fun _ => 1
  view := fun keys included => if included = [1] then some (soloView Γ keys) else none
  Preprocess := ClsagAddendum Γ
  addendum := id
  Nonces := Unit
  preprocess := fun _ algorithm rng => (((), algorithm.preprocessAddendum 1), rng)
  SignatureShare := Scalar
  Signing := Scalar
  sign := fun algorithm keys _ preprocess others msgHash => soloFrostSign algorithm keys preprocess others msgHash
  complete := fun algorithm share _ => soloComplete algorithm share

/-- What the one participant does is a run of the algorithm. -/
theorem of_soloSign {view : ThresholdView Γ} {addendum : ClsagAddendum Γ} {msgHash : Bytes 32}
    {algorithm algorithm' : ClsagMultisig Γ}
    {share : Scalar} (h : soloSign view addendum msgHash algorithm = .ok share algorithm') :
    ∃ processed, run view [.addendum 1 addendum] algorithm = .ok () processed ∧
      signShare view (Γ.G, processed.keyImageGenerator) 1 msgHash processed = .ok share algorithm' := by
  unfold soloSign at h
  cases hrun : run view [.addendum 1 addendum] algorithm with
  | error e processed =>
    change EStateM.bind (run view [.addendum 1 addendum]) _ algorithm = _ at h
    rw [EStateM.bind, hrun] at h
    cases h
  | ok u processed =>
    change EStateM.bind (run view [.addendum 1 addendum]) _ algorithm = _ at h
    rw [EStateM.bind, hrun] at h
    exact ⟨processed, rfl, h⟩

theorem view_soloFrost (keys : Scalar × Scalar) : (soloFrost Γ).view keys [1] = some (soloView Γ keys) := by
  change (if ([1] : List Participant) = [1] then some (soloView Γ keys) else none) = _
  rw [if_pos rfl]

theorem lawful_soloFrost (Γ : Ctx) : (soloFrost Γ).Lawful where
  i_offset := fun _ _ => rfl
  view_lincomb := by
    intro keys included view h
    obtain ⟨-, hview⟩ := (Option.ite_none_right_eq_some ..).1 h
    cases hview
    exact ⟨rfl, rfl⟩
  interpolationFactor_eq := by
    intro keys scaled scalar offset included included' view view' _ _ hview hview'
    obtain ⟨-, hview⟩ := (Option.ite_none_right_eq_some ..).1 hview
    obtain ⟨-, hview'⟩ := (Option.ite_none_right_eq_some ..).1 hview'
    cases hview
    cases hview'
    rfl
  sign_run := by
    intro algorithm algorithm' keys nonces preprocess others msgHash signing share h
    change soloFrostSign algorithm keys preprocess others msgHash = _ at h
    unfold soloFrostSign at h
    split at h
    · rename_i hempty
      cases List.isEmpty_iff.1 hempty
      split at h
      · rename_i hsign
        cases h
        obtain ⟨processed, hrun, hshare⟩ := of_soloSign hsign
        exact ⟨[1], soloView Γ keys, _, processed, _, 1, _, List.Perm.refl _, view_soloFrost keys, List.Perm.refl _, hrun, hshare⟩
      · cases h
    · cases h
  complete_verify := by
    intro algorithm signing shares signature h
    change soloComplete algorithm signing = _ at h
    unfold soloComplete at h
    split at h
    · rename_i hverify
      cases h
      exact ⟨signing, hverify⟩
    · cases h
    · cases h

end MoneroOxide
