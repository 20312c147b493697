import MoneroOxide.Lemmas.SendMultisig

/-!
# Consistency of a multisig transaction

The key images a transaction is made with are computed apart from the algorithms which sign with them, and the inputs are sorted
apart from their machines. Whatever the other participants send, both agree, so that what is completed verifies.
-/

namespace MoneroOxide

open ClsagMultisig

variable {Γ : Ctx} {F : Frost Γ}

/-- What a machine of a transaction is for: the ring, the opening of the commitment, and the key image. -/
def AlgorithmSignatureMachine.purpose (machine : AlgorithmSignatureMachine F) : Decoys Γ × Commitment × CompressedPoint :=
  (machine.algorithm.context.decoys, machine.algorithm.context.commitment, Γ.compress machine.algorithm.image)

/-- The machines, their images and the transaction are those of the inputs as they are sorted, and a transaction which is completed
verifies. -/
theorem multisig_consistent (hF : F.Lawful) {t : SignableTransaction Γ} (hreturned : SignableTransaction.Returned t)
    {keys : F.ThresholdKeys} {machine : TransactionMachine F} {rng : Rng} {commitments : ParticipantMap (List F.Preprocess)}
    {msg : List UInt8} {signatureMachine : TransactionSignatureMachine F} {ownShares : List F.SignatureShare}
    (hmachine : t.multisig F keys = .ok machine)
    (hsign : (machine.preprocess rng).1.1.sign commitments msg = .ok (signatureMachine, ownShares)) :
    ∃ (images : List (CompressedPoint × List (Participant × F.Preprocess))) (sorted : SignableTransactionWithKeyImages Γ),
      (machine.preprocess rng).1.1.imagesAndCommitments (commitments.remove (F.i keys)) = .ok images ∧
      sorted = t.withKeyImages (images.map Prod.fst) ∧
      t.unsignedTransaction (images.map Prod.fst) = .ok (some signatureMachine.tx) ∧
      signatureMachine.clsags.map AlgorithmSignatureMachine.purpose =
        (sorted.intent.inputs.zip sorted.keyImages).map (fun input => (input.1.decoys, input.1.commitment, input.2)) ∧
      ∀ (shares : ParticipantMap (List F.SignatureShare)) (tx : Transaction NotPruned), signatureMachine.complete shares = .ok tx →
        ∃ (txPrefix : TransactionPrefix) (base : RctBase) (clsags : List Clsag) (pseudoOuts : List CompressedPoint)
          (bulletproof : Bulletproof) (msgHash : Bytes 32),
          tx = .V2 txPrefix (some { base, prunable := .Clsag clsags pseudoOuts bulletproof : RctProofs }) ∧
          txPrefix.inputs = (sorted.intent.inputs.zip sorted.keyImages).map
            (fun input => .ToKey none input.1.decoys.offsets input.2) ∧
          clsags.length = txPrefix.inputs.length ∧ pseudoOuts.length = txPrefix.inputs.length ∧
          tx.signatureHash Γ = some msgHash ∧
          ∀ (i : ℕ) (input : OutputWithDecoys Γ) (keyImage : CompressedPoint) (clsag : Clsag) (pseudoOut : CompressedPoint),
            sorted.intent.inputs[i]? = some input → sorted.keyImages[i]? = some keyImage → clsags[i]? = some clsag →
            pseudoOuts[i]? = some pseudoOut →
            Clsag.verify Γ clsag (Clsag.compressRing Γ input.decoys.ring) keyImage pseudoOut msgHash = .ok () := by
  have hv := hreturned.valid
  obtain ⟨images, masks, himages, hshares⟩ := signedShares_of_sign hF hv (prepared_preprocess hmachine rng) hsign
  set keyImages := images.map Prod.fst
  have hlenSorted := SignableTransaction.length_sorted hshares.length_keyImages
  refine ⟨images, t.withKeyImages keyImages, himages, rfl, ?_, ?_, ?_⟩
  · obtain ⟨bp, hunsigned, htx⟩ := hshares.unsigned
    rw [SignableTransaction.unsignedTransaction, if_neg (not_not.2 hshares.length_keyImages.symm), hunsigned, htx]
    rfl
  · obtain ⟨msgHash, -, hsigns⟩ := hshares.signs
    rw [SignableTransaction.zip_withKeyImages]
    conv_rhs => rw [← List.map_fst_zip (hlenSorted.trans hshares.length_masks.symm).le, List.map_map]
    refine (Lists.map_eq_map (hsigns.imp fun im clsag halgorithm => ?_)).symm
    rw [Function.comp_apply, AlgorithmSignatureMachine.purpose, halgorithm.decoys, halgorithm.commitment, halgorithm.image]
  · intro shares tx hcomplete
    obtain ⟨signatures, hsigned, msgHash, hhash, hverifies⟩ := signed_of_complete hF hshares hcomplete
    obtain ⟨bp, -, rfl⟩ := hsigned.filled
    have hinputs : ((t.withKeyImages keyImages).intent.prefixOf (t.withKeyImages keyImages).keyImages).inputs =
        ((t.withKeyImages keyImages).intent.inputs.zip (t.withKeyImages keyImages).keyImages).map
          fun input => .ToKey none input.1.decoys.offsets input.2 := rfl
    have hlen : ((t.withKeyImages keyImages).intent.prefixOf (t.withKeyImages keyImages).keyImages).inputs.length =
        signatures.length := by
      rw [hinputs, List.length_map, SignableTransaction.zip_withKeyImages, hlenSorted, hsigned.length_signatures]
    refine ⟨_, _, signatures.map Prod.fst, signatures.map fun signed => Γ.compress signed.2, bp, msgHash, rfl, hinputs,
      (List.length_map _).trans hlen.symm, (List.length_map _).trans hlen.symm, hhash, ?_⟩
    intro i input keyImage clsag pseudoOut hinput hkeyImage hclsag hpseudoOut
    obtain ⟨signed, hsignature, rfl⟩ : ∃ signed, signatures[i]? = some signed ∧ signed.1 = clsag := by
      simpa [List.getElem?_map] using hclsag
    rw [List.getElem?_map, hsignature, Option.map_some, Option.some.injEq] at hpseudoOut
    have hsortedInput : (t.sorted keyImages)[i]? = some (input, keyImage) := by
      rw [← SignableTransaction.zip_withKeyImages]
      simp [List.getElem?_zip_eq_some, hinput, hkeyImage]
    rw [← hpseudoOut]
    exact Lists.forall₂_getElem? hverifies hsortedInput hsignature

/-! ## A multisig of one signs -/

/-- The one participant signs its share, for the key `1` of a ring. -/
theorem soloSign_eq {context : ClsagContext Γ} (hkey : context.decoys.signerRingMembers.1 = Γ.G) (transcript : Transcript)
    (mask : Scalar) (msgHash : Bytes 32) :
    ∃ processed : ClsagMultisig Γ, processed.context = context ∧ processed.image = Clsag.imageGenerator context ∧
      soloSign (soloView Γ (1, 0)) ((new transcript context).preprocessAddendum 1) msgHash ((new transcript context).send mask) =
        .ok (1 - (signOf processed mask msgHash Γ.G (Clsag.imageGenerator context)).keyChallenge * (1 + 0))
          (afterShare processed mask msgHash Γ.G (Clsag.imageGenerator context)) := by
  set addendum := (new transcript context).preprocessAddendum 1
  have hview : (soloView Γ (1, 0)).groupKey = context.decoys.signerRingMembers.1 := by
    rw [hkey]
    change ((1 : Scalar) + 0) • Γ.G = Γ.G
    rw [add_zero, Scalar.one_smul]
  have hspec : ∃ processed, run (soloView Γ (1, 0)) [.addendum 1 addendum] ((new transcript context).send mask) = .ok () processed ∧
      Holds context (Clsag.imageGenerator context) mask ((soloView Γ (1, 0)).offset • Clsag.imageGenerator context +
        interpolatedSum (soloView Γ (1, 0)) [.addendum 1 addendum]) processed :=
    run_spec hview [.addendum 1 addendum] (List.cons_ne_nil _ _) (by simp [addenda, soloView]) rfl rfl rfl rfl
  obtain ⟨processed, hrun, hholds⟩ := hspec
  refine ⟨processed, hholds.context_eq, ?_, ?_⟩
  · rw [hholds.image_eq]
    change (0 : Scalar) • Clsag.imageGenerator context +
      ((1 : Scalar) • (1 : Scalar) • (1 : Scalar) • Clsag.imageGenerator context + 0) = _
    rw [Scalar.zero_smul, Scalar.one_smul, Scalar.one_smul, Scalar.one_smul, zero_add, add_zero]
  · change EStateM.bind (run (soloView Γ (1, 0)) [.addendum 1 addendum]) _ _ = _
    rw [EStateM.bind, hrun]
    change signShare (soloView Γ (1, 0)) (Γ.G, processed.keyImageGenerator) 1 msgHash processed = _
    rw [hholds.generator_eq, signShare_eq hholds.mask_eq]
    rfl

/-- The one share completes a signature. -/
theorem verify_soloSign {context : ClsagContext Γ} (hkey : context.decoys.signerRingMembers.1 = Γ.G)
    (hgenerator : Clsag.imageGenerator context ≠ 0) {mask : Scalar} (hmask : mask ≠ context.commitment.mask) (msgHash : Bytes 32)
    {processed : ClsagMultisig Γ} (hcontext : processed.context = context)
    (himage : processed.image = Clsag.imageGenerator context) :
    ∃ signature, (afterShare processed mask msgHash Γ.G (Clsag.imageGenerator context)).verify
      (1 - (signOf processed mask msgHash Γ.G (Clsag.imageGenerator context)).keyChallenge * (1 + 0)) = .ok (some signature) := by
  have hx : (1 : Scalar) • Γ.G = context.decoys.signerRingMembers.1 := by rw [Scalar.one_smul, hkey]
  have hsigned : signOf processed mask msgHash Γ.G (Clsag.imageGenerator context) =
      (Clsag.signCore (Γ.chaCha20 (Γ.rngSeed (processed.transcript.appendMessage "rng_seed" (ascii "decoy_responses"))))
        ((1 : Scalar) • Clsag.imageGenerator context) context mask msgHash ((1 : Scalar) • Γ.G)
        ((1 : Scalar) • Clsag.imageGenerator context)).1 := by
    rw [signOf, hcontext, himage, Scalar.one_smul, Scalar.one_smul]
  have hverify := Clsag.verify_signCore hx one_ne_zero hgenerator hmask hsigned
  refine ⟨_, verify_afterShare rfl ?_⟩
  rw [hcontext, himage, add_zero, sub_sub]
  rw [Scalar.one_smul] at hverify
  exact hverify

theorem signOne_soloFrost {algorithm algorithm' : ClsagMultisig Γ} {keys : Scalar × Scalar} {addendum : ClsagAddendum Γ}
    {msgHash : Bytes 32} {share : Scalar} (h : soloSign (soloView Γ keys) addendum msgHash algorithm = .ok share algorithm') :
    TransactionSignMachine.signOne (F := soloFrost Γ) msgHash ({ algorithm, keys, nonces := (), preprocess := addendum }, []) =
      .ok ({ algorithm := algorithm', signing := share }, share) := by
  have hsign : soloFrostSign algorithm keys addendum [] msgHash = .ok (algorithm', share, share) := by
    simp only [soloFrostSign, List.isEmpty_nil, if_true, h]
  change (soloFrostSign algorithm keys addendum [] msgHash >>= fun result => _) = _
  rw [hsign]
  rfl

theorem complete_soloFrost {tx : Transaction NotPruned} {algorithm : ClsagMultisig Γ} {share : Scalar} {signature : Clsag × Γ.Point}
    (h : algorithm.verify share = .ok (some signature)) :
    TransactionSignatureMachine.complete (F := soloFrost Γ)
    { tx, clsags := [{ algorithm, signing := share }] } ⟨[], List.nodup_nil⟩ =
      expectOk (SignableTransaction.fillIn
        "internal error: entered unreachable code: attempted to sign a multisig TX which wasn't CLSAG" tx
        [(signature.1, Γ.compress signature.2)]) := by
  have hcomplete : soloComplete algorithm share = .ok signature := by simp only [soloComplete, h]
  have hone : TransactionSignatureMachine.completeOne (F := soloFrost Γ) ⟨[], List.nodup_nil⟩ 0 { algorithm, signing := share } =
      .ok (signature.1, Γ.compress signature.2) := by
    change (soloComplete algorithm share >>= fun result => _) = _
    rw [hcomplete]
    rfl
  rw [TransactionSignatureMachine.complete, if_neg (by simp)]
  change (List.mapM _ [(_, 0)] >>= _) = _
  rw [List.mapM_cons, hone]
  rfl

namespace SignableTransaction

section

variable (amount : UInt64) (feeRate : FeeRate)

/-- The change of the sample, whose masks add up to `2`. -/
def multisigSample : SignableTransaction instanceCtx := sample amount (.Change (.AddressOnly sampleAddress)) feeRate

/-- The context of its input. -/
def multisigContext : ClsagContext instanceCtx where
  commitment := (sampleInput amount).commitment
  decoys := (sampleInput amount).decoys
  opens := by rw [(spends_sampleInput amount).signer]

/-- The machine of its input. -/
def multisigMachine : AlgorithmMachine (soloFrost instanceCtx) where
  algorithm := ClsagMultisig.new (Transcript.new "Monero Multisignature Transaction") (multisigContext amount)
  keys := ((1, 0) : Scalar × Scalar)

theorem multisigInput_sample : multisigInput (soloFrost instanceCtx) ((1, 0) : Scalar × Scalar) (sampleInput amount) =
    .ok (((multisigMachine amount).algorithm.keyImageGenerator, 1, 0), multisigMachine amount) := by
  have hscale : (soloFrost instanceCtx).scale ((1, 0) : Scalar × Scalar) 1 = some ((1, 0) : Scalar × Scalar) := by
    change (if (1 : Scalar) = 0 then none else some ((1 : Scalar) * 1, (0 : Scalar) * 1)) = _
    rw [if_neg one_ne_zero, mul_one, mul_one]
  have hoffset : (soloFrost instanceCtx).offset ((1, 0) : Scalar × Scalar) (sampleInput amount).keyOffset =
      ((1, 0) : Scalar × Scalar) := by
    change ((1 : Scalar), (0 : Scalar) + 0) = _
    rw [add_zero]
  have hkey : (soloFrost instanceCtx).groupKey ((1, 0) : Scalar × Scalar) = (sampleInput amount).key :=
    (spends_sampleInput amount).key_eq
  have hcontext : ClsagContext.new (sampleInput amount).decoys (sampleInput amount).commitment = .ok (multisigContext amount) :=
    dif_pos (multisigContext amount).opens
  simp only [multisigInput, hscale, hoffset, hkey, hcontext, ne_eq, not_true_eq_false, if_false]
  rfl

theorem multisig_sample : (multisigSample amount feeRate).multisig (soloFrost instanceCtx) ((1, 0) : Scalar × Scalar) = .ok
    { signable := multisigSample amount feeRate, keys := ((1, 0) : Scalar × Scalar),
      keyImageGeneratorsAndLincombs := [((multisigMachine amount).algorithm.keyImageGenerator, 1, 0)], clsags :=
        [multisigMachine amount] } := by
  have hmapM : (multisigSample amount feeRate).inputs.mapM (multisigInput (soloFrost instanceCtx) ((1, 0) : Scalar × Scalar)) =
      .ok [(((multisigMachine amount).algorithm.keyImageGenerator, 1, 0), multisigMachine amount)] :=
    Results.mapM_eq_ok.2 (.cons (multisigInput_sample amount) .nil)
  unfold SignableTransaction.multisig
  rw [hmapM]
  rfl

/-- The machine of its input after the first round. -/
def algorithmSignMachineSample : AlgorithmSignMachine (soloFrost instanceCtx) where
  algorithm := (multisigMachine amount).algorithm
  keys := ((1, 0) : Scalar × Scalar)
  nonces := ()
  preprocess := (multisigMachine amount).algorithm.preprocessAddendum 1

/-- The machine after the first round. -/
def signMachineSample : TransactionSignMachine (soloFrost instanceCtx) where
  signable := multisigSample amount feeRate
  keys := ((1, 0) : Scalar × Scalar)
  keyImageGeneratorsAndLincombs := [((multisigMachine amount).algorithm.keyImageGenerator, 1, 0)]
  clsags := [algorithmSignMachineSample amount]
  ourPreprocess := [(multisigMachine amount).algorithm.preprocessAddendum 1]

/-- No messages, as there are no other participants. -/
def noMessages (α : Type) : ParticipantMap α := ⟨[], List.nodup_nil⟩

theorem preprocess_sample (rng : Rng) : (TransactionMachine.preprocess
    { signable := multisigSample amount feeRate, keys := ((1, 0) : Scalar × Scalar),
      keyImageGeneratorsAndLincombs := [((multisigMachine amount).algorithm.keyImageGenerator, 1, 0)], clsags :=
        [multisigMachine amount] :
      TransactionMachine (soloFrost instanceCtx) } rng).1.1 = signMachineSample amount feeRate := rfl

theorem remove_noMessages (α : Type) (l : Participant) : (noMessages α).remove l = noMessages α := rfl

theorem imagesAndCommitments_sample : ∃ keyImage, (signMachineSample amount feeRate).imagesAndCommitments (noMessages _) =
    .ok [(keyImage, [])] := by
  have hincluded : (signMachineSample amount feeRate).includedOf (noMessages _) = [1] := List.mergeSort_singleton _
  have hview : (soloFrost instanceCtx).view (signMachineSample amount feeRate).keys [1] = some (soloView instanceCtx (1, 0)) :=
    view_soloFrost (1, 0)
  simp only [TransactionSignMachine.imagesAndCommitments, hincluded, hview, Results.ok_bind]
  exact ⟨_, rfl⟩

/-- The second round of the multisig of one, and the completion of its signature. -/
theorem exists_complete_signWith (hv : (multisigSample amount feeRate).Valid) (keyImage : CompressedPoint) :
    ∃ (machine : TransactionSignatureMachine (soloFrost instanceCtx)) (shares : List (soloFrost instanceCtx).SignatureShare)
    (tx : Transaction NotPruned),
      (signMachineSample amount feeRate).signWith [(keyImage, [])] = .ok (machine, shares) ∧
      machine.complete (noMessages _) = .ok tx := by
  have hkey : (multisigContext amount).decoys.signerRingMembers.1 = instanceCtx.G := by
    change (sampleInput amount).decoys.signerRingMembers.1 = _
    rw [(spends_sampleInput amount).signer]
    rfl
  have hgenerator : Clsag.imageGenerator (multisigContext amount) ≠ 0 := by
    rw [Clsag.imageGenerator, biasedHash_instanceCtx]
    exact instanceCtx_G_ne_zero
  have hreorders : Reorders (multisigSample amount feeRate) ((multisigSample amount feeRate).withKeyImages [keyImage]).intent :=
    reorders_withKeyImages rfl
  obtain ⟨bp, hunsigned, -⟩ :=
    (hv.reorders hreorders).transactionWithoutSignatures_eq ((multisigSample amount feeRate).withKeyImages [keyImage]).keyImages
  have hunsigned : ((multisigSample amount feeRate).withKeyImages [keyImage]).transactionWithoutSignatures = .ok _ := hunsigned
  set tx₀ := (multisigSample amount feeRate).withKeyImages [keyImage] with htx₀
  set msgHash := tx₀.intent.toSign tx₀.keyImages bp with hmsgHash
  set mask := tx₀.intent.maskSum tx₀.keyImages - 0 with hmask
  obtain ⟨processed, hcontext, himage, hsolo⟩ :=
    soloSign_eq hkey (Transcript.new "Monero Multisignature Transaction") mask msgHash
  have hne : mask ≠ (multisigContext amount).commitment.mask := by
    have hlength : tx₀.intent.payments.length = 2 := rfl
    have hzero : (multisigContext amount).commitment.mask = 0 := rfl
    rw [hmask, sub_zero, maskSum_instanceCtx, hlength, hzero]
    decide +kernel
  obtain ⟨signature, hverify⟩ := verify_soloSign hkey hgenerator hne msgHash hcontext himage
  set algorithm := afterShare processed mask msgHash instanceCtx.G (Clsag.imageGenerator (multisigContext amount))
  set share := 1 - (signOf processed mask msgHash instanceCtx.G (Clsag.imageGenerator (multisigContext amount))).keyChallenge * (1 + 0)
  have hsign : (signMachineSample amount feeRate).signWith [(keyImage, [])] =
      .ok ({ tx := tx₀.intent.txWith tx₀.keyImages bp [] [], clsags := [{ algorithm, signing := share }] }, [share]) := by
    have hmasks := (hv.reorders hreorders).sumOutputMasks_eq tx₀.keyImages
    have hsignable : (signMachineSample amount feeRate).signable = multisigSample amount feeRate := rfl
    simp only [TransactionSignMachine.signWith, List.map_cons, List.map_nil, expectOk, hsignable, ← htx₀, hmasks, hunsigned,
      Results.ok_bind, signatureHash_txWith]
    have hclsags : Sorting.sortBy keyImageSort Prod.fst ([keyImage].zip ((signMachineSample amount feeRate).clsags.zip
          [([] : List (Participant × (soloFrost instanceCtx).Preprocess))])) =
            [(keyImage, algorithmSignMachineSample amount, [])] := Sorting.sortBy_singleton _ _ _
    have hone : TransactionSignMachine.signOne (F := soloFrost instanceCtx) msgHash
        ({ algorithmSignMachineSample amount with algorithm := (multisigMachine amount).algorithm.send mask }, []) =
          .ok ({ algorithm, signing := share }, share) := signOne_soloFrost hsolo
    rw [hclsags, List.map_cons, List.map_nil]
    refine Results.bind_eq_ok.2 ⟨_, Results.mapM_eq_ok.2 (.cons hone .nil), rfl⟩
  have hcomplete : TransactionSignatureMachine.complete (F := soloFrost instanceCtx)
      { tx := tx₀.intent.txWith tx₀.keyImages bp [] [], clsags := [{ algorithm, signing := share }] } (noMessages _) =
      .ok (tx₀.intent.txWith tx₀.keyImages bp [signature.1] [instanceCtx.compress signature.2]) := by
    rw [noMessages, complete_soloFrost hverify, fillIn_txWith]
    rfl
  exact ⟨_, _, _, hsign, hcomplete⟩

/-- The multisig of one returns a transaction. -/
theorem exists_complete_sample (hv : (multisigSample amount feeRate).Valid) (rng : Rng) :
    ∃ (machine : TransactionMachine (soloFrost instanceCtx))
      (signatureMachine : TransactionSignatureMachine (soloFrost instanceCtx)) (keyImage : CompressedPoint)
      (shares : List (soloFrost instanceCtx).SignatureShare) (tx : Transaction NotPruned),
      (multisigSample amount feeRate).multisig (soloFrost instanceCtx) ((1, 0) : Scalar × Scalar) = .ok machine ∧
      (machine.preprocess rng).1.1.imagesAndCommitments (noMessages _) = .ok [(keyImage, [])] ∧
      (machine.preprocess rng).1.1.sign (noMessages _) [] = .ok (signatureMachine, shares) ∧
      signatureMachine.complete (noMessages _) = .ok tx := by
  obtain ⟨keyImage, himages⟩ := imagesAndCommitments_sample amount feeRate
  obtain ⟨machine, shares, tx, hsign, hcomplete⟩ := exists_complete_signWith amount feeRate hv keyImage
  refine ⟨_, machine, keyImage, shares, tx, multisig_sample amount feeRate, himages, ?_, hcomplete⟩
  rw [preprocess_sample, TransactionSignMachine.sign, if_neg (by simp), if_neg (by simp [noMessages]), remove_noMessages]
  dsimp only
  rw [himages, Results.ok_bind]
  exact hsign

/-- One input is sorted as it is. -/
theorem withKeyImages_sample (keyImage : CompressedPoint) :
    (multisigSample amount feeRate).withKeyImages [keyImage] =
    { intent := multisigSample amount feeRate, keyImages := [keyImage] } := by
  have hsorted : Sorting.sortBy keyImageSort Prod.snd ((multisigSample amount feeRate).inputs.zip [keyImage]) =
      [(sampleInput amount, keyImage)] := Sorting.sortBy_singleton _ _ _
  simp only [withKeyImages, hsorted]
  rfl

end

/-- What the multisig of one completes verifies. -/
theorem multisig_consistent_solo :
    ∃ (signatureMachine : TransactionSignatureMachine (soloFrost instanceCtx)) (tx : Transaction NotPruned)
    (txPrefix : TransactionPrefix)
      (base : RctBase) (clsag : Clsag) (pseudoOut keyImage : CompressedPoint) (bulletproof : Bulletproof) (msgHash : Bytes 32),
      signatureMachine.complete (noMessages _) = .ok tx ∧
      tx = .V2 txPrefix (some { base, prunable := .Clsag [clsag] [pseudoOut] bulletproof : RctProofs }) ∧
      txPrefix.inputs = [.ToKey none (sampleInput 2000).decoys.offsets keyImage] ∧ tx.signatureHash instanceCtx = some msgHash ∧
      Clsag.verify instanceCtx clsag (Clsag.compressRing instanceCtx (sampleInput 2000).decoys.ring) keyImage pseudoOut msgHash =
        .ok () := by
  have hv : (multisigSample 2000 ⟨1, 1, by decide⟩).Valid :=
    valid_sample (.inr rfl) (j := 2) (by decide) (by decide) (by decide) (by decide)
  obtain ⟨machine, signatureMachine, keyImage, ownShares, tx, hmachine, hone, hsign, hcomplete⟩ :=
    exists_complete_sample 2000 ⟨1, 1, by decide⟩ hv (Stream'.const (Bytes.replicate 64 0))
  obtain ⟨images, sorted, himages, rfl, -, -, hverifies⟩ :=
    multisig_consistent (lawful_soloFrost instanceCtx) (.new (new_sample_change hv)) hmachine hsign
  rw [remove_noMessages, hone, Except.ok.injEq] at himages
  subst himages
  have hsample := withKeyImages_sample 2000 ⟨1, 1, by decide⟩ keyImage
  rw [multisigSample] at hsample
  rw [List.map_singleton, hsample] at hverifies
  obtain ⟨txPrefix, base, clsags, pseudoOuts, bulletproof, msgHash, htx, hinputs, hclsags, hpseudoOuts, hhash, hverify⟩ :=
    hverifies _ tx hcomplete
  rw [hinputs] at hclsags hpseudoOuts
  obtain ⟨clsag, rfl⟩ := List.length_eq_one_iff.1 hclsags
  obtain ⟨pseudoOut, rfl⟩ := List.length_eq_one_iff.1 hpseudoOuts
  exact ⟨signatureMachine, tx, txPrefix, base, clsag, pseudoOut, keyImage, bulletproof, msgHash, hcomplete, htx, hinputs, hhash,
    hverify 0 _ _ _ _ rfl rfl rfl rfl⟩

end SignableTransaction

end MoneroOxide
