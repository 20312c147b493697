import MoneroOxide.Eventuality
import MoneroOxide.Lemmas.SendCodec
import MoneroOxide.Lemmas.SendMultisig
import MoneroOxide.Theorems.SendScan

/-!
# What an eventuality matches

An eventuality matches the transactions its intent is signed to, whose inputs were sorted after their key images were known: of the
inputs, only the key images are used for the outputs, and they are taken from the transaction. What is matched creates the outputs for
the recipients, whoever made it.
-/

namespace MoneroOxide

namespace Eventuality

variable {Γ : Ctx} {t : SignableTransaction Γ} {tx : Transaction Pruned}

/-- One check after the other. -/
theorem check_eq_true {c : Prop} [Decidable c] {x : Send Bool} : (if c then pure false else x) = .ok true ↔ ¬c ∧ x = .ok true := by
  by_cases h : c <;> simp [h]

theorem uniqueness_of_keyImages {inputs : List Input} {keyImages : List CompressedPoint}
    (h : inputs.mapM keyImage? = some keyImages) :
    SharedKeyDerivations.uniqueness Γ inputs = Γ.keccak256 (ascii "uniqueness" ++ keyImages.flatMap Bytes.toList) := by
  rw [SharedKeyDerivations.uniqueness, List.flatMap_def, List.flatMap_def]
  congr 3
  refine Lists.map_eq_map ((Results.mapM_eq_some.1 h).imp fun input keyImage hinput => ?_)
  cases input with
  | Gen height => cases hinput
  | ToKey amount keyOffsets image =>
    cases hinput
    rfl

theorem keyImages_txInputs {keyImages : List CompressedPoint} (hlen : keyImages.length = t.inputs.length) :
    (t.txInputs keyImages).mapM keyImage? = some keyImages := by
  rw [Results.mapM_eq_some, SignableTransaction.txInputs, List.forall₂_map_left_iff]
  have hzip : List.Forall₂ (fun pair keyImage => pair.2 = keyImage) (t.inputs.zip keyImages)
    ((t.inputs.zip keyImages).map Prod.snd) :=
    List.forall₂_map_right_iff.2 (List.forall₂_same.2 fun _ _ => rfl)
  rw [List.map_snd_zip hlen.le] at hzip
  exact hzip.imp fun pair keyImage hkeyImage => congrArg some hkeyImage

theorem matchesOutputs_eq_true (hv : t.Valid) {keyImages : List CompressedPoint} :
    ({ intent := t } : Eventuality Γ).matchesOutputs tx keyImages = .ok true ↔ tx.txPrefix.outputs = t.outputList keyImages ∧
      ∃ txPrefix, ∃ proofs : PrunedRctProofs, tx = .V2 txPrefix (some proofs) ∧
        proofs.base.commitments = ((t.openings keyImages).map fun pair => Γ.compress (pair.1.commit Γ)) ∧
        proofs.base.encryptedAmounts = (t.openings keyImages).map Prod.snd := by
  rw [matchesOutputs, SignableTransaction.outputs_eq hv.supported hv.hasPayment, Results.ok_bind, check_eq_true, not_ne_iff,
    hv.commitmentsAndEncryptedAmounts_eq, Results.ok_bind]
  refine and_congr eq_comm ?_
  cases tx with
  | V1 txPrefix signatures => simp
  | V2 txPrefix proofs =>
    cases proofs with
    | none => simp
    | some proofs =>
      constructor
      · intro h
        obtain ⟨hcommitments, h⟩ := check_eq_true.1 h
        obtain ⟨hamounts, -⟩ := check_eq_true.1 h
        exact ⟨txPrefix, proofs, rfl, not_ne_iff.1 hcommitments, not_ne_iff.1 hamounts⟩
      · rintro ⟨_, _, heq, hcommitments, hamounts⟩
        cases heq
        exact check_eq_true.2 ⟨not_ne_iff.2 hcommitments, check_eq_true.2 ⟨not_ne_iff.2 hamounts, rfl⟩⟩

/-- What is matched: a transaction which is not locked, with as many inputs, which creates the outputs with its key images. -/
theorem matchesTx_eq_true (hv : t.Valid) : ({ intent := t } : Eventuality Γ).matchesTx tx = .ok true ↔
    tx.txPrefix.additionalTimelock = .None ∧ tx.txPrefix.inputs.length = t.inputs.length ∧
      ∃ keyImages, tx.txPrefix.inputs.mapM keyImage? = some keyImages ∧ t.Creates keyImages tx := by
  rw [matchesTx, SignableTransaction.extra_eq hv.hasPayment, Results.ok_bind, check_eq_true, check_eq_true,
    check_eq_true, not_ne_iff,
    not_ne_iff, not_ne_iff]
  constructor
  · rintro ⟨hextra, htimelock, hlen, hmatch⟩
    cases hkeyImages : tx.txPrefix.inputs.mapM keyImage? with
    | none =>
      rw [hkeyImages] at hmatch
      cases hmatch
    | some keyImages =>
      rw [hkeyImages] at hmatch
      obtain ⟨houtputs, hproofs⟩ := (matchesOutputs_eq_true hv).1 hmatch
      have hlength : keyImages.length = t.inputs.length := (Results.mapM_eq_some.1 hkeyImages).length_eq.symm.trans hlen
      refine ⟨htimelock, hlen, keyImages, rfl, ?_, houtputs, hextra.symm, hproofs⟩
      rw [uniqueness_of_keyImages hkeyImages, SignableTransaction.uniqueness_txInputs hlength]
  · rintro ⟨htimelock, hlen, keyImages, hkeyImages, hcreates⟩
    refine ⟨hcreates.extra.symm, htimelock, hlen, ?_⟩
    rw [hkeyImages]
    exact (matchesOutputs_eq_true hv).2 ⟨hcreates.outputs, hcreates.proofs⟩

/-- Whatever signatures are filled in, the transaction for the key images is matched. -/
theorem matchesTx_txWith (hv : t.Valid) {keyImages : List CompressedPoint} (hlen : keyImages.length = t.inputs.length)
    (bp : Bulletproof) (clsags : List Clsag) (pseudoOuts : List CompressedPoint) :
    ({ intent := t } : Eventuality Γ).matchesTx
      ((t.withKeyImages keyImages).intent.txWith (t.withKeyImages keyImages).keyImages bp clsags pseudoOuts).toPruned =
        .ok true := by
  have hlen' := SignableTransaction.length_keyImages_withKeyImages t keyImages
  have hinputs : (t.withKeyImages keyImages).intent.inputs.length = t.inputs.length :=
    (SignableTransaction.reorders_withKeyImages hlen).inputs.length_eq
  refine (matchesTx_eq_true hv).2 ⟨rfl, ?_, _, keyImages_txInputs hlen', hv.creates_txWith hlen bp clsags pseudoOuts⟩
  exact (SignableTransaction.length_txInputs hlen').trans hinputs

/-- The eventuality of what is to be sent, also if it was written and read back, matches whatever it is signed to, by a single signer or
a multisig; and whatever it matches is not locked, has as many inputs, and has the outputs, with their commitments and encrypted
amounts, which the recipients recover their payments from. -/
theorem matches_complete_and_sound {F : Frost Γ} (hF : F.Lawful) (hreturned : SignableTransaction.Returned t) :
    (∀ tx : Transaction NotPruned, SignsTo F t tx →
      ({ intent := t } : Eventuality Γ).matchesTx tx.toPruned = .ok true ∧
        ∀ rest, ∃ eventuality, Eventuality.read Γ (({ intent := t } : Eventuality Γ).write ++ rest) = .ok (eventuality, rest) ∧
          eventuality.matchesTx tx.toPruned = .ok true) ∧
    ∀ tx : Transaction Pruned, ({ intent := t } : Eventuality Γ).matchesTx tx = .ok true →
      tx.txPrefix.additionalTimelock = .None ∧ tx.txPrefix.inputs.length = t.inputs.length ∧ t.Recoverable tx := by
  have hv := hreturned.valid
  refine ⟨?_, ?_⟩
  · intro tx hsigns
    obtain ⟨keyImages, masks, signatures, hsigned⟩ := hsigns.signed hF hv
    obtain ⟨bp, -, rfl⟩ := hsigned.filled
    have hmatches := matchesTx_txWith hv hsigned.length_keyImages bp (signatures.map Prod.fst)
      (signatures.map fun signed => Γ.compress signed.2)
    refine ⟨hmatches, ?_⟩
    intro rest
    refine ⟨{ intent := t }, ?_, hmatches⟩
    rw [Eventuality.read, Eventuality.write, hv.read_write]
    rfl
  · intro tx hmatches
    obtain ⟨htimelock, hlen, keyImages, -, hcreates⟩ := (matchesTx_eq_true hv).1 hmatches
    exact ⟨htimelock, hlen, hcreates.recoverable hv⟩

/-- The eventuality of the sample matches what it is signed to, from which the payment is recovered. -/
theorem matches_complete_and_sound_sample : ∃ tx : Transaction NotPruned,
    SignsTo (soloFrost instanceCtx) SignableTransaction.sentSample tx ∧
      ({ intent := SignableTransaction.sentSample } : Eventuality instanceCtx).matchesTx tx.toPruned = .ok true ∧
      SignableTransaction.sentSample.Recoverable tx.toPruned := by
  obtain ⟨tx, rng, hsign⟩ := SignableTransaction.exists_sign_sample SignableTransaction.valid_sentSample
    (Stream'.const (Bytes.replicate 64 0))
  obtain ⟨hcomplete, hsound⟩ := matches_complete_and_sound (lawful_soloFrost instanceCtx)
    (.new (SignableTransaction.new_sample_change SignableTransaction.valid_sentSample))
  have hsigns : SignsTo (soloFrost instanceCtx) SignableTransaction.sentSample tx := .sign hsign
  have hmatches := (hcomplete tx hsigns).1
  exact ⟨tx, hsigns, hmatches, (hsound tx.toPruned hmatches).2.2⟩

end Eventuality

end MoneroOxide
