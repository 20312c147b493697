import MoneroOxide.Lemmas.SendMultisig

/-!
# Balance and validity of signed transactions

What was checked once, for one order of the inputs and the payments, is all that is needed in any order: the amounts are computed
again without an overflow, nothing is created or lost, and each signature verifies for its own input.
-/

namespace MoneroOxide

/-- The sum of the pseudo-outs is that of the output commitments and of the fee. -/
def Transaction.Balanced (Γ : Ctx) (tx : Transaction NotPruned) : Prop :=
  ∃ (txPrefix : TransactionPrefix) (base : RctBase) (clsags : List Clsag) (bulletproof : Bulletproof)
    (pseudoOuts commitments : List Γ.Point),
    tx = .V2 txPrefix (some { base, prunable := .Clsag clsags (pseudoOuts.map Γ.compress) bulletproof : RctProofs }) ∧
    base.commitments = commitments.map Γ.compress ∧
    pseudoOuts.sum = commitments.sum + Commitment.amountScalar base.fee • Γ.H

namespace SignableTransaction

variable {Γ : Ctx} {t t' : SignableTransaction Γ}

/-- The amounts of the outputs and the fee of a transaction which is built are those of the inputs. -/
structure Conserves (t : SignableTransaction Γ) (keyImages : List CompressedPoint) : Prop where
  built : ∃ (openings : List (Commitment × EncryptedAmount)) (txPrefix : TransactionPrefix) (base : RctBase)
    (prunable : RctPrunable),
    t.commitmentsAndEncryptedAmounts keyImages = .ok openings ∧
    SignableTransactionWithKeyImages.transactionWithoutSignatures { intent := t, keyImages } =
      .ok (.V2 txPrefix (some { base, prunable : RctProofs })) ∧
    base.commitments = openings.map (fun opening => Γ.compress (opening.1.commit Γ)) ∧
    (openings.map fun opening => opening.1.amount.toNat).sum + base.fee.toNat =
      (t.inputs.map fun input => input.commitment.amount.toNat).sum

theorem Valid.conserves (hv : t.Valid) (keyImages : List CompressedPoint) : t.Conserves keyImages := by
  obtain ⟨bp, hunsigned, -⟩ := hv.transactionWithoutSignatures_eq keyImages
  refine ⟨t.openings keyImages, t.prefixOf keyImages, t.baseOf keyImages, .Clsag [] [] bp,
    hv.commitmentsAndEncryptedAmounts_eq keyImages, hunsigned, rfl, ?_⟩
  rw [sum_amount_openings]
  exact hv.conserved

theorem Signed.balanced_tx (hv : t.Valid) {keyImages : List CompressedPoint} {masks : List Scalar}
    {signatures : List (Clsag × Γ.Point)} {tx : Transaction NotPruned} (h : Signed t keyImages masks signatures tx) :
    tx.Balanced Γ := by
  have hbalanced := h.balanced hv
  obtain ⟨bp, -, rfl⟩ := h.filled
  refine ⟨(t.withKeyImages keyImages).intent.prefixOf (t.withKeyImages keyImages).keyImages,
    (t.withKeyImages keyImages).intent.baseOf (t.withKeyImages keyImages).keyImages, signatures.map Prod.fst, bp,
    signatures.map Prod.snd,
    ((t.withKeyImages keyImages).intent.openings (t.withKeyImages keyImages).keyImages).map fun pair => pair.1.commit Γ, ?_, ?_,
    hbalanced⟩
  · rw [List.map_map]
    rfl
  · rw [List.map_map]
    rfl

/-- Value is conserved, and computing it does not overflow, in any order of the inputs and the payments. -/
theorem value_conserved {F : Frost Γ} (hF : F.Lawful) (hreturned : Returned t) (hreorders : Reorders t t') :
    (∃ fee, t'.necessaryFee = .ok fee) ∧
    (∀ keyImages, t'.Conserves keyImages) ∧
    (∀ rng key message, t'.sign rng key ≠ .error (.panic message)) ∧
    (∀ keys machine rng commitments message, t'.multisig F keys = .ok machine →
      (machine.preprocess rng).1.1.sign commitments [] = .error (.panic message) →
      -- Nothing but FROST itself panics
      ∃ algorithm keys nonces preprocess others msgHash,
        F.sign algorithm keys nonces preprocess others msgHash = .error (.panic message)) ∧
    (∀ tx, SignsTo F t' tx → tx.Balanced Γ) := by
  have hv : t'.Valid := hreturned.valid.reorders hreorders
  refine ⟨⟨_, hv.necessaryFee_eq⟩, hv.conserves, sign_ne_panic hv, ?_, ?_⟩
  · intro keys machine rng commitments message hmachine hpanic
    exact TransactionSignMachine.panic_of_sign hv (prepared_preprocess hmachine rng) hpanic
  · intro tx hsigns
    obtain ⟨keyImages, masks, signatures, hsigned⟩ := hsigns.signed hF hv
    exact hsigned.balanced_tx hv

theorem valid_sample_change : (sample 1000000 (.Change (.AddressOnly sampleAddress)) ⟨1, 1, by decide⟩).Valid :=
  valid_sample (.inr rfl) (j := 2) (by decide) (by decide) (by decide) (by decide)

/-- A transaction with a change output is balanced. -/
theorem value_conserved_sample :
    ∃ tx rng', (sample 1000000 (.Change (.AddressOnly sampleAddress)) ⟨1, 1, by decide⟩).sign (Stream'.const (Bytes.replicate 64 0)) 1 =
      .ok (tx, rng') ∧ tx.Balanced instanceCtx := by
  obtain ⟨tx, rng', hsign⟩ := exists_sign_sample valid_sample_change (Stream'.const (Bytes.replicate 64 0))
  have hconserved := value_conserved (lawful_soloFrost instanceCtx) (.new (new_sample_change valid_sample_change)) (Reorders.refl _)
  exact ⟨tx, rng', hsign, hconserved.2.2.2.2 tx (.sign hsign)⟩

/-- What `sign` returns verifies. The inputs are sorted with their key images, so that the ring, the key and the key image at each
place are those of one of the inputs. -/
theorem sign_verifies (hreturned : Returned t) {rng rng' : Rng} {key : Scalar} {tx : Transaction NotPruned}
    (h : t.sign rng key = .ok (tx, rng')) :
    ∃ (inputs : List (OutputWithDecoys Γ × CompressedPoint)) (masks : List Scalar) (signatures : List (Clsag × Γ.Point))
      (txPrefix : TransactionPrefix) (base : RctBase) (bulletproof : Bulletproof) (msgHash : Bytes 32),
      tx = .V2 txPrefix (some
        { base, prunable := .Clsag (signatures.map Prod.fst) (signatures.map fun signed => Γ.compress signed.2) bulletproof :
          RctProofs }) ∧
      (inputs.map Prod.fst).Perm t.inputs ∧
      txPrefix.inputs = inputs.map (fun input => .ToKey none input.1.decoys.offsets input.2) ∧
      (inputs.Pairwise fun a b => keyImageSort a.2 b.2 = true) ∧
      (∀ input ∈ inputs, (key + input.1.keyOffset) • Γ.G = input.1.key ∧
        input.2 = Γ.compress ((key + input.1.keyOffset) • Point.biasedHash Γ (Γ.compress input.1.key))) ∧
      signatures.length = txPrefix.inputs.length ∧ masks.length = txPrefix.inputs.length ∧
      t.sumOutputMasks (inputs.map Prod.snd) = .ok masks.sum ∧
      tx.signatureHash Γ = some msgHash ∧
      Transaction.signatureHash Γ (.V2 txPrefix (some { base, prunable := .Clsag [] [] bulletproof : RctProofs })) = some msgHash ∧
      ∀ (i : ℕ) (input : OutputWithDecoys Γ) (keyImage : CompressedPoint) (mask : Scalar) (clsag : Clsag) (pseudoOut : Γ.Point),
        inputs[i]? = some (input, keyImage) → masks[i]? = some mask → signatures[i]? = some (clsag, pseudoOut) →
        pseudoOut = Commitment.commit Γ { mask, amount := input.commitment.amount } ∧
        (mask ≠ input.commitment.mask → Point.biasedHash Γ (Γ.compress input.key) ≠ 0 →
          Clsag.verify Γ clsag (Clsag.compressRing Γ input.decoys.ring) keyImage (Γ.compress pseudoOut) msgHash = .ok ()) := by
  have hv := hreturned.valid
  obtain ⟨keyImages, masks, signatures, hsigned, himages⟩ := signed_of_sign hv h
  obtain ⟨bp, -, rfl⟩ := hsigned.filled
  obtain ⟨msgHash, hhash, hsigns⟩ := hsigned.signs
  have hinputs : ((t.withKeyImages keyImages).intent.prefixOf (t.withKeyImages keyImages).keyImages).inputs =
      (t.sorted keyImages).map fun input => .ToKey none input.1.decoys.offsets input.2 := by
    rw [prefixOf, txInputs, zip_withKeyImages]
  have hlen : ((t.withKeyImages keyImages).intent.prefixOf (t.withKeyImages keyImages).keyImages).inputs.length =
      t.inputs.length := by
    rw [hinputs, List.length_map, length_sorted hsigned.length_keyImages]
  refine ⟨t.sorted keyImages, masks, signatures, _, _, bp, msgHash, rfl,
    (reorders_withKeyImages hsigned.length_keyImages).inputs, hinputs, ?_, ?_, hsigned.length_signatures.trans hlen.symm,
    hsigned.length_masks.trans hlen.symm, ?_, hhash, hhash, ?_⟩
  · exact Sorting.pairwise_sortBy keyImageSort_linear _ _
  · exact fun input hin => signKeyImage_eq_ok.1 (himages input hin)
  · have hlen' : (t.withKeyImages keyImages).keyImages.length = t.inputs.length := by
      rw [keyImages_withKeyImages, List.length_map, length_sorted hsigned.length_keyImages]
    have hopenings := openings_reorders (reorders_withKeyImages hsigned.length_keyImages) rfl hv.keys_nodup hlen'
    rw [hv.sumOutputMasks_eq, hsigned.sum_masks, maskSum, maskSum, hopenings]
    rfl
  · intro i input keyImage mask clsag pseudoOut hinput hmask hsignature
    have hzip : ((t.sorted keyImages).zip masks)[i]? = some ((input, keyImage), mask) := by
      simp [List.getElem?_zip_eq_some, hinput, hmask]
    have hone := Lists.forall₂_getElem? hsigns hzip hsignature
    exact ⟨hone.pseudoOut, hone.verifies⟩

/-- The signature of a transaction of one input verifies. -/
theorem sign_verifies_sample :
    ∃ tx rng' keyImage clsag pseudoOut msgHash,
      (sample 1000000 (.Change (.AddressOnly sampleAddress)) ⟨1, 1, by decide⟩).sign (Stream'.const (Bytes.replicate 64 0)) 1 =
        .ok (tx, rng') ∧
      tx.signatureHash instanceCtx = some msgHash ∧
      Clsag.verify instanceCtx clsag (Clsag.compressRing instanceCtx (sampleInput 1000000).decoys.ring) keyImage
        (instanceCtx.compress pseudoOut) msgHash = .ok () := by
  obtain ⟨tx, rng', hsign⟩ := exists_sign_sample valid_sample_change (Stream'.const (Bytes.replicate 64 0))
  obtain ⟨inputs, masks, signatures, txPrefix, base, bp, msgHash, -, hperm, hinputs, -, -, hsignatures, hmasks, hsum, hhash, -,
    hverifies⟩ := sign_verifies (.new (new_sample_change valid_sample_change)) hsign
  have hlenInputs : inputs.length = 1 := by
    rw [← List.length_map Prod.fst, hperm.length_eq]
    rfl
  have hlen : txPrefix.inputs.length = 1 := by rw [hinputs, List.length_map, hlenInputs]
  obtain ⟨⟨input, keyImage⟩, rfl⟩ := List.length_eq_one_iff.1 hlenInputs
  obtain ⟨mask, rfl⟩ := List.length_eq_one_iff.1 (hmasks.trans hlen)
  obtain ⟨⟨clsag, pseudoOut⟩, rfl⟩ := List.length_eq_one_iff.1 (hsignatures.trans hlen)
  obtain rfl : input = sampleInput 1000000 := List.singleton_perm_singleton.1 hperm
  have hmask : mask = 2 := by
    rw [valid_sample_change.sumOutputMasks_eq, maskSum_instanceCtx] at hsum
    exact (List.sum_singleton.symm.trans (Except.ok.inj hsum).symm)
  refine ⟨tx, rng', keyImage, clsag, pseudoOut, msgHash, hsign, hhash, (hverifies 0 _ _ _ _ _ rfl rfl rfl).2 ?_ ?_⟩
  · rw [hmask]
    change (2 : Scalar) ≠ 0
    decide +kernel
  · rw [biasedHash_instanceCtx]
    exact instanceCtx_G_ne_zero

end SignableTransaction

end MoneroOxide
