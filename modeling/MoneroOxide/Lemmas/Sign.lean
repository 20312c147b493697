import MoneroOxide.Lemmas.Instance
import MoneroOxide.Lemmas.Send
import MoneroOxide.Theorems.Clsag

/-!
# Signed transactions

A single signer and a multisig fill in the signatures of the same transaction, whose inputs are sorted by their key images. What is
common to what they return is `Signed`, from which its weight and its balance follow.
-/

namespace MoneroOxide

namespace Decoys

theorem length_ring {Γ : Ctx} (decoys : Decoys Γ) : decoys.ring.length = decoys.offsets.length :=
  (check_iff.1 decoys.valid).2.2.1.symm

end Decoys

namespace SignableTransaction

variable {Γ : Ctx} {t : SignableTransaction Γ} {keyImages : List CompressedPoint}

/-! ## The order of the inputs -/

/-- The inputs with their key images, in the order they have in the transaction. -/
def sorted (t : SignableTransaction Γ) (keyImages : List CompressedPoint) : List (OutputWithDecoys Γ × CompressedPoint) :=
  Sorting.sortBy keyImageSort Prod.snd (t.inputs.zip keyImages)

theorem inputs_withKeyImages (t : SignableTransaction Γ) (keyImages : List CompressedPoint) :
    (t.withKeyImages keyImages).intent.inputs = (t.sorted keyImages).map Prod.fst := rfl

theorem keyImages_withKeyImages (t : SignableTransaction Γ) (keyImages : List CompressedPoint) :
    (t.withKeyImages keyImages).keyImages = (t.sorted keyImages).map Prod.snd := rfl

theorem zip_withKeyImages (t : SignableTransaction Γ) (keyImages : List CompressedPoint) :
    (t.withKeyImages keyImages).intent.inputs.zip (t.withKeyImages keyImages).keyImages = t.sorted keyImages := by
  rw [inputs_withKeyImages, keyImages_withKeyImages]
  exact (List.zip_of_prod rfl rfl).symm

/-- An input keeps its key image. -/
theorem mem_sorted {pair : OutputWithDecoys Γ × CompressedPoint} : pair ∈ t.sorted keyImages ↔ pair ∈ t.inputs.zip keyImages :=
  (Sorting.sortBy_perm _ _ _).mem_iff

theorem length_sorted (h : keyImages.length = t.inputs.length) : (t.sorted keyImages).length = t.inputs.length := by
  rw [sorted, (Sorting.sortBy_perm _ _ _).length_eq, List.length_zip, h, Nat.min_self]

/-- Only the order of the inputs changes. -/
theorem reorders_withKeyImages (h : keyImages.length = t.inputs.length) : Reorders t (t.withKeyImages keyImages).intent where
  rctType := rfl
  outgoingViewKey := rfl
  inputs := by
    have hperm : ((t.sorted keyImages).map Prod.fst).Perm ((t.inputs.zip keyImages).map Prod.fst) :=
      (Sorting.sortBy_perm _ _ _).map _
    rwa [List.map_fst_zip h.ge] at hperm
  payments := List.Perm.refl _
  data := rfl
  feeRate := rfl

theorem length_keyImages_withKeyImages (t : SignableTransaction Γ) (keyImages : List CompressedPoint) :
    (t.withKeyImages keyImages).keyImages.length = (t.withKeyImages keyImages).intent.inputs.length := by
  rw [inputs_withKeyImages, keyImages_withKeyImages, List.length_map, List.length_map]

/-- The key images of the transaction are sorted. -/
theorem pairwise_keyImages (t : SignableTransaction Γ) (keyImages : List CompressedPoint) :
    (t.withKeyImages keyImages).keyImages.Pairwise fun a b => keyImageSort a b = true := by
  rw [keyImages_withKeyImages, List.pairwise_map]
  exact Sorting.pairwise_sortBy keyImageSort_linear _ _

/-! ## What a single signer and a multisig return -/

/-- A signature for an input, which has a key image: the pseudo-out commits to its amount, and it verifies unless the mask is the
input's own or there is no generator for its key image. -/
structure SignsInput (msgHash : Bytes 32) (input : OutputWithDecoys Γ × CompressedPoint) (mask : Scalar)
    (signed : Clsag × Γ.Point) : Prop where
  pseudoOut : signed.2 = Commitment.commit Γ { mask, amount := input.1.commitment.amount }
  length_s : signed.1.s.length = input.1.decoys.ring.length
  verifies : mask ≠ input.1.commitment.mask → Point.biasedHash Γ (Γ.compress input.1.key) ≠ 0 →
    Clsag.verify Γ signed.1 (Clsag.compressRing Γ input.1.decoys.ring) input.2 (Γ.compress signed.2) msgHash = .ok ()

/-- The transaction without signatures for these key images, with these signatures filled in, which were made with these masks. -/
structure Signed (t : SignableTransaction Γ) (keyImages : List CompressedPoint) (masks : List Scalar)
    (signatures : List (Clsag × Γ.Point)) (tx : Transaction NotPruned) : Prop where
  length_keyImages : keyImages.length = t.inputs.length
  length_masks : masks.length = t.inputs.length
  sum_masks : masks.sum = (t.withKeyImages keyImages).intent.maskSum (t.withKeyImages keyImages).keyImages
  filled : ∃ bp, (t.withKeyImages keyImages).transactionWithoutSignatures =
      .ok ((t.withKeyImages keyImages).intent.txWith (t.withKeyImages keyImages).keyImages bp [] []) ∧
    tx = (t.withKeyImages keyImages).intent.txWith (t.withKeyImages keyImages).keyImages bp (signatures.map Prod.fst)
      (signatures.map fun signed => Γ.compress signed.2)
  signs : ∃ msgHash, tx.signatureHash Γ = some msgHash ∧
    List.Forall₂ (fun im signed => SignsInput msgHash im.1 im.2 signed) ((t.sorted keyImages).zip masks) signatures

/-- Which inputs a key signs for. -/
theorem signKeyImage_eq_ok {key : Scalar} {input : OutputWithDecoys Γ} {keyImage : CompressedPoint} :
    signKeyImage key input = .ok keyImage ↔ (key + input.keyOffset) • Γ.G = input.key ∧
      keyImage = Γ.compress ((key + input.keyOffset) • Point.biasedHash Γ (Γ.compress input.key)) := by
  rw [signKeyImage]
  by_cases h : (key + input.keyOffset) • Γ.G = input.key
  · simp only [h, ne_eq, not_true_eq_false, if_false, Except.ok.injEq, true_and, eq_comm]
  · simp [h]

theorem clsagSign_eq_ok {key : Scalar} {input : OutputWithDecoys Γ} {signs : Scalar × ClsagContext Γ} :
    clsagSign key input = .ok signs ↔
      signs.1 = key + input.keyOffset ∧ signs.2.decoys = input.decoys ∧ signs.2.commitment = input.commitment := by
  obtain ⟨inputKey, context⟩ := signs
  rw [clsagSign, ClsagContext.new]
  by_cases hopens : input.decoys.signerRingMembers.2 = input.commitment.commit Γ
  · rw [dif_pos hopens]
    simp only [Except.ok.injEq, Prod.mk.injEq]
    constructor
    · intro h
      obtain ⟨rfl, rfl⟩ := h
      exact ⟨rfl, rfl, rfl⟩
    · intro h
      obtain ⟨rfl, hdecoys, hcommitment⟩ := h
      cases context
      cases hdecoys
      cases hcommitment
      exact ⟨rfl, rfl⟩
  · rw [dif_neg hopens]
    simp only [reduceCtorEq, false_iff, not_and]
    intro _ hdecoys hcommitment
    exact hopens (hdecoys ▸ hcommitment ▸ context.opens)

/-- A signature of `Clsag::sign` for an input of a transaction. -/
theorem signsInput_signOne {key : Scalar} {input : OutputWithDecoys Γ} {keyImage : CompressedPoint}
    {signs : Scalar × ClsagContext Γ}
    (himage : signKeyImage key input = .ok keyImage) (hsigns : clsagSign key input = .ok signs) (hne : input.key ≠ 0)
    (hring : signs.1 • Γ.G = signs.2.decoys.signerRingMembers.1) (msgHash : Bytes 32) (mask nonce : Scalar) (rng : Rng) :
    SignsInput msgHash (input, keyImage) mask (Clsag.signOne msgHash signs mask nonce rng) := by
  obtain ⟨hkey, rfl⟩ := signKeyImage_eq_ok.1 himage
  obtain ⟨hinputKey, hdecoys, hcommitment⟩ := clsagSign_eq_ok.1 hsigns
  have hmember : signs.2.decoys.signerRingMembers.1 = input.key := by rw [← hring, hinputKey, hkey]
  have hgenerator : Clsag.imageGenerator signs.2 = Point.biasedHash Γ (Γ.compress input.key) := by
    rw [Clsag.imageGenerator, hmember]
  refine
    { pseudoOut := ?_
      length_s := ?_
      verifies := ?_ }
  · rw [← hcommitment]
    rfl
  · rw [Clsag.length_signOne, hdecoys]
  · intro hmask hbiased
    have hspendable : Clsag.Spendable signs :=
      { key := hring
        key_ne_zero := by
          intro hzero
          rw [hzero, Scalar.zero_smul, hmember] at hring
          exact hne hring.symm
        generator_ne_zero := hgenerator ▸ hbiased }
    have hsignsFor : Clsag.SignsFor signs msgHash mask (Clsag.signOne msgHash signs mask nonce rng) :=
      Clsag.signsFor_signOne hspendable mask nonce rng
    have hverifies := hsignsFor.verifies (hcommitment ▸ hmask)
    rw [hdecoys, hgenerator, hinputKey] at hverifies
    exact hverifies

/-- What `sign` returns. The key images are those of the inputs it was given the key for. -/
theorem signed_of_sign (hv : t.Valid) {rng rng' : Rng} {key : Scalar} {tx : Transaction NotPruned}
    (h : t.sign rng key = .ok (tx, rng')) : ∃ keyImages masks signatures, Signed t keyImages masks signatures tx ∧
      ∀ pair ∈ t.sorted keyImages, signKeyImage key pair.1 = .ok pair.2 := by
  rw [sign] at h
  obtain ⟨keyImages, himages, h⟩ := Results.bind_eq_ok.1 h
  obtain ⟨clsagSigns, hsigns, h⟩ := Results.bind_eq_ok.1 h
  rw [Results.mapM_eq_ok] at himages hsigns
  have hlen : keyImages.length = t.inputs.length := himages.length_eq.symm
  have hreorders := reorders_withKeyImages hlen
  obtain ⟨bp, hunsigned, -⟩ := (hv.reorders hreorders).transactionWithoutSignatures_eq (t.withKeyImages keyImages).keyImages
  have hunsigned : (t.withKeyImages keyImages).transactionWithoutSignatures =
      .ok ((t.withKeyImages keyImages).intent.txWith (t.withKeyImages keyImages).keyImages bp [] []) := hunsigned
  simp only [(hv.reorders hreorders).sumOutputMasks_eq, hunsigned, Results.ok_bind, signatureHash_txWith] at h
  set tx₀ := t.withKeyImages keyImages with htx₀
  set msgHash := tx₀.intent.toSign tx₀.keyImages bp with hmsgHash
  have hpairs : ∀ pair ∈ t.sorted keyImages, signKeyImage key pair.1 = .ok pair.2 := by
    intro pair hpair
    exact List.forall₂_zip himages (mem_sorted.1 hpair)
  cases hsign : Clsag.sign rng clsagSigns (tx₀.intent.maskSum tx₀.keyImages) msgHash with
  | error e =>
    rw [hsign] at h
    cases h
  | ok result =>
    obtain ⟨signatures, rng''⟩ := result
    rw [hsign] at h
    simp only [fillIn_txWith, Results.ok_bind, Results.pure_eq, Except.ok.injEq, Prod.mk.injEq, List.map_map] at h
    obtain ⟨rfl, rfl⟩ := h
    obtain ⟨images, hkeyImages, -⟩ := Results.bind_eq_ok.1 hsign
    have hkeys := Clsag.key_of_keyImages hkeyImages
    rw [Clsag.sign_eq hkeys] at hsign
    obtain ⟨masks, hmasks, hsum, hall⟩ := Clsag.signLoop_signOne (tx₀.intent.maskSum tx₀.keyImages) msgHash clsagSigns 0 rng
    have hlenSigns : clsagSigns.length = t.inputs.length := by
      rw [← hsigns.length_eq]
      exact hreorders.inputs.length_eq
    have hne : clsagSigns ≠ [] := by
      intro hnil
      rw [hnil, List.length_nil, eq_comm, List.length_eq_zero_iff] at hlenSigns
      exact hv.inputs_ne_nil hlenSigns
    rw [Except.ok.inj hsign] at hall
    refine ⟨keyImages, masks, signatures, ?_, hpairs⟩
    refine
      { length_keyImages := hlen
        length_masks := hmasks.trans hlenSigns
        sum_masks := by rw [← hsum hne, zero_add]
        filled := ⟨bp, hunsigned, rfl⟩
        signs := ⟨msgHash, signatureHash_txWith _ _ _ _, ?_⟩ }
    rw [inputs_withKeyImages, List.forall₂_map_left_iff] at hsigns
    have hinputs : List.Forall₂ (fun pair signs => signKeyImage key pair.1 = .ok pair.2 ∧ clsagSign key pair.1 = .ok signs ∧
        pair.1.key ≠ 0 ∧ signs.1 • Γ.G = signs.2.decoys.signerRingMembers.1) (t.sorted keyImages) clsagSigns := by
      refine List.forall₂_iff_zip.2 ⟨hsigns.length_eq, fun {pair signs} hmem => ?_⟩
      obtain ⟨hpair, hsigner⟩ := List.of_mem_zip hmem
      have hinput : pair.1 ∈ t.inputs := (List.of_mem_zip (mem_sorted.1 hpair)).1
      exact ⟨hpairs pair hpair, List.forall₂_zip hsigns hmem, hv.key_ne_zero _ hinput, hkeys signs hsigner⟩
    refine (Lists.forall₂_zip_left hinputs hall).imp fun im signed hsigned => ?_
    obtain ⟨signs, ⟨himage, hsigner, hkey, hring⟩, nonce, rng, rfl⟩ := hsigned
    exact signsInput_signOne himage hsigner hkey hring _ _ _ _

/-- `sign` fails, if at all, with an error. -/
theorem sign_ne_panic (hv : t.Valid) (rng : Rng) (key : Scalar) (message : String) : t.sign rng key ≠ .error (.panic message) := by
  intro h
  rw [sign] at h
  rcases Results.bind_eq_error.1 h with himages | ⟨keyImages, himages, h⟩
  · obtain ⟨input, -, himage⟩ := Results.mapM_eq_error himages
    rw [signKeyImage] at himage
    split at himage <;> cases himage
  · have hlen : keyImages.length = t.inputs.length := (Results.mapM_eq_ok.1 himages).length_eq.symm
    have hreorders := reorders_withKeyImages hlen
    obtain ⟨bp, hunsigned, -⟩ := (hv.reorders hreorders).transactionWithoutSignatures_eq (t.withKeyImages keyImages).keyImages
    have hunsigned : (t.withKeyImages keyImages).transactionWithoutSignatures = .ok _ := hunsigned
    rcases Results.bind_eq_error.1 h with hsigns | ⟨clsagSigns, -, h⟩
    · obtain ⟨input, -, hsign⟩ := Results.mapM_eq_error hsigns
      rw [clsagSign] at hsign
      split at hsign <;> cases hsign
    · simp only [(hv.reorders hreorders).sumOutputMasks_eq, hunsigned, Results.ok_bind, signatureHash_txWith] at h
      split at h
      · cases h
      · rw [fillIn_txWith, Results.ok_bind] at h
        cases h

/-- The inputs a key spends: their keys and their commitments are the ones of the signers of their rings. -/
structure Spends (key : Scalar) (input : OutputWithDecoys Γ) : Prop where
  key_eq : (key + input.keyOffset) • Γ.G = input.key
  signer : input.decoys.signerRingMembers = (input.key, input.commitment.commit Γ)

/-- `sign` signs if it is given the key of each of the inputs. -/
theorem exists_sign (hv : t.Valid) {key : Scalar} (hspends : ∀ input ∈ t.inputs, Spends key input) (rng : Rng) :
    ∃ tx rng', t.sign rng key = .ok (tx, rng') := by
  have himages : t.inputs.mapM (signKeyImage key) =
      .ok (t.inputs.map fun input => Γ.compress ((key + input.keyOffset) • Point.biasedHash Γ (Γ.compress input.key))) :=
    Results.mapM_ok fun input hin => signKeyImage_eq_ok.2 ⟨(hspends input hin).key_eq, rfl⟩
  set keyImages := t.inputs.map fun input => Γ.compress ((key + input.keyOffset) • Point.biasedHash Γ (Γ.compress input.key))
  have hreorders : Reorders t (t.withKeyImages keyImages).intent := reorders_withKeyImages (List.length_map _)
  have hspends' : ∀ input ∈ (t.withKeyImages keyImages).intent.inputs, Spends key input :=
    fun input hin => hspends input (hreorders.inputs.mem_iff.1 hin)
  obtain ⟨clsagSigns, hsigns⟩ : ∃ clsagSigns, List.Forall₂ (fun input signs => clsagSign key input = .ok signs)
      (t.withKeyImages keyImages).intent.inputs clsagSigns := by
    refine Lists.exists_forall₂ fun input hin => ?_
    have hopens : input.decoys.signerRingMembers.2 = input.commitment.commit Γ := by rw [(hspends' input hin).signer]
    exact ⟨(key + input.keyOffset, { commitment := input.commitment, decoys := input.decoys, opens := hopens }),
      clsagSign_eq_ok.2 ⟨rfl, rfl, rfl⟩⟩
  have hkeys : ∀ signs ∈ clsagSigns, signs.1 • Γ.G = signs.2.decoys.signerRingMembers.1 := by
    intro signs hin
    obtain ⟨input, hinput, hsign⟩ := Lists.exists_mem_of_forall₂ hsigns hin
    obtain ⟨hkey, hdecoys, -⟩ := clsagSign_eq_ok.1 hsign
    rw [hkey, hdecoys, (hspends' input hinput).signer, (hspends' input hinput).key_eq]
  obtain ⟨bp, hunsigned, -⟩ := (hv.reorders hreorders).transactionWithoutSignatures_eq (t.withKeyImages keyImages).keyImages
  have hunsigned : (t.withKeyImages keyImages).transactionWithoutSignatures = .ok _ := hunsigned
  simp only [sign, himages, Results.mapM_eq_ok.2 hsigns, (hv.reorders hreorders).sumOutputMasks_eq, hunsigned, Results.ok_bind,
    signatureHash_txWith, Clsag.sign_eq hkeys, fillIn_txWith, Results.pure_eq, Except.ok.injEq, Prod.mk.injEq]
  exact ⟨_, _, rfl, rfl⟩

/-! ## Its balance -/

/-- The sum of commitments is the commitment to the sums. -/
theorem sum_commit (cs : List Commitment) :
    (cs.map (Commitment.commit Γ)).sum =
      (cs.map Commitment.mask).sum • Γ.G + (((cs.map fun c => c.amount.toNat).sum : ℕ) : Scalar) • Γ.H := by
  induction cs with
  | nil =>
    simp only [List.map_nil, List.sum_nil, Nat.cast_zero, Scalar.zero_smul, add_zero]
  | cons c cs ih =>
    simp only [List.map_cons, List.sum_cons, ih, Commitment.commit, Commitment.amountScalar, Nat.cast_add,
      Ctx.torsionFree_G.add_smul, Ctx.torsionFree_H.add_smul]
    abel

/-- The commitments the pseudo-outs are. -/
theorem Signed.pseudoOuts_eq {masks : List Scalar} {signatures : List (Clsag × Γ.Point)} {tx : Transaction NotPruned}
    (h : Signed t keyImages masks signatures tx) : signatures.map Prod.snd =
      (((t.sorted keyImages).zip masks).map fun im => { mask := im.2, amount := im.1.1.commitment.amount : Commitment }).map
        (Commitment.commit Γ) := by
  obtain ⟨msgHash, -, hsigns⟩ := h.signs
  rw [List.map_map]
  exact (Lists.map_eq_map (hsigns.imp fun im signed hsigned => hsigned.pseudoOut.symm)).symm

/-- The amounts of the openings are those of the payments. -/
theorem sum_amount_openings (t : SignableTransaction Γ) (keyImages : List CompressedPoint) :
    ((t.openings keyImages).map fun pair => pair.1.amount.toNat).sum =
    (t.payments.map fun payment => (t.amountOf payment).toNat).sum := by
  have hzip : t.payments = (t.payments.zip (t.derivations keyImages)).map Prod.fst := by
    rw [List.map_fst_zip (by rw [length_derivations])]
  rw [openings, List.map_map]
  conv_rhs => rw [hzip, List.map_map]
  rfl

/-- The amounts and the masks of the pseudo-outs are those of the outputs and the fee. -/
theorem Signed.balanced (hv : t.Valid) {masks : List Scalar} {signatures : List (Clsag × Γ.Point)} {tx : Transaction NotPruned}
    (h : Signed t keyImages masks signatures tx) : (signatures.map Prod.snd).sum =
      (((t.withKeyImages keyImages).intent.openings (t.withKeyImages keyImages).keyImages).map fun pair => pair.1.commit Γ).sum +
        Commitment.amountScalar (t.withKeyImages keyImages).intent.feeOf • Γ.H := by
  set tx₀ := t.withKeyImages keyImages with htx₀
  have hlen : (t.sorted keyImages).length = masks.length := (length_sorted h.length_keyImages).trans h.length_masks.symm
  have hmasks : (((t.sorted keyImages).zip masks).map fun im => im.2).sum = tx₀.intent.maskSum tx₀.keyImages := by
    rw [List.map_snd_zip hlen.ge, h.sum_masks]
  have hamounts : (((t.sorted keyImages).zip masks).map fun im => im.1.1.commitment.amount.toNat).sum = tx₀.intent.inAmount := by
    rw [inAmount, inputs_withKeyImages, List.map_map]
    conv_rhs => rw [← List.map_fst_zip hlen.le, List.map_map]
    rfl
  have hopenings : (tx₀.intent.openings tx₀.keyImages).map (fun pair => pair.1.commit Γ) =
      ((tx₀.intent.openings tx₀.keyImages).map Prod.fst).map (Commitment.commit Γ) := by
    rw [List.map_map]
    rfl
  have hconserved := (hv.reorders (reorders_withKeyImages h.length_keyImages)).conserved
  rw [← sum_amount_openings _ tx₀.keyImages] at hconserved
  rw [h.pseudoOuts_eq, sum_commit, hopenings, sum_commit]
  simp only [List.map_map, Function.comp_def]
  rw [hmasks, hamounts, ← hconserved, Nat.cast_add, Ctx.torsionFree_H.add_smul, add_assoc]
  rfl

/-! ## Its weight -/

/-- The range proof is of the lengths it was taken to be of. -/
theorem Valid.lengths_of_unsigned (hv : t.Valid) {bp : Bulletproof}
    (h : SignableTransactionWithKeyImages.transactionWithoutSignatures { intent := t, keyImages } =
      .ok (t.txWith keyImages bp [] [])) :
    bp.isOriginal = !t.plus ∧ bp.LR.1.length = Lengths.lrLen t.payments.length ∧
      bp.LR.2.length = Lengths.lrLen t.payments.length := by
  obtain ⟨bp', heq, hkind, hL, hR⟩ := hv.transactionWithoutSignatures_eq keyImages
  rw [h] at heq
  cases heq
  exact ⟨hkind, hL, hR⟩

/-- The lengths of a transaction with signatures are the ones its weight was predicted with. -/
theorem hasLengths_txWith (hv : t.Valid) (hlen : keyImages.length = t.inputs.length) {bp : Bulletproof} {clsags : List Clsag}
    {pseudoOuts : List CompressedPoint} (hkind : bp.isOriginal = !t.plus) (hL : bp.LR.1.length = Lengths.lrLen t.payments.length)
    (hR : bp.LR.2.length = Lengths.lrLen t.payments.length) (hclsags : clsags.length = t.inputs.length)
    (hpseudoOuts : pseudoOuts.length = t.inputs.length) (hs : ∀ clsag ∈ clsags, clsag.s.length = Lengths.ringLen t.plus) :
    HasLengths (t.lengths (VarInt.varintLen t.feeOf.toNat)) (t.prefixOf keyImages) (t.baseOf keyImages) clsags pseudoOuts bp where
  timelock := rfl
  inputs := length_txInputs hlen
  inputsSize := inputsSize_txInputs hlen.ge
  outputs := length_outputList t keyImages
  output := fun output => output_outputList
  extra := length_extra hv.hasPayment
  fee := rfl
  encryptedAmounts := by
    rw [baseOf, List.length_map]
    exact length_openings t keyImages
  compact := by
    intro amount hamount
    obtain ⟨opening, hopening, rfl⟩ := List.mem_map.1 hamount
    obtain ⟨pair, -, rfl⟩ := List.mem_map.1 hopening
    rfl
  commitments := by
    rw [baseOf, List.length_map]
    exact length_openings t keyImages
  responses := hs
  clsags := hclsags
  pseudoOuts := hpseudoOuts
  kind := hkind
  L := hL
  R := hR

section

variable {masks : List Scalar} {signatures : List (Clsag × Γ.Point)} {tx : Transaction NotPruned}

theorem Signed.length_signatures (h : Signed t keyImages masks signatures tx) : signatures.length = t.inputs.length := by
  obtain ⟨msgHash, -, hsigns⟩ := h.signs
  rw [← hsigns.length_eq, List.length_zip, length_sorted h.length_keyImages, h.length_masks, Nat.min_self]

/-- There are as many responses as there are members of the ring. -/
theorem Signed.length_s (hv : t.Valid) (h : Signed t keyImages masks signatures tx) {signed : Clsag × Γ.Point}
    (hin : signed ∈ signatures) : signed.1.s.length = Lengths.ringLen t.plus := by
  obtain ⟨msgHash, -, hsigns⟩ := h.signs
  obtain ⟨im, him, hsigned⟩ := Lists.exists_mem_of_forall₂ hsigns hin
  have hinput : im.1.1 ∈ t.inputs := (List.of_mem_zip (mem_sorted.1 (List.of_mem_zip him).1)).1
  rw [hsigned.length_s, Decoys.length_ring]
  exact hv.ring_length _ hinput

/-- The weight of a signed transaction is the one which was predicted, with the length of its fee. -/
theorem Signed.weight_eq (hv : t.Valid) (h : Signed t keyImages masks signatures tx) :
    tx.weight = t.baseWeight + VarInt.varintLen t.feeOf.toNat := by
  have hreorders := reorders_withKeyImages h.length_keyImages
  obtain ⟨bp, hunsigned, rfl⟩ := h.filled
  obtain ⟨hkind, hL, hR⟩ := (hv.reorders hreorders).lengths_of_unsigned hunsigned
  have hlen := h.length_signatures.trans hreorders.inputs.length_eq.symm
  have hlengths : HasLengths _ _ _ (signatures.map Prod.fst) (signatures.map fun signed => Γ.compress signed.2) bp :=
    hasLengths_txWith (hv.reorders hreorders) (length_keyImages_withKeyImages t keyImages) hkind hL hR
      ((List.length_map _).trans hlen) ((List.length_map _).trans hlen) (fun clsag hin => ?_)
  · rw [← baseWeight_reorders hreorders, ← feeOf_reorders hreorders]
    exact hlengths.weight_eq
  · obtain ⟨signed, hsigned, rfl⟩ := List.mem_map.1 hin
    rw [plus_reorders hreorders]
    exact h.length_s hv hsigned

end

/-! ## Transactions to be signed over `instanceCtx` -/

/-- In this context every mask of an output is `1`. -/
theorem maskSum_instanceCtx (t : SignableTransaction instanceCtx) (keyImages : List CompressedPoint) :
    t.maskSum keyImages = t.payments.length := by
  have hmasks : (t.openings keyImages).map (fun pair => pair.1.mask) = (t.openings keyImages).map fun _ => (1 : Scalar) := by
    refine List.map_congr_left fun opening hin => ?_
    obtain ⟨pair, -, rfl⟩ := List.mem_map.1 hin
    exact hash_instanceCtx _
  rw [maskSum, hmasks, List.map_const', List.sum_replicate, nsmul_eq_mul, mul_one, length_openings]

/-- An output the key `1` spends, with a ring of sixteen members. -/
def sampleInput (amount : UInt64) : OutputWithDecoys instanceCtx where
  output := { key := instanceCtx.G, keyOffset := 0, commitment := { mask := 0, amount } }
  decoys :=
    { offsets := List.replicate 16 1, signerIndex := 0,
      ring := List.replicate 16 (instanceCtx.G, Commitment.commit instanceCtx { mask := 0, amount }),
      valid := by
        rw [List.length_replicate]
        decide }

/-- An address which is not a subaddress. -/
def sampleAddress : Address instanceCtx := { network := .Mainnet, kind := .Legacy, spend := instanceCtx.G, view := instanceCtx.G }

/-- A payment to it, and another payment to it or the change. -/
def sample (amount : UInt64) (other : InternalPayment instanceCtx) (feeRate : FeeRate) : SignableTransaction instanceCtx where
  rctType := .ClsagBulletproofPlus
  outgoingViewKey := Bytes.replicate 32 0
  inputs := [sampleInput amount]
  payments := [.Payment sampleAddress 1, other]
  data := []
  feeRate := feeRate

theorem spends_sampleInput (amount : UInt64) : Spends 1 (sampleInput amount) where
  key_eq := by
    change ((1 : Scalar) + 0) • instanceCtx.G = instanceCtx.G
    rw [add_zero, Scalar.one_smul]
  signer := (sampleInput amount).decoys.signerRingMembers_eq (0, 0)

section

variable {amount : UInt64} {other : InternalPayment instanceCtx} {feeRate : FeeRate}

/-- What is sent besides the payment. -/
def SampleOther (other : InternalPayment instanceCtx) : Prop :=
  other = .Payment sampleAddress 1 ∨ other = .Change (.AddressOnly sampleAddress)

theorem baseWeight_sample (h : SampleOther other) : (sample amount other feeRate).baseWeight = 1502 := by
  have hlengths : (sample amount other feeRate).lengths 0 =
      { plus := true, inputs := 1, inputsSize := Input.size (List.replicate 16 1), outputs := 2, extra := 33 + nonceSize 9,
        fee := 0 } := by
    rcases h with rfl | rfl <;> rfl
  rw [baseWeight, hlengths]
  decide +kernel

theorem paymentsAmount_sample (h : SampleOther other) : (sample amount other feeRate).paymentsAmount ≤ 2 := by
  rcases h with rfl | rfl
  · exact le_rfl
  · exact Nat.le_succ 1

/-- The samples are valid if there is enough for a fee which fits in its length. -/
theorem valid_sample (h : SampleOther other) {j : ℕ} (hj : 1 ≤ j) (hten : j ≤ 10)
    (hfits : feeRate.calculateFeeFromWeight (1502 + j) < 2 ^ (7 * j))
    (hfunds : 2 + feeRate.calculateFeeFromWeight (1502 + j) ≤ amount.toNat) : (sample amount other feeRate).Valid := by
  have hbase : (sample amount other feeRate).baseWeight = 1502 := baseWeight_sample h
  obtain ⟨k, hchosen, hfee⟩ := weightAndFeeFor_eq feeRate (show (1502 : ℕ) + 10 < 2 ^ 64 by decide)
  have hk : k ≤ j := by
    refine hchosen.le hj ?_
    rw [VarInt.varintLen_le_iff hj, saturated_eq]
    omega
  have hmono := calculateFeeFromWeight_mono feeRate (show 1502 + k ≤ 1502 + j by omega)
  have hnecessary : (sample amount other feeRate).necessary = (1502 + k, feeRate.calculateFeeFromWeight (1502 + k)) := by
    have hrate : (sample amount other feeRate).feeRate = feeRate := rfl
    rw [necessary, hbase, hrate, hfee]
  have hpaid : (sample amount other feeRate).paymentsAmount ≤ 2 := paymentsAmount_sample h
  have hin : (sample amount other feeRate).inAmount = amount.toNat := Nat.add_zero _
  have hcount : (sample amount other feeRate).payments.countP InternalPayment.isChange ≤ 1 ∧
      (sample amount other feeRate).payments.countP (fun payment => payment.address.paymentId.isSome) ≤ 1 := by
    rcases h with rfl | rfl
    · exact ⟨Nat.zero_le _, Nat.zero_le _⟩
    · exact ⟨le_rfl, Nat.zero_le _⟩
  have hextra : (sample amount other feeRate).extraLength = 33 + nonceSize 9 := by rcases h with rfl | rfl <;> rfl
  exact
    { supported := .inr rfl
      inputs_ne_nil := List.cons_ne_nil _ _
      keys_nodup := List.nodup_singleton _
      torsionFree := by
        intro input hin
        rw [List.mem_singleton.1 hin]
        exact Ctx.torsionFree_G
      key_ne_zero := by
        intro input hin
        rw [List.mem_singleton.1 hin]
        exact instanceCtx_G_ne_zero
      ring_length := by
        intro input hin
        rw [List.mem_singleton.1 hin]
        rfl
      hasPayment := ⟨_, List.mem_cons_self, rfl⟩
      two_le := le_rfl
      change_le := hcount.1
      paymentId_le := hcount.2
      length_le := (by decide : 2 ≤ Bulletproof.MAX_COMMITMENTS)
      data_le := fun part hin => absurd hin List.not_mem_nil
      extra_le := by
        rw [hextra]
        decide +kernel
      fee_ok := by
        rw [hnecessary, hbase]
        exact hfee
      inAmount_lt := hin ▸ amount.toNat_lt
      funds := by
        rw [hnecessary, hin]
        change _ + feeRate.calculateFeeFromWeight (1502 + k) ≤ _
        omega
      weight_lt := by
        rw [hnecessary]
        change 1502 + k < MAX_TX_SIZE
        have hmax : MAX_TX_SIZE = 149400 := rfl
        omega }

/-- The shuffle of `instanceCtx` changes nothing. -/
theorem shuffle_instanceCtx {α : Type} (rng : Rng) (as : List α) : shuffle (Γ := instanceCtx) rng as = as := List.ofFn_get as

theorem new_sample_payment (hv : (sample amount (.Payment sampleAddress 1) feeRate).Valid) :
    SignableTransaction.new .ClsagBulletproofPlus (Bytes.replicate 32 0) [sampleInput amount]
      [(sampleAddress, 1), (sampleAddress, 1)] none [] feeRate = .ok (sample amount (.Payment sampleAddress 1) feeRate) := by
  refine new_eq_ok.2 ⟨hv, ?_⟩
  rw [shuffle_instanceCtx]
  rfl

theorem new_sample_change (hv : (sample amount (.Change (.AddressOnly sampleAddress)) feeRate).Valid) :
    SignableTransaction.new .ClsagBulletproofPlus (Bytes.replicate 32 0) [sampleInput amount] [(sampleAddress, 1)]
      (some (.AddressOnly sampleAddress)) [] feeRate = .ok (sample amount (.Change (.AddressOnly sampleAddress)) feeRate) := by
  refine new_eq_ok.2 ⟨hv, ?_⟩
  rw [shuffle_instanceCtx]
  rfl

end

/-- The key `1` signs the samples. -/
theorem exists_sign_sample {amount : UInt64} {other : InternalPayment instanceCtx} {feeRate : FeeRate}
    (hv : (sample amount other feeRate).Valid) (rng : Rng) :
    ∃ tx rng', (sample amount other feeRate).sign rng 1 = .ok (tx, rng') := by
  refine exists_sign hv (fun input hin => ?_) rng
  rw [List.mem_singleton.1 hin]
  exact spends_sampleInput amount

end SignableTransaction

end MoneroOxide
