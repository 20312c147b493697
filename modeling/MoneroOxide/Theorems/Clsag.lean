import MoneroOxide.Lemmas.Clsag
import MoneroOxide.Lemmas.Instance
import MoneroOxide.Lib.Lists
import MoneroOxide.Lib.Results

/-!
# Completeness of CLSAG

Whatever the randomness, a list of inputs whose keys are those of their rings is signed, each signature verifies, and the
pseudo-outs commit to the amounts of the inputs with masks that add up to what was asked for.
-/

namespace MoneroOxide

namespace Clsag

variable {Γ : Ctx}

/-- What signing one input gives: a commitment to its amount, and a signature which verifies unless the mask is that of the input's
own commitment. -/
structure SignsFor (input : Scalar × ClsagContext Γ) (msgHash : Bytes 32) (mask : Scalar) (signed : Clsag × Γ.Point) : Prop where
  pseudoOut : signed.2 = Commitment.commit Γ { mask, amount := input.2.commitment.amount }
  verifies : mask ≠ input.2.commitment.mask →
    verify Γ signed.1 (compressRing Γ input.2.decoys.ring) (Γ.compress (input.1 • imageGenerator input.2))
      (Γ.compress signed.2) msgHash = .ok ()

/-- The inputs `Clsag::sign` is for: the key is that of the signer's place in the ring, it is not zero, and the generator of the
key image is not the identity. -/
structure Spendable (input : Scalar × ClsagContext Γ) : Prop where
  key : input.1 • Γ.G = input.2.decoys.signerRingMembers.1
  key_ne_zero : input.1 ≠ 0
  generator_ne_zero : imageGenerator input.2 ≠ 0

/-- The key images of inputs that can be spent. -/
theorem keyImages_eq {inputs : List (Scalar × ClsagContext Γ)}
    (h : ∀ input ∈ inputs, input.1 • Γ.G = input.2.decoys.signerRingMembers.1) :
    keyImages inputs = .ok (inputs.map fun input => (imageGenerator input.2, input.1 • imageGenerator input.2)) := by
  induction inputs with
  | nil => rfl
  | cons input inputs ih =>
    have hinput := h input (by simp)
    have hrest := ih fun input hin => h input (by simp [hin])
    rw [keyImages, if_neg (not_not.2 hinput), hrest]
    rfl

/-- `Clsag::sign` checks each key to be that of the signer's place. -/
theorem key_of_keyImages {inputs : List (Scalar × ClsagContext Γ)} {images : List (Γ.Point × Γ.Point)}
    (h : keyImages inputs = .ok images) : ∀ input ∈ inputs, input.1 • Γ.G = input.2.decoys.signerRingMembers.1 := by
  induction inputs generalizing images with
  | nil => exact fun input hin => absurd hin List.not_mem_nil
  | cons input inputs ih =>
    rw [keyImages] at h
    split at h
    · cases h
    · rename_i hkey
      obtain ⟨rest, hrest, -⟩ := Results.bind_eq_ok.1 h
      exact List.forall_mem_cons.2 ⟨not_not.1 hkey, ih hrest⟩

/-- The signature `Clsag::sign` gives for one input, from its mask, its nonce and the randomness left. -/
def signOne (msgHash : Bytes 32) (input : Scalar × ClsagContext Γ) (mask nonce : Scalar) (rng : Rng) : Clsag × Γ.Point :=
  let signed := (signCore rng (input.1 • imageGenerator input.2) input.2 mask msgHash (nonce • Γ.G)
    (nonce • imageGenerator input.2)).1
  ({ signed.incompleteClsag with
      s := setSignerS signed.incompleteClsag.s input.2.decoys.signerIndex
        (nonce - (signed.keyChallenge * input.1 + signed.challengedMask)) },
    signed.pseudoOut)

theorem signsFor_signOne {msgHash : Bytes 32} {input : Scalar × ClsagContext Γ} (h : Spendable input) (mask nonce : Scalar)
    (rng : Rng) : SignsFor input msgHash mask (signOne msgHash input mask nonce rng) where
  pseudoOut := rfl
  verifies := fun hmask => verify_signCore h.key h.key_ne_zero h.generator_ne_zero hmask rfl

theorem length_signOne (msgHash : Bytes 32) (input : Scalar × ClsagContext Γ) (mask nonce : Scalar) (rng : Rng) :
    (signOne msgHash input mask nonce rng).1.s.length = input.2.decoys.ring.length :=
  (length_setSignerS _ _ _).trans (length_randomScalars _ _)

/-- The inputs with the generators of their key images and their key images, as the loop of `Clsag::sign` takes them. -/
def withImages (inputs : List (Scalar × ClsagContext Γ)) : List ((Scalar × ClsagContext Γ) × (Γ.Point × Γ.Point)) :=
  inputs.map fun input => (input, (imageGenerator input.2, input.1 • imageGenerator input.2))

/-- The loop of `Clsag::sign` signs each input left, with masks that leave the sum of the masks as it should be. -/
theorem signLoop_signOne (sumOutputs : Scalar) (msgHash : Bytes 32) (inputs : List (Scalar × ClsagContext Γ))
    (sumPseudoOuts : Scalar)
    (rng : Rng) :
    ∃ masks : List Scalar, masks.length = inputs.length ∧ (inputs ≠ [] → sumPseudoOuts + masks.sum = sumOutputs) ∧
      List.Forall₂ (fun im signed => ∃ nonce rng, signed = signOne msgHash im.1 im.2 nonce rng) (inputs.zip masks)
        (signLoop sumOutputs msgHash (withImages inputs) sumPseudoOuts rng).1 := by
  induction inputs generalizing sumPseudoOuts rng with
  | nil => exact ⟨[], rfl, fun h => absurd rfl h, .nil⟩
  | cons input inputs ih =>
    cases inputs with
    | nil =>
      refine ⟨[sumOutputs - sumPseudoOuts], rfl, fun _ => by simp, ?_⟩
      exact .cons ⟨_, _, rfl⟩ .nil
    | cons input' inputs =>
      let mask := (Scalar.random rng).1
      let nonce := (Scalar.random (Scalar.random rng).2).1
      let rng' := (Scalar.random (Scalar.random rng).2).2
      let rng'' := (signCore rng' (input.1 • imageGenerator input.2) input.2 mask msgHash (nonce • Γ.G)
        (nonce • imageGenerator input.2)).2
      obtain ⟨masks, hlen, hsum, hall⟩ := ih (sumPseudoOuts + mask) rng''
      refine ⟨mask :: masks, by simp [hlen], fun _ => ?_, ?_⟩
      · rw [List.sum_cons, ← add_assoc]
        exact hsum (by simp)
      · exact .cons ⟨nonce, rng', rfl⟩ hall

/-- The signatures for inputs which can be spent verify. -/
theorem signLoop_spec (sumOutputs : Scalar) (msgHash : Bytes 32) (inputs : List (Scalar × ClsagContext Γ))
    (h : ∀ input ∈ inputs, Spendable input) (sumPseudoOuts : Scalar) (rng : Rng) :
    ∃ masks : List Scalar, masks.length = inputs.length ∧ (inputs ≠ [] → sumPseudoOuts + masks.sum = sumOutputs) ∧
      List.Forall₂ (fun im signed => SignsFor im.1 msgHash im.2 signed) (inputs.zip masks)
        (signLoop sumOutputs msgHash (withImages inputs) sumPseudoOuts rng).1 := by
  obtain ⟨masks, hlen, hsum, hall⟩ := signLoop_signOne sumOutputs msgHash inputs sumPseudoOuts rng
  refine ⟨masks, hlen, hsum, List.forall₂_iff_get.2 ⟨hall.length_eq, fun i hi hi' => ?_⟩⟩
  obtain ⟨nonce, rng', hone⟩ := hall.get hi hi'
  rw [hone]
  exact signsFor_signOne (h _ (List.of_mem_zip (List.get_mem _ _)).1) _ _ _

/-- What `Clsag::sign` returns when each key is that of the signer's place. -/
theorem sign_eq {inputs : List (Scalar × ClsagContext Γ)}
    (h : ∀ input ∈ inputs, input.1 • Γ.G = input.2.decoys.signerRingMembers.1) (rng : Rng) (sumOutputs : Scalar)
    (msgHash : Bytes 32) :
    sign rng inputs sumOutputs msgHash = .ok (signLoop sumOutputs msgHash (withImages inputs) 0 rng) := by
  rw [sign, keyImages_eq h]
  show Except.ok (signLoop sumOutputs msgHash (inputs.zip _) 0 rng) = _
  rw [Lists.zip_map_self]
  rfl

/-- CLSAG is complete. -/
theorem clsag_complete (inputs : List (Scalar × ClsagContext Γ)) (hne : inputs ≠ []) (h : ∀ input ∈ inputs, Spendable input)
    (sumOutputs : Scalar) (msgHash : Bytes 32) (rng : Rng) :
    ∃ (signed : List (Clsag × Γ.Point)) (rng' : Rng) (masks : List Scalar),
    sign rng inputs sumOutputs msgHash = .ok (signed, rng') ∧
      signed.length = inputs.length ∧ masks.length = inputs.length ∧ masks.sum = sumOutputs ∧
      ∀ (i : ℕ) (input : Scalar × ClsagContext Γ) (mask : Scalar) (clsag : Clsag) (pseudoOut : Γ.Point),
        inputs[i]? = some input → masks[i]? = some mask → signed[i]? = some (clsag, pseudoOut) →
        pseudoOut = Commitment.commit Γ { mask, amount := input.2.commitment.amount } ∧
        (mask ≠ input.2.commitment.mask →
          verify Γ clsag (compressRing Γ input.2.decoys.ring) (Γ.compress (input.1 • imageGenerator input.2))
            (Γ.compress pseudoOut) msgHash = .ok ()) := by
  obtain ⟨masks, hlen, hsum, hall⟩ := signLoop_spec sumOutputs msgHash inputs h 0 rng
  have hsign := sign_eq (fun input hin => (h input hin).key) rng sumOutputs msgHash
  refine ⟨_, _, masks, hsign, ?_, hlen, ?_, ?_⟩
  · rw [← hall.length_eq, List.length_zip, hlen, Nat.min_self]
  · rw [← hsum hne, zero_add]
  · intro i input mask clsag pseudoOut hinput hmask hsigned
    have hzip : (inputs.zip masks)[i]? = some (input, mask) := by simp [List.getElem?_zip_eq_some, hinput, hmask]
    have hone : SignsFor input msgHash mask (clsag, pseudoOut) := Lists.forall₂_getElem? hall hzip hsigned
    exact ⟨hone.pseudoOut, hone.verifies⟩

/-- A ring of one member, over the context of `instanceCtx`. -/
def instanceContext : ClsagContext instanceCtx where
  commitment := { mask := 1, amount := 0 }
  decoys :=
    { offsets := [0], signerIndex := 0, ring := [(instanceCtx.G, Commitment.commit instanceCtx { mask := 1, amount := 0 })],
      valid := by decide }
  opens := rfl

theorem spendable_instanceContext : Spendable ((1, instanceContext) : Scalar × ClsagContext instanceCtx) where
  key := Scalar.one_smul _
  key_ne_zero := one_ne_zero
  generator_ne_zero := by
    rw [imageGenerator, biasedHash_instanceCtx]
    exact instanceCtx_G_ne_zero

/-- The one member of a ring signs, with any randomness. -/
theorem clsag_complete_instanceContext :
    ∃ clsag pseudoOut rng', sign (Stream'.const (Bytes.replicate 64 0)) [((1 : Scalar), instanceContext)] 0 (Bytes.replicate 32 0) =
        .ok ([(clsag, pseudoOut)], rng') ∧
      verify instanceCtx clsag (compressRing instanceCtx instanceContext.decoys.ring)
        (instanceCtx.compress ((1 : Scalar) • imageGenerator instanceContext)) (instanceCtx.compress pseudoOut)
        (Bytes.replicate 32 0) = .ok () := by
  obtain ⟨signed, rng', masks, hsign, hlen, hmasks, hsum, hall⟩ :=
    clsag_complete [((1 : Scalar), instanceContext)] (by simp) (by simpa using spendable_instanceContext) 0
      (Bytes.replicate 32 0) (Stream'.const (Bytes.replicate 64 0))
  obtain ⟨⟨clsag, pseudoOut⟩, rfl⟩ := List.length_eq_one_iff.1 hlen
  obtain ⟨mask, rfl⟩ := List.length_eq_one_iff.1 hmasks
  have hmask : mask = 0 := by simpa using hsum
  refine ⟨clsag, pseudoOut, rng', hsign, (hall 0 _ mask clsag pseudoOut rfl rfl rfl).2 ?_⟩
  rw [hmask]
  exact zero_ne_one

end Clsag

end MoneroOxide
