import MoneroOxide.Lemmas.ClsagMultisig
import MoneroOxide.Theorems.Clsag

/-!
# Completeness of CLSAG multisig

The participants of a signing set who follow the algorithm hold the same state once they have signed their shares, and the sum of
their shares completes a signature that verifies.
-/

namespace MoneroOxide

namespace ClsagMultisig

variable {Γ : Ctx}

/-- The keys of a multisig for a signing set, as all its participants know them, and the secret shares they know each their own of. -/
structure KeyShares (Γ : Ctx) where
  included : List Participant
  groupKey : Γ.Point
  scalar : Scalar
  offset : Scalar
  originalSecretShare : Participant → Scalar
  interpolationFactor : Participant → Scalar
  verificationShare : Participant → Γ.Point

namespace KeyShares

/-- The secret share of a participant for the signing set: interpolated, multiplied by the scalar, and with the offset added by the
first participant who is included. -/
def secretShare (keys : KeyShares Γ) (i : Participant) : Scalar :=
  keys.scalar * (keys.interpolationFactor i * keys.originalSecretShare i) +
    if keys.included.head? = some i then keys.offset else 0

/-- The secret of the group. -/
def groupSecret (keys : KeyShares Γ) : Scalar := (keys.included.map keys.secretShare).sum

/-- The view FROST gives a participant. -/
def view (keys : KeyShares Γ) (i : Participant) : ThresholdView Γ where
  groupKey := keys.groupKey
  scalar := keys.scalar
  offset := keys.offset
  interpolationFactor := fun l => if l ∈ keys.included then some (keys.interpolationFactor l) else none
  verificationShare := keys.verificationShare
  secretShare := keys.secretShare i

end KeyShares

/-- A signing set: at least a threshold of distinct participants, whose secret shares add up to the discrete logarithm of the
group's key. -/
structure SigningSet (Γ : Ctx) extends KeyShares Γ where
  threshold : ℕ
  threshold_pos : 0 < threshold
  threshold_le : threshold ≤ included.length
  nodup : included.Nodup
  interpolates : toKeyShares.groupSecret • Γ.G = groupKey

namespace SigningSet

theorem included_ne_nil (keys : SigningSet Γ) : keys.included ≠ [] := by
  intro h
  have hle := keys.threshold_le
  have hpos := keys.threshold_pos
  rw [h, List.length_nil] at hle
  omega

/-- The offset is counted once. -/
theorem groupSecret_eq (keys : SigningSet Γ) :
    keys.groupSecret =
      keys.offset + (keys.included.map fun i => keys.scalar * (keys.interpolationFactor i * keys.originalSecretShare i)).sum := by
  have hne := keys.included_ne_nil
  have hnodup := keys.nodup
  unfold KeyShares.groupSecret KeyShares.secretShare
  generalize keys.included = included at *
  cases included with
  | nil => exact absurd rfl hne
  | cons i is =>
    have hi : ∀ j ∈ is, (i :: is).head? ≠ some j := by
      intro j hj h
      rw [List.head?_cons, Option.some.injEq] at h
      exact (List.nodup_cons.1 hnodup).1 (h ▸ hj)
    have hmap : is.map (fun j => keys.scalar * (keys.interpolationFactor j * keys.originalSecretShare j) +
          if (i :: is).head? = some j then keys.offset else 0) =
        is.map fun j => keys.scalar * (keys.interpolationFactor j * keys.originalSecretShare j) := by
      refine List.map_congr_left fun j hj => ?_
      rw [if_neg (hi j hj), add_zero]
    rw [List.map_cons, List.sum_cons, List.map_cons, List.sum_cons, hmap, List.head?_cons, if_pos rfl]
    ring

end SigningSet

/-- The algorithm every participant starts from, once the mask was sent to it. -/
def start (transcript : Transcript) (context : ClsagContext Γ) (mask : Scalar) : ClsagMultisig Γ :=
    (new transcript context).send mask

/-- The sums of the nonces of the participants, over the generators the algorithm asks for. -/
def nonceSums (keys : SigningSet Γ) (context : ClsagContext Γ) (nonce : Participant → Scalar) : Γ.Point × Γ.Point :=
  ((keys.included.map fun i => nonce i • Γ.G).sum, (keys.included.map fun i => nonce i • Clsag.imageGenerator context).sum)

/-- Multiplication of a point of the prime-order subgroup by a sum of scalars. -/
theorem sum_smul {α : Type} {P : Γ.Point} (hP : Γ.TorsionFree P) (is : List α) (f : α → Scalar) :
    (is.map fun i => f i • P).sum = (is.map f).sum • P := by
  induction is with
  | nil => exact (Scalar.zero_smul P).symm
  | cons i is ih => rw [List.map_cons, List.sum_cons, List.map_cons, List.sum_cons, hP.add_smul, ih]

/-- The sum of differences with a common factor. -/
theorem sum_sub_mul {α : Type} (is : List α) (f g : α → Scalar) (c : Scalar) :
    (is.map fun i => f i - c * g i).sum = (is.map f).sum - c * (is.map g).sum := by
  induction is with
  | nil => simp
  | cons i is ih =>
    simp only [List.map_cons, List.sum_cons, ih]
    ring

/-- The events of honest participants: each one's addendum is processed once, in any order, with messages appended to the transcript
between them. -/
structure Honest (keys : SigningSet Γ) (context : ClsagContext Γ) (events : List (Event Γ)) : Prop where
  perm : ((addenda events).map Prod.fst).Perm keys.included
  honest : ∀ pair ∈ addenda events,
    pair.2 = preprocessAddendum (new [] context) (keys.originalSecretShare pair.1)

/-- The view is used for the secret share when signing only, so all participants do the same until then. -/
theorem run_view (keys : KeyShares Γ) (i j : Participant) (events : List (Event Γ)) :
    run (keys.view i) events = run (keys.view j) events := by
  induction events with
  | nil => rfl
  | cons event events ih =>
    have hstep : step (keys.view i) event = step (keys.view j) event := by
      cases event <;> rfl
    rw [run, run, ih, hstep]

/-- The interpolated shares of honest participants, and the offset once, are the group's secret times the generator. -/
theorem honest_image {keys : SigningSet Γ} {context : ClsagContext Γ} {events : List (Event Γ)} (h : Honest keys context events)
    (i : Participant) :
    keys.offset • Clsag.imageGenerator context + interpolatedSum (keys.view i) events =
      keys.groupSecret • Clsag.imageGenerator context := by
  have hHp : Γ.TorsionFree (Clsag.imageGenerator context) := Ctx.torsionFree_biasedHash _
  have hshare : ∀ pair ∈ addenda events, interpolated (keys.view i) pair =
      (keys.scalar * (keys.interpolationFactor pair.1 * keys.originalSecretShare pair.1)) • Clsag.imageGenerator context := by
    intro pair hpair
    have hmem : pair.1 ∈ keys.included := h.perm.subset (List.mem_map_of_mem hpair)
    have hfactor : (keys.view i).interpolationFactor pair.1 = some (keys.interpolationFactor pair.1) := if_pos hmem
    rw [interpolated, h.honest pair hpair, hfactor, Option.getD_some, hHp.mul_smul, hHp.mul_smul]
    rfl
  have hsum : interpolatedSum (keys.view i) events = ((keys.included.map fun l =>
      keys.scalar * (keys.interpolationFactor l * keys.originalSecretShare l)).sum) • Clsag.imageGenerator context := by
    rw [interpolatedSum, List.map_congr_left hshare,
      ← (h.perm.map fun l => keys.scalar * (keys.interpolationFactor l * keys.originalSecretShare l)).sum_eq, List.map_map,
      ← sum_smul hHp]
    rfl
  rw [hsum, ← hHp.add_smul, ← keys.groupSecret_eq]

/-- CLSAG multisig is complete. -/
theorem clsagMultisig_complete (keys : SigningSet Γ) (transcript : Transcript) (context : ClsagContext Γ) (mask : Scalar)
    (events : List (Event Γ)) (nonce : Participant → Scalar) (msgHash : Bytes 32)
    (hkey : keys.groupKey = context.decoys.signerRingMembers.1) (hevents : Honest keys context events)
    (hmask : mask ≠ context.commitment.mask) (hsecret : keys.groupSecret ≠ 0) (hHp : Clsag.imageGenerator context ≠ 0) :
    ∃ (processed signed : ClsagMultisig Γ) (share : Participant → Scalar) (interim : Interim Γ) (clsag : Clsag),
      (∀ i ∈ keys.included,
        run (keys.view i) events (start transcript context mask) = .ok () processed ∧
        signShare (keys.view i) (nonceSums keys context nonce) (nonce i) msgHash processed = .ok (share i) signed) ∧
      signed.interim = some interim ∧
      signed.image = keys.groupSecret • Clsag.imageGenerator context ∧
      verify signed (keys.included.map share).sum = .ok (some (clsag, interim.pseudoOut)) ∧
      Clsag.verify Γ clsag (Clsag.compressRing Γ context.decoys.ring)
        (Γ.compress (keys.groupSecret • Clsag.imageGenerator context)) (Γ.compress interim.pseudoOut) msgHash = .ok () := by
  have hne : addenda events ≠ [] := by
    intro h
    have := hevents.perm.length_eq
    rw [h, List.map_nil, List.length_nil, eq_comm, List.length_eq_zero_iff] at this
    exact keys.included_ne_nil this
  obtain ⟨first, hfirst⟩ := List.exists_mem_of_ne_nil _ keys.included_ne_nil
  have hfactor : ∀ pair ∈ addenda events, ((keys.view first).interpolationFactor pair.1).isSome := by
    intro pair hpair
    have hmem : pair.1 ∈ keys.included := hevents.perm.subset (List.mem_map_of_mem hpair)
    simp [KeyShares.view, hmem]
  have hcontext : (start transcript context mask).context = context := rfl
  have hgenerator : (start transcript context mask).keyImageGenerator = Clsag.imageGenerator context := rfl
  have hrecv : (start transcript context mask).maskRecv = some (some mask) := rfl
  obtain ⟨processed, hrun, hholds⟩ := run_spec hkey events hne hfactor hcontext hgenerator hrecv rfl
  have himage : processed.image = keys.groupSecret • Clsag.imageGenerator context :=
    hholds.image_eq.trans (honest_image hevents first)
  set r := (keys.included.map nonce).sum with hr
  have hsums : nonceSums keys context nonce = (r • Γ.G, r • Clsag.imageGenerator context) :=
    Prod.ext (sum_smul Ctx.torsionFree_G _ _) (sum_smul (Ctx.torsionFree_biasedHash _) _ _)
  set signed := signOf processed mask msgHash (r • Γ.G) (r • Clsag.imageGenerator context) with hsigned
  have hverify := Clsag.verify_signCore (keys.interpolates.trans hkey) hsecret hHp hmask
    (show signed = _ by rw [hsigned, signOf, himage, hholds.context_eq])
  have hshares : (keys.included.map fun i => nonce i - signed.keyChallenge * keys.secretShare i).sum =
      r - signed.keyChallenge * keys.groupSecret := sum_sub_mul _ _ _ _
  refine ⟨processed, afterShare processed mask msgHash (r • Γ.G) (r • Clsag.imageGenerator context),
    fun i => nonce i - signed.keyChallenge * keys.secretShare i, _, _, ?_, rfl, himage, ?_, hverify⟩
  · intro i _
    rw [hsums]
    exact ⟨(congrFun (run_view keys.toKeyShares i first events) _).trans hrun, signShare_eq hholds.mask_eq ..⟩
  · refine verify_afterShare ?_ ?_
    · rw [hshares, ← hsigned, hholds.context_eq, sub_sub]
    · rw [hholds.context_eq, himage, ← hsigned]
      exact hverify

/-- Two of the participants of a multisig whose shares are of `1 + i`, for the combination `2 * x - 1` of its key, over the context
of `instanceCtx`. -/
def instanceShares : KeyShares instanceCtx where
  included := [1, 2]
  groupKey := instanceCtx.G
  scalar := 2
  offset := -1
  originalSecretShare := fun i => 1 + (i.toNat : Scalar)
  interpolationFactor := fun i => if i = 1 then 2 else -1
  verificationShare := fun i => (1 + (i.toNat : Scalar)) • instanceCtx.G

theorem groupSecret_instanceShares : instanceShares.groupSecret = 1 := by
  simp only [KeyShares.groupSecret, KeyShares.secretShare, instanceShares, List.map_cons, List.map_nil, List.head?_cons,
    List.sum_cons, List.sum_nil, if_true, show (2 : Participant) ≠ 1 by decide, if_false,
    show ¬(some (1 : Participant) = some 2) by decide, show (1 : Participant).toNat = 1 from rfl,
    show (2 : Participant).toNat = 2 from rfl]
  norm_num

/-- Their signing set, for a threshold of two. -/
def instanceKeys : SigningSet instanceCtx where
  toKeyShares := instanceShares
  threshold := 2
  threshold_pos := Nat.two_pos
  threshold_le := le_rfl
  nodup := by decide
  interpolates := by
    rw [groupSecret_instanceShares]
    exact Scalar.one_smul _

/-- The events of the two participants, where the addendum of the second is processed first. -/
def instanceEvents : List (Event instanceCtx) :=
  let addendum := fun i => preprocessAddendum (new [] Clsag.instanceContext) (instanceShares.originalSecretShare i)
  [.addendum 2 (addendum 2), .append [] [], .addendum 1 (addendum 1)]

theorem honest_instanceEvents : Honest instanceKeys Clsag.instanceContext instanceEvents where
  perm := List.Perm.swap 1 2 []
  honest := by
    intro pair hpair
    simp only [instanceEvents, addenda, List.mem_cons, List.not_mem_nil, or_false] at hpair
    obtain rfl | rfl := hpair <;> rfl

/-- Two participants complete a signature. -/
theorem clsagMultisig_complete_instanceKeys :
    ∃ (signed : ClsagMultisig instanceCtx) (share : Participant → Scalar) (clsag : Clsag) (pseudoOut : instanceCtx.Point),
      verify signed (share 1 + share 2) = .ok (some (clsag, pseudoOut)) ∧
      Clsag.verify instanceCtx clsag (Clsag.compressRing instanceCtx Clsag.instanceContext.decoys.ring)
        (instanceCtx.compress (instanceKeys.groupSecret • Clsag.imageGenerator Clsag.instanceContext))
        (instanceCtx.compress pseudoOut) (Bytes.replicate 32 0) = .ok () := by
  obtain ⟨_, signed, share, interim, clsag, _, _, _, hverify, hclsag⟩ :=
    clsagMultisig_complete instanceKeys [] Clsag.instanceContext 0 instanceEvents (fun _ => 1) (Bytes.replicate 32 0) rfl
      honest_instanceEvents zero_ne_one (groupSecret_instanceShares ▸ one_ne_zero)
      Clsag.spendable_instanceContext.generator_ne_zero
  refine ⟨signed, share, clsag, interim.pseudoOut, ?_, hclsag⟩
  simpa [instanceKeys, instanceShares] using hverify

end ClsagMultisig

end MoneroOxide
