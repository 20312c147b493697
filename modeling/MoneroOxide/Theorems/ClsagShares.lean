import MoneroOxide.Theorems.ClsagMultisig

/-!
# Blame for shares of CLSAG multisig

`verify_share` returns one linear combination for two statements about a share, the second of which has a weight. It is the
identity for any weight if both are true, and for at most one weight if not. For a share that was signed as it should be both are:
the share of the key image that was recorded has the same discrete logarithm as the verification share, also for the first
participant, whose shares the offset was added to.
-/

namespace MoneroOxide

namespace ClsagMultisig

variable {Γ : Ctx}

/-- What a linear combination evaluates to. -/
def evaluate (statements : List (Scalar × Γ.Point)) : Γ.Point := (statements.map fun pair => pair.1 • pair.2).sum

section Statements

variable {algorithm : ClsagMultisig Γ} {interim : Interim Γ} {V K : Γ.Point} {R : Γ.Point × Γ.Point}
  (hH : Γ.TorsionFree algorithm.keyImageGenerator) (hK : Γ.TorsionFree K) (hR : Γ.TorsionFree R.1) (hR' : Γ.TorsionFree R.2)
  (share weight : Scalar)

include hH hK hR hR'

theorem evaluate_shareStatements :
    evaluate (shareStatements algorithm interim V K R share weight) =
      (share • Γ.G - R.1 + interim.p • V) + weight • (share • algorithm.keyImageGenerator - R.2 + interim.p • K) := by
  have hneg : (-1 : Scalar) • R.1 = -R.1 := by
    rw [← zero_sub, hR.sub_smul, Scalar.zero_smul, Scalar.one_smul, zero_sub]
  have hnegWeight : (-weight) • R.2 = -(weight • R.2) := by
    rw [← zero_sub, hR'.sub_smul, Scalar.zero_smul, zero_sub]
  simp only [evaluate, shareStatements, List.cons_append, List.nil_append, List.map_cons, List.map_nil, List.sum_cons, List.sum_nil,
    hneg, hnegWeight, hH.mul_smul, hK.mul_smul, Scalar.smul_add, Scalar.smul_sub]
  abel

/-- The combination is the identity if both statements are true. -/
theorem evaluate_eq_zero (h : share • Γ.G = R.1 - interim.p • V ∧ share • algorithm.keyImageGenerator = R.2 - interim.p • K) :
    evaluate (shareStatements algorithm interim V K R share weight) = 0 := by
  rw [evaluate_shareStatements hH hK hR hR', h.1, h.2]
  simp [Scalar.smul_def]

/-- A combination which is the identity for two weights is it for each of the statements. -/
theorem statements_of_evaluate {weight weight' : Scalar} (hne : weight ≠ weight')
    (h : evaluate (shareStatements algorithm interim V K R share weight) = 0)
    (h' : evaluate (shareStatements algorithm interim V K R share weight') = 0) :
    share • Γ.G = R.1 - interim.p • V ∧ share • algorithm.keyImageGenerator = R.2 - interim.p • K := by
  rw [evaluate_shareStatements hH hK hR hR'] at h h'
  set X := share • Γ.G - R.1 + interim.p • V with hX
  set Y := share • algorithm.keyImageGenerator - R.2 + interim.p • K with hY
  have hYfree : Γ.TorsionFree Y := ((hH.smul share).sub hR').add (hK.smul _)
  have hzero : (weight - weight') • Y = 0 := by
    rw [hYfree.sub_smul, sub_eq_zero]
    exact add_left_cancel (h.trans h'.symm)
  have hYzero : Y = 0 := ((hYfree.smul_eq_zero _).1 hzero).resolve_left (sub_ne_zero.2 hne)
  have hXzero : X = 0 := by
    rw [hYzero] at h
    rw [← h, Scalar.smul_def, smul_zero, add_zero]
  refine ⟨?_, ?_⟩
  · rw [← sub_eq_zero, ← hXzero, hX]
    abel
  · rw [← sub_eq_zero, ← hYzero, hY]
    abel

end Statements

/-! ## The shares of the key image -/

/-- FROST processes the addenda of the participants who are included in their order. -/
structure InOrder (keys : SigningSet Γ) (context : ClsagContext Γ) (events : List (Event Γ)) : Prop where
  order : (addenda events).map Prod.fst = keys.included
  honest : ∀ pair ∈ addenda events, pair.2 = preprocessAddendum (new [] context) (keys.originalSecretShare pair.1)

/-- The verification shares of the participants are of their secret shares for the signing set. -/
def Matching (keys : KeyShares Γ) : Prop := ∀ i ∈ keys.included, keys.verificationShare i = keys.secretShare i • Γ.G

/-- The shares of the key image recorded for participants are of their secret shares. -/
def Records (keys : KeyShares Γ) (generator : Γ.Point) (ls : List Participant) (algorithm : ClsagMultisig Γ) : Prop :=
  ∀ l ∈ ls, algorithm.keyImageShares (Γ.compress (keys.verificationShare l)) = some (keys.secretShare l • generator)

section Records

variable {keys : KeyShares Γ} {generator : Γ.Point} {context : ClsagContext Γ} (hG : Γ.G ≠ 0) (hkeys : Matching keys)

include hG hkeys

/-- Participants with one verification share have one secret share. -/
theorem secretShare_eq_of_compress {i j : Participant} (hi : i ∈ keys.included) (hj : j ∈ keys.included)
    (h : Γ.compress (keys.verificationShare i) = Γ.compress (keys.verificationShare j)) :
    keys.secretShare i = keys.secretShare j := by
  have hpoint : keys.verificationShare i = keys.verificationShare j := by
    have hsome := Γ.decompress_compress (keys.verificationShare i)
    rw [h, Γ.decompress_compress] at hsome
    exact (Option.some.inj hsome).symm
  rw [hkeys i hi, hkeys j hj, ← sub_eq_zero, ← Ctx.torsionFree_G.sub_smul, Ctx.torsionFree_G.smul_eq_zero] at hpoint
  exact sub_eq_zero.1 (hpoint.resolve_right hG)

theorem Records.accumulated {ls : List Participant} {l i : Participant} {factor offset : Scalar} {addendum : ClsagAddendum Γ}
    {algorithm : ClsagMultisig Γ} (h : Records keys generator ls algorithm) (hls : ∀ l ∈ ls, l ∈ keys.included)
    (hl : l ∈ keys.included)
    (hshare : keys.scalar • factor • addendum.keyImageShare + offset • algorithm.keyImageGenerator =
    keys.secretShare l • generator) :
    Records keys generator (ls ++ [l]) (accumulated (keys.view i) l factor offset addendum algorithm) := by
  intro l' hl'
  change Function.update algorithm.keyImageShares (Γ.compress (keys.verificationShare l))
    (some (keys.scalar • factor • addendum.keyImageShare + offset • algorithm.keyImageGenerator)) _ = _
  rw [hshare]
  by_cases hsame : Γ.compress (keys.verificationShare l') = Γ.compress (keys.verificationShare l)
  · have hmem : l' ∈ keys.included := by
      rcases List.mem_append.1 hl' with hold | hnew
      · exact hls l' hold
      · rwa [List.mem_singleton.1 hnew]
    rw [hsame, Function.update_self, secretShare_eq_of_compress hG hkeys hmem hl hsame]
  · have hold : l' ∈ ls := by
      rcases List.mem_append.1 hl' with hold | hnew
      · exact hold
      · exact absurd (by rw [List.mem_singleton.1 hnew]) hsame
    rw [Function.update_of_ne hsame]
    exact h l' hold

end Records

/-- The interpolated share of an honest participant. -/
theorem honest_share (keys : KeyShares Γ) (context : ClsagContext Γ) (l : Participant) (offset : Scalar) :
    keys.scalar • keys.interpolationFactor l • (preprocessAddendum (new [] context) (keys.originalSecretShare l)).keyImageShare +
        offset • Clsag.imageGenerator context =
      (keys.scalar * (keys.interpolationFactor l * keys.originalSecretShare l) + offset) • Clsag.imageGenerator context := by
  have hHp : Γ.TorsionFree (Clsag.imageGenerator context) := Ctx.torsionFree_biasedHash _
  rw [hHp.add_smul, hHp.mul_smul, hHp.mul_smul]
  rfl

section Run

variable {keys : SigningSet Γ} {context : ClsagContext Γ} {i : Participant} (hG : Γ.G ≠ 0) (hkeys : Matching keys.toKeyShares)

include hG hkeys

/-- The addenda after the first one, none of which is of the first participant. -/
theorem run_records_later {events : List (Event Γ)} {ls : List Participant} {algorithm algorithm' : ClsagMultisig Γ}
    (hkey : keys.groupKey = algorithm.context.decoys.signerRingMembers.1)
    (hgenerator : algorithm.keyImageGenerator = Clsag.imageGenerator context) (hrecv : algorithm.maskRecv = none)
    (hhonest : ∀ pair ∈ addenda events, pair.1 ∈ keys.included ∧ keys.included.head? ≠ some pair.1 ∧
      pair.2 = preprocessAddendum (new [] context) (keys.originalSecretShare pair.1))
    (hls : ∀ l ∈ ls, l ∈ keys.included) (h : Records keys.toKeyShares (Clsag.imageGenerator context) ls algorithm)
    (hrun : run (keys.view i) events algorithm = .ok () algorithm') :
    Records keys.toKeyShares (Clsag.imageGenerator context) (ls ++ (addenda events).map Prod.fst) algorithm' := by
  induction events generalizing ls algorithm with
  | nil =>
    cases hrun
    simpa [addenda] using h
  | cons event events ih =>
    cases event with
    | append label message =>
      change run (keys.view i) events { algorithm with transcript := algorithm.transcript ++ [(label, message)] } = _ at hrun
      refine ih ?_ ?_ ?_ hhonest hls ?_ hrun
      · exact hkey
      · exact hgenerator
      · exact hrecv
      · exact h
    | addendum l addendum =>
      obtain ⟨⟨hmem, hhead, haddendum⟩, hrest⟩ := List.forall_mem_cons.1 hhonest
      have hfactor : (keys.view i).interpolationFactor l = some (keys.interpolationFactor l) := if_pos hmem
      have hstep : step (keys.view i) (.addendum l addendum) algorithm =
          .ok () (accumulated (keys.view i) l (keys.interpolationFactor l) 0 addendum algorithm) :=
        processAddendum_later hkey hfactor hrecv
      rw [run_cons hstep] at hrun
      have hshare : keys.scalar • keys.interpolationFactor l • addendum.keyImageShare + (0 : Scalar) • algorithm.keyImageGenerator =
          keys.secretShare l • Clsag.imageGenerator context := by
        rw [show addendum = _ from haddendum, hgenerator, honest_share, KeyShares.secretShare, if_neg hhead]
      have hnext := h.accumulated hG hkeys (i := i) hls hmem hshare
      have hls' : ∀ l' ∈ ls ++ [l], l' ∈ keys.included := by
        intro l' hl'
        rcases List.mem_append.1 hl' with hold | hnew
        · exact hls l' hold
        · rwa [List.mem_singleton.1 hnew]
      have hlist : ls ++ (addenda (.addendum l addendum :: events)).map Prod.fst = ls ++ [l] ++ (addenda events).map Prod.fst := by
        rw [List.append_assoc, List.singleton_append]
        rfl
      rw [hlist]
      refine ih ?_ ?_ ?_ hrest hls' hnext hrun
      · exact hkey
      · exact hgenerator
      · exact hrecv

/-- All of the addenda, the first of which the offset is applied to. -/
theorem run_records {events : List (Event Γ)} {mask : Scalar} {algorithm algorithm' : ClsagMultisig Γ}
    (hkey : keys.groupKey = algorithm.context.decoys.signerRingMembers.1)
    (hgenerator : algorithm.keyImageGenerator = Clsag.imageGenerator context) (hrecv : algorithm.maskRecv = some (some mask))
    (h : InOrder keys context events) (hrun : run (keys.view i) events algorithm = .ok () algorithm') :
    Records keys.toKeyShares (Clsag.imageGenerator context) keys.included algorithm' := by
  obtain ⟨horder, hhonest⟩ := h
  induction events generalizing algorithm with
  | nil => exact absurd horder.symm keys.included_ne_nil
  | cons event events ih =>
    cases event with
    | append label message =>
      change run (keys.view i) events { algorithm with transcript := algorithm.transcript ++ [(label, message)] } = _ at hrun
      refine ih ?_ ?_ ?_ hrun horder hhonest
      · exact hkey
      · exact hgenerator
      · exact hrecv
    | addendum l addendum =>
      obtain ⟨haddendum, hrest⟩ := List.forall_mem_cons.1 hhonest
      change l :: (addenda events).map Prod.fst = keys.included at horder
      have hhead : keys.included.head? = some l := by rw [← horder]; rfl
      have hmem : l ∈ keys.included := by rw [← horder]; exact List.mem_cons_self
      have hfactor : (keys.view i).interpolationFactor l = some (keys.interpolationFactor l) := if_pos hmem
      have hstep : step (keys.view i) (.addendum l addendum) algorithm =
          .ok () (accumulated (keys.view i) l (keys.interpolationFactor l) keys.offset addendum (received mask algorithm)) :=
        processAddendum_first hkey hfactor hrecv
      rw [run_cons hstep] at hrun
      have hshare : keys.scalar • keys.interpolationFactor l • addendum.keyImageShare +
          keys.offset • (received mask algorithm).keyImageGenerator = keys.secretShare l • Clsag.imageGenerator context := by
        change _ + keys.offset • algorithm.keyImageGenerator = _
        rw [show addendum = _ from haddendum, hgenerator, honest_share, KeyShares.secretShare, if_pos hhead]
      have hstart : Records keys.toKeyShares (Clsag.imageGenerator context) [] (received mask algorithm) := by
        intro l' hl'
        contradiction
      have hfirst := hstart.accumulated hG hkeys (i := i) (by simp) hmem hshare
      -- The participants are distinct, so that no other is the first.
      have hnodup := keys.nodup
      rw [← horder, List.nodup_cons] at hnodup
      have hlater : ∀ pair ∈ addenda events, pair.1 ∈ keys.included ∧ keys.included.head? ≠ some pair.1 ∧
          pair.2 = preprocessAddendum (new [] context) (keys.originalSecretShare pair.1) := by
        intro pair hpair
        have hfst := List.mem_map_of_mem (f := Prod.fst) hpair
        refine ⟨by rw [← horder]; exact List.mem_cons_of_mem _ hfst, ?_, hrest pair hpair⟩
        intro hsome
        rw [hhead] at hsome
        exact hnodup.1 (Option.some.inj hsome ▸ hfst)
      rw [← horder, show l :: (addenda events).map Prod.fst = [] ++ [l] ++ (addenda events).map Prod.fst from rfl]
      refine run_records_later hG hkeys ?_ ?_ ?_ hlater ?_ hfirst hrun
      · exact hkey
      · exact hgenerator
      · rfl
      · simpa using hmem

end Run

theorem verifyShare_eq (challenge : Transcript → Bytes 64) {algorithm : ClsagMultisig Γ} {interim : Interim Γ} {V K : Γ.Point}
    (hinterim : algorithm.interim = some interim) (hshare : algorithm.keyImageShares (Γ.compress V) = some K)
    (R : Γ.Point × Γ.Point) (s : Scalar) :
    ∃ w, verifyShare challenge algorithm V R s = .ok (shareStatements algorithm interim V K R s w) := by
  unfold verifyShare
  simp only [hinterim, hshare]
  exact ⟨_, rfl⟩

/-- A share which was signed meets both statements, over the verification share and the share of the key image. -/
theorem share_statement {P : Γ.Point} (hP : Γ.TorsionFree P) (nonce p x : Scalar) :
    (nonce - p * x) • P = nonce • P - p • x • P := by
  rw [hP.sub_smul, hP.mul_smul]

/-- `verify_share` is a complete and sound batched check. -/
theorem verifyShare_batched (Γ : Ctx) (challenge : Transcript → Bytes 64) :
    (∀ (algorithm : ClsagMultisig Γ) (interim : Interim Γ) (V K R R' : Γ.Point) (s : Scalar), algorithm.interim = some interim →
      algorithm.keyImageShares (Γ.compress V) = some K → Γ.TorsionFree algorithm.keyImageGenerator → Γ.TorsionFree K →
      Γ.TorsionFree R → Γ.TorsionFree R' →
      (∃ w, verifyShare challenge algorithm V (R, R') s = .ok (shareStatements algorithm interim V K (R, R') s w)) ∧
      (∀ w, evaluate (shareStatements algorithm interim V K (R, R') s w) =
        (s • Γ.G - R + interim.p • V) + w • (s • algorithm.keyImageGenerator - R' + interim.p • K)) ∧
      (s • Γ.G = R - interim.p • V ∧ s • algorithm.keyImageGenerator = R' - interim.p • K →
        ∀ w, evaluate (shareStatements algorithm interim V K (R, R') s w) = 0) ∧
      (¬(s • Γ.G = R - interim.p • V ∧ s • algorithm.keyImageGenerator = R' - interim.p • K) →
        ∀ w w', evaluate (shareStatements algorithm interim V K (R, R') s w) = 0 →
          evaluate (shareStatements algorithm interim V K (R, R') s w') = 0 → w = w')) ∧
    ∀ (keys : SigningSet Γ) (transcript : Transcript) (context : ClsagContext Γ) (mask : Scalar) (events : List (Event Γ))
      (nonce : Participant → Scalar) (nonceSums : Γ.Point × Γ.Point) (msgHash : Bytes 32), Γ.G ≠ 0 →
      Matching keys.toKeyShares → keys.groupKey = context.decoys.signerRingMembers.1 → InOrder keys context events →
      ∃ (processed signed : ClsagMultisig Γ) (interim : Interim Γ) (share : Participant → Scalar), signed.interim = some interim ∧
        ∀ i ∈ keys.included,
          run (keys.view i) events (start transcript context mask) = .ok () processed ∧
          signShare (keys.view i) nonceSums (nonce i) msgHash processed = .ok (share i) signed ∧
          signed.keyImageShares (Γ.compress (keys.verificationShare i)) = some (keys.secretShare i • Clsag.imageGenerator context) ∧
          ∃ statements,
            verifyShare challenge signed (keys.verificationShare i) (nonce i • Γ.G, nonce i • Clsag.imageGenerator context)
              (share i) = .ok statements ∧ evaluate statements = 0 := by
  refine ⟨?_, ?_⟩
  · intro algorithm interim V K R R' s hinterim hshare hH hK hR hR'
    refine ⟨verifyShare_eq challenge hinterim hshare (R, R') s, ?_, ?_, ?_⟩
    · exact evaluate_shareStatements hH hK hR hR' s
    · intro h w
      exact evaluate_eq_zero hH hK hR hR' s w h
    · intro h w w' hw hw'
      by_contra hne
      exact h (statements_of_evaluate hH hK hR hR' s hne hw hw')
  · intro keys transcript context mask events nonce nonceSums msgHash hG hkeys hkey hevents
    obtain ⟨A, AH⟩ := nonceSums
    have hHp : Γ.TorsionFree (Clsag.imageGenerator context) := Ctx.torsionFree_biasedHash _
    have hne : addenda events ≠ [] := by
      intro h
      have horder := hevents.order
      rw [h] at horder
      exact keys.included_ne_nil horder.symm
    obtain ⟨first, hfirst⟩ := List.exists_mem_of_ne_nil _ keys.included_ne_nil
    have hfactor : ∀ pair ∈ addenda events, ((keys.view first).interpolationFactor pair.1).isSome := by
      intro pair hpair
      have hmem : pair.1 ∈ keys.included := hevents.order ▸ List.mem_map_of_mem hpair
      simp [KeyShares.view, hmem]
    have hstart : (start transcript context mask).context = context := rfl
    obtain ⟨processed, hrun, hholds⟩ := run_spec hkey events hne hfactor hstart rfl rfl rfl
    have hrecv : (start transcript context mask).maskRecv = some (some mask) := rfl
    have hrecords : Records keys.toKeyShares (Clsag.imageGenerator context) keys.included processed := by
      refine run_records hG hkeys ?_ ?_ hrecv hevents hrun
      · exact hkey
      · rfl
    refine ⟨processed, afterShare processed mask msgHash A AH, _,
      fun i => nonce i - (signOf processed mask msgHash A AH).keyChallenge * keys.secretShare i, rfl, ?_⟩
    intro i hi
    have hK := hrecords i hi
    refine ⟨(congrFun (run_view keys.toKeyShares i first events) _).trans hrun, signShare_eq hholds.mask_eq .., hK, ?_⟩
    have hinterim : (afterShare processed mask msgHash A AH).interim = some _ := rfl
    obtain ⟨w, hverify⟩ := verifyShare_eq challenge hinterim hK (nonce i • Γ.G, nonce i • Clsag.imageGenerator context)
      (nonce i - (signOf processed mask msgHash A AH).keyChallenge * keys.secretShare i)
    refine ⟨_, hverify, ?_⟩
    have hgenerator : (afterShare processed mask msgHash A AH).keyImageGenerator = Clsag.imageGenerator context :=
      hholds.generator_eq
    refine evaluate_eq_zero (by rwa [hgenerator]) (hHp.smul _) (Ctx.torsionFree_G.smul _) (hHp.smul _) _ _ ⟨?_, ?_⟩
    · rw [hkeys i hi, share_statement Ctx.torsionFree_G]
    · rw [hgenerator, share_statement hHp]

/-- The signing set of `instanceKeys`, with the verification shares FROST has for it. -/
def instanceViews : SigningSet instanceCtx where
  toKeyShares := { instanceShares with verificationShare := fun i => instanceShares.secretShare i • instanceCtx.G }
  threshold := 2
  threshold_pos := Nat.two_pos
  threshold_le := instanceKeys.threshold_le
  nodup := by decide
  interpolates := instanceKeys.interpolates

/-- The addenda of the two participants, in their order. -/
def instanceOrder : List (Event instanceCtx) :=
  let addendum := fun i => preprocessAddendum (new [] Clsag.instanceContext) (instanceShares.originalSecretShare i)
  [.addendum 1 (addendum 1), .append [] [], .addendum 2 (addendum 2)]

theorem inOrder_instanceOrder : InOrder instanceViews Clsag.instanceContext instanceOrder where
  order := rfl
  honest := by
    intro pair hpair
    simp only [instanceOrder, addenda, List.mem_cons, List.not_mem_nil, or_false] at hpair
    obtain rfl | rfl := hpair <;> rfl

/-- The share of the first participant, whose secret share has the offset, passes. -/
theorem verifyShare_batched_first : ∃ (signed : ClsagMultisig instanceCtx) (share : Scalar) (statements : _),
    verifyShare (fun _ => Bytes.replicate 64 1) signed (instanceViews.verificationShare 1)
      ((1 : Scalar) • instanceCtx.G, (1 : Scalar) • Clsag.imageGenerator Clsag.instanceContext) share = .ok statements ∧
      evaluate statements = 0 := by
  obtain ⟨_, signed, _, share, -, h⟩ := (verifyShare_batched instanceCtx fun _ => Bytes.replicate 64 1).2 instanceViews []
    Clsag.instanceContext 0 instanceOrder (fun _ => 1) (0, 0) (Bytes.replicate 32 0) (by decide +kernel) (fun _ _ => rfl) rfl
    inOrder_instanceOrder
  obtain ⟨-, -, -, statements, hverify, hzero⟩ := h 1 (by decide)
  exact ⟨signed, share 1, statements, hverify, hzero⟩

end ClsagMultisig

end MoneroOxide
