import MoneroOxide.Lemmas.Batch
import MoneroOxide.Theorems.RangeProof

/-!
# Inner-product arguments are complete

What `IpStatement::prove` and `WipStatement::prove` return is accepted, and what it adds to a batch is known, for every batch with
the coefficients that are added to and no more than there are generators. A batch may have more coefficients for one list of
generators than for the other: it is grown to the length of the generators (`grown`), which changes neither its value nor what is
added to it, and then the lemmas for batches with as many for one list as for the other apply.
-/

namespace MoneroOxide

open InnerProduct Tabulate InternalBatchVerifier

namespace InternalBatchVerifier

variable {Γ : Ctx}

/-- There are coefficients for `rows` generators of each list, and generators for all of the coefficients, which
`InternalBatchVerifier::verify` takes by their index. -/
structure HasRows (rows : ℕ) (verifier : InternalBatchVerifier Γ) : Prop where
  le_gBold : rows ≤ verifier.gBold.length
  le_hBold : rows ≤ verifier.hBold.length
  gBold_le : verifier.gBold.length ≤ MAX_MN
  hBold_le : verifier.hBold.length ≤ MAX_MN

/-- A batch with coefficients of zero for the generators it had none for. -/
def grown (verifier : InternalBatchVerifier Γ) : InternalBatchVerifier Γ :=
  { verifier with
    gBold := verifier.gBold ++ List.replicate (MAX_MN - verifier.gBold.length) 0
    hBold := verifier.hBold ++ List.replicate (MAX_MN - verifier.hBold.length) 0 }

variable {rows : ℕ} {verifier : InternalBatchVerifier Γ}

theorem length_addTo (n : ℕ) (f : ℕ → Scalar) (v : List Scalar) : (addTo n f v).length = v.length := by
  simp [addTo]

/-- What is after the rows is left as it is. -/
theorem addTo_append {n : ℕ} {v : List Scalar} (h : n ≤ v.length) (f : ℕ → Scalar) (w : List Scalar) :
    addTo n f (v ++ w) = addTo n f v ++ w := by
  rw [addTo, List.mapIdx_append]
  congr 1
  have hlater : (fun i s => if i + v.length < n then s + f (i + v.length) else s) = fun (_ : ℕ) (s : Scalar) => s := by
    funext i s
    exact if_neg (by omega)
  rw [hlater]
  exact List.ext_getElem? fun i => by simp

theorem HasRows.push (h : verifier.HasRows rows) (terms : List (Scalar × Γ.Point)) : (verifier.push terms).HasRows rows :=
  { h with }

theorem sane_grown (h : verifier.HasRows rows) : verifier.grown.Sane := by
  have hG := h.gBold_le
  have hH := h.hBold_le
  refine ⟨?_, ?_⟩
  · simp only [grown, List.length_append, List.length_replicate]
    omega
  · simp only [grown, List.length_append, List.length_replicate]
    omega

theorem length_gBold_grown (h : verifier.HasRows rows) : verifier.grown.gBold.length = MAX_MN := by
  have := h.gBold_le
  simp only [grown, List.length_append, List.length_replicate]
  omega

/-- Coefficients of zero add nothing. -/
theorem value_grown (g g' : Γ.primeSubgroup) (dst : List UInt8) (hsane : verifier.grown.Sane) :
    verifier.grown.value g g' dst = verifier.value g g' dst := by
  have hG : verifier.gBold.length ≤ MAX_MN := by
    have := hsane.length_le
    simp only [grown, List.length_append, List.length_replicate] at this
    omega
  have hH : verifier.hBold.length ≤ MAX_MN := by
    have := hsane.length_eq.trans_le hsane.length_le
    simp only [grown, List.length_append, List.length_replicate] at this
    omega
  rw [value_eq g g' dst hsane, value, terms, bulletproofsGenerators_eq, multiexp_cons, multiexp_cons, multiexp_append,
    multiexp_append, multiexp_zip_tabulate hG, multiexp_zip_tabulate hH]
  simp only [grown, weighted_append_zeros, AddSubgroup.coe_add, Ctx.coe_smul]
  abel

/-- What is added to a batch is what is added to it once it was grown. -/
theorem value_of_reaches_grown {g g' : Γ.primeSubgroup} {dst : List UInt8} {rows' : ℕ} (h : verifier.HasRows rows)
    {next : InternalBatchVerifier Γ} {Q : Γ.primeSubgroup} (hr : Reaches g g' dst verifier.grown rows' next.grown Q) :
    next.value g g' dst = verifier.value g g' dst + Q := by
  rw [← value_grown g g' dst hr.sane, hr.value_eq, value_grown g g' dst (sane_grown h)]

theorem grown_push (terms : List (Scalar × Γ.Point)) : (verifier.push terms).grown = verifier.grown.push terms := rfl

theorem grown_addG (s : Scalar) : (verifier.addG s).grown = verifier.grown.addG s := rfl

theorem grown_addH (s : Scalar) : (verifier.addH s).grown = verifier.grown.addH s := rfl

theorem grown_addGBold (h : rows ≤ verifier.gBold.length) (f : ℕ → Scalar) :
    (verifier.addGBold rows f).grown = verifier.grown.addGBold rows f := by
  simp only [grown, addGBold, length_addTo, addTo_append h]

theorem grown_addHBold (h : rows ≤ verifier.hBold.length) (f : ℕ → Scalar) :
    (verifier.addHBold rows f).grown = verifier.grown.addHBold rows f := by
  simp only [grown, addHBold, length_addTo, addTo_append h]

/-- Growing a batch to some rows first makes no difference. -/
theorem grown_pad (h : verifier.HasRows 0) (hrows : rows ≤ MAX_MN) :
    grown { verifier with
        gBold := verifier.gBold ++ List.replicate (rows - verifier.gBold.length) 0
        hBold := verifier.hBold ++ List.replicate (rows - verifier.hBold.length) 0 } =
      { verifier.grown with
        gBold := verifier.grown.gBold ++ List.replicate (rows - verifier.grown.gBold.length) 0
        hBold := verifier.grown.hBold ++ List.replicate (rows - verifier.grown.hBold.length) 0 } := by
  have hzeros : ∀ v : List Scalar, v.length ≤ MAX_MN →
      v ++ List.replicate (rows - v.length) 0 ++ List.replicate (MAX_MN - (v ++ List.replicate (rows - v.length) 0).length) 0 =
        v ++ List.replicate (MAX_MN - v.length) 0 ++
          List.replicate (rows - (v ++ List.replicate (MAX_MN - v.length) 0).length) 0 := by
    intro v hv
    simp only [List.append_assoc, List.replicate_append_replicate, List.length_append, List.length_replicate]
    congr 2
    omega
  simp only [grown, hzeros _ h.gBold_le, hzeros _ h.hBold_le]

end InternalBatchVerifier

/-! ## Bulletproofs -/

namespace Original.IpStatement

variable {Γ : Ctx}

/-- The point of a statement: the vectors are committed to, the second one with the weights of the generators, and their inner
product. -/
def P (Γ : Ctx) (weights a b : List Scalar) (u : Scalar) : Γ.Point :=
  multiexp (a.zip ((GENERATORS Γ).G.take a.length)) +
    multiexp (b.zip (List.zipWith (fun weight H => weight • H) weights ((GENERATORS Γ).H.take b.length))) +
    (ScalarVector.innerProduct a b * u) • Γ.H

theorem P_tabulate {n : ℕ} (hn : n ≤ MAX_MN) (weights a b : ℕ → Scalar) (u : Scalar) :
    P Γ (tabulate n weights) (tabulate n a) (tabulate n b) u =
      (relation n (fun _ => 1) a b (boldG Γ dst) (fun i => weights i • boldH Γ dst i) (u • pointH Γ) : Γ.primeSubgroup) := by
  have hH : (combine n a b * u) • Γ.H = ((combine n a b • u • pointH Γ : Γ.primeSubgroup) : Γ.Point) := by
    rw [smul_smul, Ctx.coe_smul]
    rfl
  simp only [P, GENERATORS_eq, length_tabulate, take_boldG dst hn, take_boldH dst hn, zipWith_tabulate, ← Ctx.coe_smul,
    zip_tabulate, multiexp_tabulate, ScalarVector.innerProduct_tabulate, hH, relation, mul_one, AddSubgroup.coe_add]

/-- The argument does not depend on the coefficients which it does not add to. -/
theorem verify_grown {rows : ℕ} (hle : rows ≤ MAX_MN) (statement : IpStatement) {verifier : InternalBatchVerifier Γ}
    (h : verifier.HasRows rows) (transcript weight : Scalar) (proof : IpProof) :
    statement.verify verifier.grown rows transcript weight proof =
      (statement.verify verifier rows transcript weight proof).map grown := by
  have hG : ((GENERATORS Γ).G.take rows).length = rows := by
    rw [GENERATORS_eq, take_boldG dst hle, length_tabulate]
  have hH : ((GENERATORS Γ).H.take rows).length = rows := by
    rw [GENERATORS_eq, take_boldH dst hle, length_tabulate]
  unfold verify
  simp only [hG, hH]
  split
  · rfl
  · split
    · rfl
    · split
      · rfl
      · rename_i terms _
        rw [Except.map, grown_addH, grown_addHBold, grown_addGBold, grown_push]
        · exact h.le_gBold
        · exact h.le_hBold

/-- A proof is accepted with any weight and in any batch with rows for it. It adds the negative of the point to the
multi-exponentiation, times the weight, so that a batch the point was added to verifies if it did before. -/
structure Complete (statement : IpStatement) (rows : ℕ) (transcript : Scalar) (proof : IpProof) (P : Γ.Point) : Prop where
  adds : ∀ (weight : Scalar) (verifier : InternalBatchVerifier Γ), verifier.HasRows rows →
    ∃ next, statement.verify verifier rows transcript weight proof = .ok next ∧
      multiexp (next.terms Γ.G Γ.H (GENERATORS Γ)) = multiexp (verifier.terms Γ.G Γ.H (GENERATORS Γ)) - weight • P
  cancels : ∀ (weight : Scalar) (verifier : InternalBatchVerifier Γ), verifier.HasRows rows →
    verifier.verify Γ.G Γ.H (GENERATORS Γ) = true →
    ∃ next, statement.verify (verifier.push [(weight, P)]) rows transcript weight proof = .ok next ∧
      next.verify Γ.G Γ.H (GENERATORS Γ) = true

/-- What a proof adds is enough for it to be complete. -/
theorem Complete.of_adds {statement : IpStatement} {rows : ℕ} {transcript : Scalar} {proof : IpProof} {P : Γ.Point}
    (hadds : ∀ (weight : Scalar) (verifier : InternalBatchVerifier Γ), verifier.HasRows rows →
      ∃ next, statement.verify verifier rows transcript weight proof = .ok next ∧
        multiexp (next.terms Γ.G Γ.H (GENERATORS Γ)) = multiexp (verifier.terms Γ.G Γ.H (GENERATORS Γ)) - weight • P) :
    Complete statement rows transcript proof P where
  adds := hadds
  cancels weight verifier h hverify := by
    obtain ⟨next, hnext, hvalue⟩ := hadds weight _ (h.push [(weight, P)])
    refine ⟨next, hnext, ?_⟩
    have hpush : multiexp ((verifier.push [(weight, P)]).terms Γ.G Γ.H (GENERATORS Γ)) =
        multiexp (verifier.terms Γ.G Γ.H (GENERATORS Γ)) + weight • P := by
      simp only [terms, InternalBatchVerifier.push, multiexp_cons, multiexp_append, multiexp_nil, add_zero]
      abel
    rw [InternalBatchVerifier.verify, decide_eq_true_iff] at hverify ⊢
    rw [hvalue, hpush, hverify, zero_add, sub_self]

/-- The inner-product argument is complete. -/
theorem ip_complete {n : ℕ} (hn : n.isPowerOfTwo) (hle : n ≤ MAX_MN) {weights a b : List Scalar} (hweights : weights.length = n)
    (ha : a.length = n) (hb : b.length = n) (u transcript : Scalar) :
    ∃ witness proof, IpWitness.new a b = some witness ∧
      prove Γ { hBoldWeights := weights, u } transcript witness = .ok proof ∧
      ((∀ x ∈ challenges Γ transcript (proof.L.zip proof.R), x ≠ 0) →
        Complete { hBoldWeights := weights, u } n transcript proof (P Γ weights a b u)) := by
  obtain ⟨k, rfl⟩ := hn
  obtain ⟨weights, rfl⟩ := exists_tabulate hweights 0
  obtain ⟨a, rfl⟩ := exists_tabulate ha 0
  obtain ⟨b, rfl⟩ := exists_tabulate hb 0
  have hlength : (tabulate (2 ^ k) a).length = (tabulate (2 ^ k) b).length := by rw [length_tabulate, length_tabulate]
  have hpow : paddedPowOf2 (tabulate (2 ^ k) a).length = (tabulate (2 ^ k) a).length := by
    rw [length_tabulate, paddedPowOf2_two_pow]
  have hne : tabulate (2 ^ k) a ≠ [] := by
    rw [← List.length_pos_iff, length_tabulate]
    exact Nat.two_pow_pos k
  set witness : IpWitness := ⟨_, _, hlength, hpow⟩ with hwitness
  have hnew : IpWitness.new (tabulate (2 ^ k) a) (tabulate (2 ^ k) b) = some witness := by
    rw [IpWitness.new, if_neg hne, dif_pos ⟨hlength, hpow⟩]
  obtain ⟨proof, hprove, -, hverify⟩ :=
    verify_prove hle weights a b u transcript (rfl : witness.a = _) (rfl : witness.b = _)
  refine ⟨witness, proof, hnew, hprove, fun hchallenges => Complete.of_adds fun weight verifier h => ?_⟩
  have hself : Reaches (pointG Γ) (pointH Γ) dst verifier.grown (2 ^ k) verifier.grown 0 :=
    Offset.reaches_self (sane_grown h) (hle.trans_eq (length_gBold_grown h).symm)
  obtain ⟨grownNext, hgrown, hreach⟩ := hverify hchallenges weight hself
  rw [verify_grown hle _ h] at hgrown
  cases hnext : verify { hBoldWeights := tabulate (2 ^ k) weights, u } verifier (2 ^ k) transcript weight proof with
  | error e =>
    rw [hnext] at hgrown
    cases hgrown
  | ok next =>
    rw [hnext] at hgrown
    obtain rfl := Except.ok.inj hgrown
    refine ⟨next, rfl, (value_of_reaches_grown h hreach).trans ?_⟩
    rw [P_tabulate hle, zero_sub, AddSubgroup.coe_neg, Ctx.coe_smul, sub_eq_add_neg]
    rfl

theorem ip_complete_two :
    ∃ witness proof, IpWitness.new [1, 2] [3, 4] = some witness ∧
      prove instanceCtx { hBoldWeights := [5, 6], u := 7 } 8 witness = .ok proof ∧
      Complete { hBoldWeights := [5, 6], u := 7 } 2 8 proof (P instanceCtx [5, 6] [1, 2] [3, 4] 7) := by
  have hlength : ∀ x y : Scalar, [x, y].length = 2 := fun _ _ => rfl
  obtain ⟨witness, proof, hnew, hprove, hcomplete⟩ :=
    ip_complete (Γ := instanceCtx) ⟨1, rfl⟩ (by decide : 2 ≤ MAX_MN) (hlength 5 6) (hlength 1 2) (hlength 3 4) 7 8
  exact ⟨witness, proof, hnew, hprove, hcomplete (Bulletproof.originalChallenges_instanceCtx _ _)⟩

end Original.IpStatement

/-! ## Bulletproofs+ -/

namespace Plus.WipStatement

variable {Γ : Ctx}

/-- The point of a statement: the vectors are committed to, and their inner product weighted by the powers of `y`, with a blind. -/
def point (Γ : Ctx) (a b : List Scalar) (alpha y : Scalar) : Γ.Point :=
  multiexp (a.zip ((GENERATORS Γ).G.take a.length)) + multiexp (b.zip ((GENERATORS Γ).H.take b.length)) +
    (∑ i ∈ Finset.range a.length, a.getD i 0 * b.getD i 0 * y ^ (i + 1)) • Γ.H + alpha • Γ.G

theorem point_tabulate {n : ℕ} (hn : n ≤ MAX_MN) (a b : ℕ → Scalar) (alpha y : Scalar) :
    point Γ (tabulate n a) (tabulate n b) alpha y =
      ((relation n (fun i => y ^ (i + 1)) a b (boldG Γ dst) (boldH Γ dst) (pointH Γ) + alpha • pointG Γ : Γ.primeSubgroup) :
        Γ.Point) := by
  have hsum : ∑ i ∈ Finset.range n, (tabulate n a).getD i 0 * (tabulate n b).getD i 0 * y ^ (i + 1) =
      combine n a fun i => b i * y ^ (i + 1) := by
    refine Finset.sum_congr rfl fun i hi => ?_
    rw [getD_tabulate a (Finset.mem_range.1 hi), getD_tabulate b (Finset.mem_range.1 hi), mul_assoc, smul_eq_mul]
  simp only [point, GENERATORS_eq, length_tabulate, take_boldG dst hn, take_boldH dst hn, zip_tabulate, multiexp_tabulate, hsum,
    relation, AddSubgroup.coe_add, Ctx.coe_smul]
  rfl

theorem accumulate_grown {statement : WipStatement Γ} (hle : statement.generators.G.length ≤ MAX_MN)
    {verifier : InternalBatchVerifier Γ} (h : verifier.HasRows 0) (es : List Scalar) (e : Scalar)
    (rounds : List (Γ.Point × Γ.Point)) (A B : Γ.Point) (proof : WipProof) (weight : Scalar) :
    accumulate statement es e rounds A B proof weight verifier.grown =
      (accumulate statement es e rounds A B proof weight verifier).grown := by
  unfold accumulate
  dsimp only
  rw [grown_push, grown_addH, grown_addG, grown_push, grown_addHBold, grown_addGBold, grown_pad, grown_push, grown_push]
  · exact (h.push _).push _
  · exact hle
  · rw [List.length_append, List.length_replicate]
    omega
  · rw [InternalBatchVerifier.addGBold, List.length_append, List.length_replicate]
    omega

/-- The argument does not depend on the coefficients which it does not add to. -/
theorem verify_grown {statement : WipStatement Γ} (hle : statement.generators.G.length ≤ MAX_MN)
    {verifier : InternalBatchVerifier Γ} (h : verifier.HasRows 0) (rng : Rng) (transcript : Scalar) (proof : WipProof) :
    verify rng statement verifier.grown transcript proof =
      (verify rng statement verifier transcript proof).map fun result => (result.1.grown, result.2) := by
  unfold verify
  dsimp only
  split
  · rfl
  · simp only [accumulate_grown hle h, bind, Option.map_bind, Function.comp_def]
    rfl

/-- A proof is accepted with any weight, which is drawn, and in any batch that there are generators for. It adds the identity to
the multi-exponentiation, which is the identity for the proof alone. -/
structure Complete (statement : WipStatement Γ) (transcript : Scalar) (proof : WipProof) : Prop where
  adds : ∀ (rng : Rng) (verifier : InternalBatchVerifier Γ), verifier.HasRows 0 →
    ∃ next rng', verify rng statement verifier transcript proof = some (next, rng') ∧
      multiexp (next.terms Γ.H Γ.G (GENERATORS Γ)) = multiexp (verifier.terms Γ.H Γ.G (GENERATORS Γ))
  alone : ∀ rng : Rng, ∃ next rng', verify rng statement .default transcript proof = some (next, rng') ∧
      multiexp (next.terms Γ.H Γ.G (GENERATORS Γ)) = 0 ∧ next.verify Γ.H Γ.G (GENERATORS Γ) = true

theorem hasRows_default : (InternalBatchVerifier.default : InternalBatchVerifier Γ).HasRows 0 :=
  ⟨Nat.zero_le _, Nat.zero_le _, Nat.zero_le _, Nat.zero_le _⟩

/-- What a proof adds to any batch is enough for it to be complete. -/
theorem Complete.of_adds {statement : WipStatement Γ} {transcript : Scalar} {proof : WipProof}
    (hadds : ∀ (rng : Rng) (verifier : InternalBatchVerifier Γ), verifier.HasRows 0 →
      ∃ next rng', verify rng statement verifier transcript proof = some (next, rng') ∧
        multiexp (next.terms Γ.H Γ.G (GENERATORS Γ)) = multiexp (verifier.terms Γ.H Γ.G (GENERATORS Γ))) :
    Complete statement transcript proof where
  adds := hadds
  alone rng := by
    obtain ⟨next, rng', hnext, hvalue⟩ := hadds rng _ hasRows_default
    have hdefault : (InternalBatchVerifier.default : InternalBatchVerifier Γ).verify (pointH Γ : Γ.Point) (pointG Γ)
      (bulletproofsGenerators Γ dst) = true := verify_default
    rw [InternalBatchVerifier.verify, decide_eq_true_iff] at hdefault
    have hzero := hvalue.trans hdefault
    refine ⟨next, rng', hnext, hzero, ?_⟩
    rw [InternalBatchVerifier.verify, decide_eq_true_iff]
    exact hzero

/-- The weighted inner-product argument is complete. -/
theorem wip_complete {n : ℕ} (hn : n.isPowerOfTwo) (hle : n ≤ MAX_MN) {a b : List Scalar} (ha : a.length = n) (hb : b.length = n)
    (alpha : Scalar) {y : Scalar} (hy : y ≠ 0) (transcript : Scalar) (rng : Rng) :
    ∃ generators witness proof rng', reduce (GENERATORS Γ) n = .ok generators ∧ WipWitness.new a b alpha = some witness ∧
      prove rng (WipStatement.new generators (point Γ a b alpha y) y) transcript witness = .ok (some (proof, rng')) ∧
      ((∀ e ∈ (challenges Γ transcript (proof.L.zip proof.R)).1, e ≠ 0) →
        Complete (WipStatement.new generators (point Γ a b alpha y) y) transcript proof) := by
  obtain ⟨k, rfl⟩ := hn
  obtain ⟨a, rfl⟩ := exists_tabulate ha 0
  obtain ⟨b, rfl⟩ := exists_tabulate hb 0
  have hreduce : reduce (GENERATORS Γ) (2 ^ k) =
      .ok { G := (GENERATORS Γ).G.take (2 ^ k), H := (GENERATORS Γ).H.take (2 ^ k) } := by
    rw [reduce, paddedPowOf2_two_pow, if_pos]
    rw [GENERATORS_eq, length_bulletproofsGenerators_G]
    exact hle
  set generators : Generators Γ := { G := (GENERATORS Γ).G.take (2 ^ k), H := (GENERATORS Γ).H.take (2 ^ k) } with hgenerators
  have hG : generators.G = tabulate (2 ^ k) fun i => (boldG Γ dst i : Γ.Point) := take_boldG dst hle
  have hH : generators.H = tabulate (2 ^ k) fun i => (boldH Γ dst i : Γ.Point) := take_boldH dst hle
  have hne : tabulate (2 ^ k) a ≠ [] := by
    rw [← List.length_pos_iff, length_tabulate]
    exact Nat.two_pow_pos k
  have hwitness : WipWitness.new (tabulate (2 ^ k) a) (tabulate (2 ^ k) b) alpha =
      some { a := tabulate (2 ^ k) a, b := tabulate (2 ^ k) b, alpha } := by
    rw [WipWitness.new, if_neg]
    · simp only [length_tabulate, paddedPowOf2_two_pow, Nat.sub_self, List.replicate_zero, List.append_nil]
    · rw [not_or, length_tabulate, length_tabulate]
      exact ⟨hne, not_not.2 rfl⟩
  obtain ⟨proof, rng', hprove, -, hverify⟩ := verify_prove hle rng transcript a b alpha y hG hH rfl
  rw [← point_tabulate hle] at hprove hverify
  refine ⟨generators, _, proof, rng', hreduce, hwitness, hprove, fun hchallenges => Complete.of_adds fun rng verifier h => ?_⟩
  obtain ⟨grownNext, rng', hgrown, hreach⟩ := hverify hy hchallenges rng verifier.grown (sane_grown h)
  have hlength : (WipStatement.new generators (point Γ (tabulate (2 ^ k) a) (tabulate (2 ^ k) b) alpha y) y).generators.G.length ≤
      MAX_MN := by
    rw [WipStatement.new, hG, length_tabulate]
    exact hle
  rw [verify_grown hlength h, Option.map_eq_some_iff] at hgrown
  obtain ⟨⟨next, rng'⟩, hnext, heq⟩ := hgrown
  obtain ⟨rfl, rfl⟩ := Prod.mk.inj heq
  refine ⟨next, _, hnext, (value_of_reaches_grown h hreach).trans ?_⟩
  rw [AddSubgroup.coe_zero, add_zero]
  rfl

theorem wip_complete_two :
    ∃ generators witness proof rng', reduce (GENERATORS instanceCtx) 2 = .ok generators ∧
      WipWitness.new [1, 2] [3, 4] 5 = some witness ∧
      prove (Stream'.const (Bytes.replicate 64 0)) (WipStatement.new generators (point instanceCtx [1, 2] [3, 4] 5 1) 1) 8
        witness = .ok (some (proof, rng')) ∧
      Complete (WipStatement.new generators (point instanceCtx [1, 2] [3, 4] 5 1) 1) 8 proof := by
  have hlength : ∀ x y : Scalar, [x, y].length = 2 := fun _ _ => rfl
  obtain ⟨generators, witness, proof, rng', hreduce, hnew, hprove, hcomplete⟩ :=
    wip_complete (Γ := instanceCtx) ⟨1, rfl⟩ (by decide : 2 ≤ MAX_MN) (hlength 1 2) (hlength 3 4) 5 one_ne_zero 8
      (Stream'.const (Bytes.replicate 64 0))
  exact ⟨generators, witness, proof, rng', hreduce, hnew, hprove, hcomplete (Bulletproof.plusChallenges_instanceCtx _ _)⟩

end Plus.WipStatement

end MoneroOxide
