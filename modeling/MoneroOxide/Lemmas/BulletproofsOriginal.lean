import MoneroOxide.BulletproofsOriginal
import MoneroOxide.Lemmas.Bulletproofs
import MoneroOxide.Lib.Lists

/-!
# The inner-product argument of Bulletproofs

A round of the prover folds the relation it is about (`InnerProduct.relation_fold`). By induction over the rounds, what the prover
sends and the challenges the verifier computes from it relate the vectors it starts with and the scalars it ends with
(`proveLoop_spec`), and the verifier adds the negative of the relation to its value (`verify_prove`).
-/

namespace MoneroOxide

open InnerProduct Tabulate InternalBatchVerifier

namespace Original

variable {Γ : Ctx}

/-- What the generators of Bulletproofs are separated by. -/
def dst : List UInt8 := ascii "bulletproof"

theorem GENERATORS_eq : GENERATORS Γ = bulletproofsGenerators Γ dst := rfl

namespace IpStatement

theorem length_challenges (transcript : Scalar) (rounds : List (CompressedPoint × CompressedPoint)) :
    (challenges Γ transcript rounds).length = rounds.length := by
  induction rounds generalizing transcript with
  | nil => rfl
  | cons round rounds ih => rw [challenges, List.length_cons, ih, List.length_cons]

theorem roundLR_tabulate (u : Γ.primeSubgroup) (n : ℕ) (a b : ℕ → Scalar) (g h : ℕ → Γ.primeSubgroup) :
    roundLR (u : Γ.Point) (tabulate n a, tabulate n fun i => a (n + i)) (tabulate n b, tabulate n fun i => b (n + i))
        (tabulate n fun i => (g i : Γ.Point), tabulate n fun i => (g (n + i) : Γ.Point))
        (tabulate n fun i => (h i : Γ.Point), tabulate n fun i => (h (n + i) : Γ.Point)) =
      (((combine n a (fun i => g (n + i)) + combine n (fun i => b (n + i)) h + combine n a (fun i => b (n + i)) • u :
          Γ.primeSubgroup) : Γ.Point),
        ((combine n (fun i => a (n + i)) g + combine n b (fun i => h (n + i)) + combine n (fun i => a (n + i)) b • u :
          Γ.primeSubgroup) : Γ.Point)) := by
  simp [roundLR, add_assoc]

/-- The point `L` of a round. -/
def roundL (n : ℕ) (u : Γ.primeSubgroup) (g h : ℕ → Γ.primeSubgroup) (a b : ℕ → Scalar) : Γ.primeSubgroup :=
  combine n a (fun i => g (n + i)) + combine n (fun i => b (n + i)) h + combine n a (fun i => b (n + i)) • u

/-- The point `R` of a round. -/
def roundR (n : ℕ) (u : Γ.primeSubgroup) (g h : ℕ → Γ.primeSubgroup) (a b : ℕ → Scalar) : Γ.primeSubgroup :=
  combine n (fun i => a (n + i)) g + combine n b (fun i => h (n + i)) + combine n (fun i => a (n + i)) b • u

/-- One iteration of the loop of the prover. -/
theorem proveLoop_round {n : ℕ} (hn : 0 < n) (u : Γ.primeSubgroup) (transcript : Scalar) (g h : ℕ → Γ.primeSubgroup)
    (a b : ℕ → Scalar) {x : Scalar} {rest : IpProof}
    (hx : x = transcriptLR Γ transcript (encoded (roundL n u g h a b)) (encoded (roundR n u g h a b)))
    (hrest : rest = proveLoop (u : Γ.Point) x
      (tabulate n fun i => ((x⁻¹ • g i + x • g (n + i) : Γ.primeSubgroup) : Γ.Point))
      (tabulate n fun i => ((x • h i + x⁻¹ • h (n + i) : Γ.primeSubgroup) : Γ.Point))
      (tabulate n fun i => a i * x + a (n + i) * x⁻¹) (tabulate n fun i => b i * x⁻¹ + b (n + i) * x)) :
    proveLoop (u : Γ.Point) transcript (tabulate (n + n) fun i => (g i : Γ.Point)) (tabulate (n + n) fun i => (h i : Γ.Point))
        (tabulate (n + n) a) (tabulate (n + n) b) =
      { rest with L := encoded (roundL n u g h a b) :: rest.L, R := encoded (roundR n u g h a b) :: rest.R } := by
  rw [proveLoop, if_pos (by rw [length_tabulate]; omega)]
  simp only [split_tabulate, roundLR_tabulate, fold_tabulate, ScalarVector.mulScalar_tabulate, ScalarVector.add_tabulate]
  subst hx hrest
  rfl

/-- What the prover sends: points of the prime-order subgroup for each round, and scalars for which the relation holds of the
generators folded by the challenges. -/
theorem proveLoop_spec (k : ℕ) (u : Γ.primeSubgroup) (transcript : Scalar) (g h : ℕ → Γ.primeSubgroup) (a b : ℕ → Scalar) :
    ∃ (rounds : List (Γ.primeSubgroup × Γ.primeSubgroup)) (proof : IpProof),
      proveLoop (u : Γ.Point) transcript (tabulate (2 ^ k) fun i => (g i : Γ.Point)) (tabulate (2 ^ k) fun i => (h i : Γ.Point))
        (tabulate (2 ^ k) a) (tabulate (2 ^ k) b) = proof ∧
      rounds.length = k ∧ proof.L = (encodedRounds rounds).map Prod.fst ∧ proof.R = (encodedRounds rounds).map Prod.snd ∧
      ((∀ x ∈ challenges Γ transcript (encodedRounds rounds), x ≠ 0) →
        relation (2 ^ k) (fun _ => 1) a b g h u + crossTerms (challenges Γ transcript (encodedRounds rounds)) rounds =
          proof.a • folded ((challenges Γ transcript (encodedRounds rounds)).map fun x => (x, x⁻¹)) 1 g +
          proof.b • folded ((challenges Γ transcript (encodedRounds rounds)).map fun x => (x⁻¹, x)) 1 h +
          (proof.a * proof.b) • u) := by
  induction k generalizing transcript g h a b with
  | zero =>
    refine ⟨[], { L := [], R := [], a := a 0, b := b 0 }, ?_, rfl, rfl, rfl, fun _ => ?_⟩
    · rw [proveLoop, if_neg (by simp)]
      rfl
    · simp [relation, crossTerms, encodedRounds, challenges, folded_nil, combine_one]
  | succ k ih =>
    have hpow : 2 ^ (k + 1) = 2 ^ k + 2 ^ k := by rw [Nat.pow_succ]; ring
    rw [hpow]
    set n := 2 ^ k with hn
    set L := roundL n u g h a b with hL
    set R := roundR n u g h a b with hR
    set x := transcriptLR Γ transcript (encoded L) (encoded R) with hx
    obtain ⟨rounds, rest, hrest, hlen, hLs, hRs, hrel⟩ := ih x (fun i => x⁻¹ • g i + x • g (n + i))
      (fun i => x • h i + x⁻¹ • h (n + i)) (fun i => a i * x + a (n + i) * x⁻¹) (fun i => b i * x⁻¹ + b (n + i) * x)
    have hchallenges : challenges Γ transcript (encodedRounds ((L, R) :: rounds)) =
      x :: challenges Γ x (encodedRounds rounds) := rfl
    refine ⟨(L, R) :: rounds, _, proveLoop_round (Nat.two_pow_pos k) u transcript g h a b hx hrest.symm,
      by rw [List.length_cons, hlen], by rw [hLs]; rfl, by rw [hRs]; rfl, ?_⟩
    rw [hchallenges]
    intro hne
    have hx0 : x ≠ 0 := hne x (by simp)
    have hrel := hrel fun x hx => hne x (by simp [hx])
    set xs := challenges Γ x (encodedRounds rounds) with hxs
    have hxsLen : xs.length = k := by rw [hxs, length_challenges, encodedRounds, List.length_map, hlen]
    have hfold := relation_fold (mul_inv_cancel₀ hx0) (one_mul (1 : Scalar)) n (y := fun _ => 1) (by simp) a b g h u
    simp only [mul_one, one_mul] at hfold
    have hg : folded ((x :: xs).map fun x => (x, x⁻¹)) 1 g =
        folded (xs.map fun x => (x, x⁻¹)) 1 fun i => x⁻¹ • g i + x • g (n + i) := by
      rw [List.map_cons, folded_cons]
      simp only [List.length_map, hxsLen, one_pow, mul_one, ← hn]
    have hh : folded ((x :: xs).map fun x => (x⁻¹, x)) 1 h =
        folded (xs.map fun x => (x⁻¹, x)) 1 fun i => x • h i + x⁻¹ • h (n + i) := by
      rw [List.map_cons, folded_cons]
      simp only [List.length_map, hxsLen, one_pow, mul_one, ← hn]
    rw [hg, hh, ← hrel, hfold, crossTerms_cons, hL, hR, roundL, roundR]
    abel

/-- The verifier can decompress the points of the rounds, and its terms are the cross terms. -/
theorem roundTerms_encodedRounds (weight : Scalar) (xs : List Scalar) (rounds : List (Γ.primeSubgroup × Γ.primeSubgroup)) :
    ∃ terms, roundTerms Γ weight ((xs.zip (xs.map (·⁻¹))).zip (encodedRounds rounds)) = some terms ∧
      multiexp terms = ((weight • crossTerms xs rounds : Γ.primeSubgroup) : Γ.Point) := by
  induction xs generalizing rounds with
  | nil => exact ⟨[], rfl, by simp [crossTerms]⟩
  | cons x xs ih =>
    cases rounds with
    | nil => exact ⟨[], rfl, by simp [crossTerms]⟩
    | cons round rounds =>
      obtain ⟨terms, hterms, hsum⟩ := ih rounds
      refine ⟨(weight * (x * x), round.1) :: (weight * (x⁻¹ * x⁻¹), round.2) :: terms, ?_, ?_⟩
      · have hrounds : encodedRounds (round :: rounds) = (encoded round.1, encoded round.2) :: encodedRounds rounds := rfl
        rw [hrounds, List.map_cons, List.zip_cons_cons, List.zip_cons_cons, roundTerms, decompMulCofactor_encoded,
          decompMulCofactor_encoded, hterms]
        rfl
      · rw [multiexp_cons, multiexp_cons, hsum, crossTerms_cons, ← Ctx.coe_smul, ← Ctx.coe_smul, ← AddSubgroup.coe_add,
          ← AddSubgroup.coe_add]
        congr 1
        module

/-- What the prover sends is accepted, and adds the negative of the relation to the value of the verifier, times its weight. -/
theorem verify_prove {k : ℕ} (hk : 2 ^ k ≤ MAX_MN) (weights a b : ℕ → Scalar) (u transcript : Scalar)
    {witness : IpWitness} (ha : witness.a = tabulate (2 ^ k) a) (hb : witness.b = tabulate (2 ^ k) b) :
    ∃ proof : IpProof, prove Γ { hBoldWeights := tabulate (2 ^ k) weights, u } transcript witness = .ok proof ∧
      (proof.L.length = k ∧ proof.R.length = k) ∧
      ((∀ x ∈ challenges Γ transcript (proof.L.zip proof.R), x ≠ 0) →
        ∀ (weight : Scalar) {verifier reached : InternalBatchVerifier Γ} {P : Γ.primeSubgroup},
        Reaches (pointG Γ) (pointH Γ) dst verifier (2 ^ k) reached P →
        ∃ next, verify { hBoldWeights := tabulate (2 ^ k) weights, u } reached (2 ^ k) transcript weight proof = .ok next ∧
          Reaches (pointG Γ) (pointH Γ) dst verifier (2 ^ k) next
            (P - weight • relation (2 ^ k) (fun _ => 1) a b (boldG Γ dst)
              (fun i => weights i • boldH Γ dst i) (u • pointH Γ))) := by
  obtain ⟨rounds, proof, hprove, hlen, hL, hR, hrel⟩ := proveLoop_spec k (u • pointH Γ) transcript (boldG Γ dst)
    (fun i => weights i • boldH Γ dst i) a b
  have hLR : proof.L.zip proof.R = encodedRounds rounds := by rw [hL, hR, List.zip_map', List.map_id']
  have hLlen : proof.L.length = k := by rw [hL, List.length_map, encodedRounds, List.length_map, hlen]
  have hRlen : proof.R.length = k := by rw [hR, List.length_map, encodedRounds, List.length_map, hlen]
  refine ⟨proof, ?_, ⟨hLlen, hRlen⟩, ?_⟩
  · simp only [prove, ha, hb, length_tabulate, GENERATORS_eq, take_boldG dst hk, take_boldH dst hk, ne_eq, not_true_eq_false,
      if_false, zipWith_tabulate, ← Ctx.coe_smul]
    exact congrArg Except.ok hprove
  · rw [hLR]
    intro hne weight verifier reached P hr
    set xs := challenges Γ transcript (encodedRounds rounds) with hxs
    have hzip : xs.zip (xs.map (·⁻¹)) = xs.map fun x => (x, x⁻¹) := Lists.zip_map_self _ xs
    have hxsLen : (xs.map fun x => (x, x⁻¹)).length = k := by
      rw [List.length_map, hxs, length_challenges, encodedRounds, List.length_map, hlen]
    have hswap : (xs.map fun x => (x, x⁻¹)).map Prod.swap = xs.map fun x => (x⁻¹, x) := by
      rw [List.map_map]
      rfl
    obtain ⟨terms, hterms, hsum⟩ := roundTerms_encodedRounds weight xs rounds
    have hg := combine_challengeProducts (-(weight * proof.a)) 1 (xs.map fun x => (x, x⁻¹)) (boldG Γ dst)
    have hh := combine_challengeProducts_reverse (-(weight * proof.b)) (xs.map fun x => (x, x⁻¹))
      (fun i => weights i • boldH Γ dst i)
    rw [hxsLen] at hg hh
    rw [hswap] at hh
    rw [hzip] at hterms
    set productCache := challengeProducts (xs.map fun x => (x, x⁻¹)) with hcache
    have hreach := (((hr.push hsum).addGBold fun i => -(weight * productCache.getD i 0 * proof.a)).addHBold fun i =>
      -(weight * productCache.getD (productCache.length - 1 - i) 0 * proof.b * (tabulate (2 ^ k) weights).getD i 0)).addH
        (-(weight * (proof.a * proof.b) * u))
    refine ⟨_, ?_, hreach.congr ?_⟩
    · simp only [verify, GENERATORS_eq, take_boldG dst hk, take_boldH dst hk, length_tabulate, padLoop_two_pow, hLlen, hRlen, ne_eq,
        not_true_eq_false, if_false, hLR, ← hxs, hzip, hterms]
      rfl
    · have hg' : combine (2 ^ k) (fun i => -(weight * productCache.getD i 0 * proof.a)) (boldG Γ dst) =
          -(weight * proof.a) • folded (xs.map fun x => (x, x⁻¹)) 1 (boldG Γ dst) := by
        rw [← hg]
        refine combine_congr (fun i _ => ?_) fun _ _ => rfl
        rw [one_pow]
        ring
      have hh' : combine (2 ^ k) (fun i =>
            -(weight * productCache.getD (productCache.length - 1 - i) 0 * proof.b * (tabulate (2 ^ k) weights).getD i 0))
            (boldH Γ dst) =
          -(weight * proof.b) • folded (xs.map fun x => (x⁻¹, x)) 1 (fun i => weights i • boldH Γ dst i) := by
        rw [← hh, ← combine_mul_left]
        refine combine_congr (fun i hi => ?_) fun _ _ => rfl
        rw [getD_tabulate _ hi]
        ring
      rw [hg', hh', eq_sub_of_add_eq (hrel hne)]
      module

end IpStatement

/-! ## The range proof -/

theorem bits_eq (n : ℕ) (amount : UInt64) : bits n amount = tabulate n (bit amount.toNat) := by
  induction n generalizing amount with
  | zero => rfl
  | succ n ih =>
    have hlow : Commitment.amountScalar (amount &&& 1) = bit amount.toNat 0 := by
      simp [Commitment.amountScalar, bit]
    have hshift : (amount >>> 1).toNat = amount.toNat / 2 := by
      simp [UInt64.toNat_shiftRight, Nat.shiftRight_eq_div_pow]
    rw [bits, ih, tabulate_succ, hlow, hshift]
    congr 2
    funext i
    rw [bit, bit, Nat.div_div_eq_div_mul, Nat.pow_succ']

/-- The polynomial `t`, at a challenge: the constant term is what the verifier expects of it, as the rows are bits of the
amounts. -/
theorem tHat_eq {m n : ℕ} (hn : 0 < n) (aL sL sR amount : ℕ → Scalar) (x y z : Scalar) (hbit : ∀ i, aL i * (aL i - 1) = 0)
    (hamount : ∀ j < m, ∑ i ∈ Finset.range n, aL (j * n + i) * 2 ^ i = amount j) {l0 r0 r1 : ℕ → Scalar}
    (hl0 : ∀ i, l0 i = aL i - z) (hr0 : ∀ i, r0 i = (aL i - 1 + z) * y ^ i + z ^ (2 + i / n) * 2 ^ (i % n))
    (hr1 : ∀ i, r1 i = sR i * y ^ i) :
    combine (m * n) (fun i => l0 i + sL i * x) (fun i => r0 i + r1 i * x) =
      (z - z ^ 2) * ∑ i ∈ Finset.range (m * n), y ^ i + ∑ j ∈ Finset.range m, z ^ (2 + j) * amount j -
        ∑ j ∈ Finset.range m, z ^ (3 + j) * ∑ i ∈ Finset.range n, 2 ^ i +
        x * (combine (m * n) l0 r1 + combine (m * n) r0 sL) + x * x * combine (m * n) sL r1 := by
  have hblock : ∀ j < m, ∀ i < n, (j * n + i) / n = j ∧ (j * n + i) % n = i := by
    intro j _ i hi
    rw [Nat.mul_comm, Nat.mul_add_div hn, Nat.div_eq_of_lt hi, Nat.mul_add_mod, Nat.mod_eq_of_lt hi]
    exact ⟨rfl, rfl⟩
  have hrows : ∑ k ∈ Finset.range (m * n), aL k * (z ^ (2 + k / n) * 2 ^ (k % n)) =
      ∑ j ∈ Finset.range m, z ^ (2 + j) * amount j := by
    rw [sum_range_mul]
    refine Finset.sum_congr rfl fun j hj => ?_
    rw [← hamount j (Finset.mem_range.1 hj), Finset.mul_sum]
    refine Finset.sum_congr rfl fun i hi => ?_
    rw [(hblock j (Finset.mem_range.1 hj) i (Finset.mem_range.1 hi)).1,
      (hblock j (Finset.mem_range.1 hj) i (Finset.mem_range.1 hi)).2]
    ring
  have htwos : ∑ k ∈ Finset.range (m * n), z * (z ^ (2 + k / n) * 2 ^ (k % n)) =
      ∑ j ∈ Finset.range m, z ^ (3 + j) * ∑ i ∈ Finset.range n, 2 ^ i := by
    rw [sum_range_mul]
    refine Finset.sum_congr rfl fun j hj => ?_
    rw [Finset.mul_sum]
    refine Finset.sum_congr rfl fun i hi => ?_
    rw [(hblock j (Finset.mem_range.1 hj) i (Finset.mem_range.1 hi)).1,
      (hblock j (Finset.mem_range.1 hj) i (Finset.mem_range.1 hi)).2]
    ring
  rw [← hrows, ← htwos]
  simp only [combine, smul_eq_mul, Finset.mul_sum, ← Finset.sum_add_distrib, ← Finset.sum_sub_distrib]
  refine Finset.sum_congr rfl fun i _ => ?_
  rw [hl0, hr0, hr1]
  linear_combination y ^ i * hbit i

open Bulletproof (MAX_COMMITMENTS COMMITMENT_BITS)

namespace AggregateRangeStatement

theorem amountBits_eq (witness : List Commitment) :
    amountBits witness = tabulate (paddedPowOf2 witness.length * COMMITMENT_BITS) (rowBit witness) := by
  obtain ⟨padding, hpadding⟩ := Nat.exists_eq_add_of_le (le_paddedPowOf2 witness.length)
  have hrows : witness.flatMap (fun commitment => bits COMMITMENT_BITS commitment.amount) =
      tabulate (witness.length * COMMITMENT_BITS) (rowBit witness) := by
    conv_lhs => rw [witness_eq witness]
    rw [tabulate, List.flatMap_map]
    simp only [bits_eq]
    exact flatMap_tabulate _ _ (fun j => bit (commitmentAt witness j).amount.toNat) (by decide)
  have hzeros : List.replicate (padding * COMMITMENT_BITS) (0 : Scalar) =
      tabulate (padding * COMMITMENT_BITS) fun i => rowBit witness (witness.length * COMMITMENT_BITS + i) := by
    rw [replicate_eq_tabulate]
    refine tabulate_congr fun i _ => ?_
    rw [rowBit, commitmentAt_of_le]
    · simp [bit]
    · rw [Nat.mul_comm, Nat.mul_add_div (by decide)]
      exact Nat.le_add_right _ _
  rw [amountBits, hrows, hpadding, Nat.add_sub_cancel_left, hzeros, Nat.add_mul, tabulate_add]

theorem zTwos_eq (padded : ℕ) (z : Scalar) :
    zTwos padded (ScalarVector.powers z (3 + padded)) (ScalarVector.powers 2 COMMITMENT_BITS) =
      tabulate (padded * COMMITMENT_BITS) fun k => z ^ (2 + k / COMMITMENT_BITS) * 2 ^ (k % COMMITMENT_BITS) := by
  have hrow : ∀ j ∈ List.range padded,
      ((List.range COMMITMENT_BITS).map fun i => (ScalarVector.powers z (3 + padded)).getD (2 + j) 0 *
        (ScalarVector.powers 2 COMMITMENT_BITS).getD i 0) = tabulate COMMITMENT_BITS fun i => z ^ (2 + j) * 2 ^ i := by
    intro j hj
    have hj : j < padded := List.mem_range.1 hj
    refine tabulate_congr fun i hi => ?_
    rw [ScalarVector.powers_eq, ScalarVector.powers_eq, getD_tabulate _ (by omega), getD_tabulate _ hi]
  rw [zTwos, List.flatMap_congr hrow]
  exact flatMap_tabulate padded COMMITMENT_BITS (fun j i => z ^ (2 + j) * 2 ^ i) (by decide)

/-- The coefficients of the polynomials. -/
theorem polynomials_eq (padded : ℕ) (aL sL sR : ℕ → Scalar) (y z : Scalar) :
    polynomials padded (tabulate (padded * COMMITMENT_BITS) aL) (tabulate (padded * COMMITMENT_BITS) fun i => aL i - 1)
        (tabulate (padded * COMMITMENT_BITS) sL) (tabulate (padded * COMMITMENT_BITS) sR) y z =
      { l0 := tabulate (padded * COMMITMENT_BITS) fun i => aL i - z
        l1 := tabulate (padded * COMMITMENT_BITS) sL
        r0 := tabulate (padded * COMMITMENT_BITS) fun i =>
          (aL i - 1 + z) * y ^ i + z ^ (2 + i / COMMITMENT_BITS) * 2 ^ (i % COMMITMENT_BITS)
        r1 := tabulate (padded * COMMITMENT_BITS) fun i => sR i * y ^ i } := by
  have hz : (ScalarVector.powers z (3 + padded)).getD 1 0 = z := by
    rw [ScalarVector.powers_eq, getD_tabulate _ (by omega), pow_one]
  simp only [polynomials, hz, zTwos_eq, length_tabulate, ScalarVector.powers_eq y, ScalarVector.subScalar_tabulate,
    ScalarVector.addScalar_tabulate, ScalarVector.mul_tabulate, ScalarVector.add_tabulate]

theorem vectorCommitment_eq {rows : ℕ} (hrows : rows ≤ MAX_MN) (blind : Scalar) (a b : ℕ → Scalar) :
    vectorCommitment Γ blind (tabulate rows a) (tabulate rows b) =
      encoded (blind • pointG Γ + combine rows a (boldG Γ dst) + combine rows b (boldH Γ dst)) := by
  have hle : ∀ f : ℕ → Scalar, (tabulate rows f).length ≤ MAX_MN := fun f => (length_tabulate rows f).symm ▸ hrows
  rw [vectorCommitment, encoded, GENERATORS_eq, bulletproofsGenerators_eq, multiexp_cons, multiexp_append,
    multiexp_zip_tabulate (hle a), multiexp_zip_tabulate (hle b), weighted_tabulate, weighted_tabulate, ← add_assoc]
  rfl

theorem coefficientCommitment_eq (t tau : Scalar) :
    coefficientCommitment Γ t tau = encoded (t • pointH Γ + tau • pointG Γ) := by
  rw [coefficientCommitment, encoded, multiexp_cons, multiexp_cons, multiexp_nil, add_zero]
  have : (Scalar.INV_EIGHT • (t • pointH Γ + tau • pointG Γ) : Γ.primeSubgroup) =
      (t * Scalar.INV_EIGHT) • pointH Γ + (tau * Scalar.INV_EIGHT) • pointG Γ := by module
  rw [← Ctx.coe_smul, this]
  simp only [AddSubgroup.coe_add, Ctx.coe_smul]
  rfl

/-! ### What the verifier accumulates -/

section

variable {verifier reached : InternalBatchVerifier Γ} {P : Γ.primeSubgroup} {padded : ℕ}

theorem reaches_foldl_addH {rows : ℕ} (hr : Reaches (pointG Γ) (pointH Γ) dst verifier rows reached P) (f : ℕ → Scalar) (n : ℕ) :
    Reaches (pointG Γ) (pointH Γ) dst verifier rows ((List.range n).foldl (fun verifier i => verifier.addH (f i)) reached)
      (P + (∑ i ∈ Finset.range n, f i) • pointH Γ) := by
  induction n with
  | zero => exact hr.congr (by simp)
  | succ n ih =>
    rw [List.range_succ, List.foldl_append]
    refine (ih.addH (f n)).congr ?_
    rw [Finset.sum_range_succ, add_smul, add_assoc]

/-- The value added for equation 65. -/
theorem reaches_accumulateT (hr : Reaches (pointG Γ) (pointH Γ) dst verifier (padded * COMMITMENT_BITS) reached P)
    {len : ℕ} (hlen : len ≤ padded) (V : ℕ → Γ.primeSubgroup) (T1 T2 : Γ.primeSubgroup) (proof : AggregateRangeProof)
    (weight y z x : Scalar) :
    Reaches (pointG Γ) (pointH Γ) dst verifier (padded * COMMITMENT_BITS)
      (accumulateT padded (tabulate len fun i => (V i : Γ.Point)) T1 T2 proof weight y z x reached)
      (P + weight • ((proof.tHat - (z - z ^ 2) * (∑ i ∈ Finset.range (padded * COMMITMENT_BITS), y ^ i) +
          ∑ j ∈ Finset.range padded, z ^ (3 + j) * ∑ i ∈ Finset.range COMMITMENT_BITS, 2 ^ i) • pointH Γ +
        proof.tauX • pointG Γ - combine len (fun i => z ^ (2 + i)) V - x • T1 - (x * x) • T2)) := by
  have hz : ∀ i < 3 + padded, (ScalarVector.powers z (3 + padded)).getD i 0 = z ^ i := by
    intro i hi
    rw [ScalarVector.powers_eq, getD_tabulate _ hi]
  have hV : multiexp ((tabulate len fun i => (V i : Γ.Point)).zipIdx.map fun commitment =>
      (-weight * (ScalarVector.powers z (3 + padded)).getD (2 + commitment.2) 0, commitment.1)) =
        ((-weight • combine len (fun i => z ^ (2 + i)) V : Γ.primeSubgroup) : Γ.Point) := by
    rw [zipIdx_tabulate, map_tabulate, multiexp_tabulate, ← combine_smul_left]
    congr 1
    refine combine_congr (fun i hi => ?_) fun _ _ => rfl
    rw [hz _ (by omega)]
  have hT : multiexp [(-weight * x, (T1 : Γ.Point)), (-weight * (x * x), (T2 : Γ.Point))] =
      (((-weight * x) • T1 + (-weight * (x * x)) • T2 : Γ.primeSubgroup) : Γ.Point) := multiexp_pair ..
  have htwos : (ScalarVector.powers 2 COMMITMENT_BITS).sum = ∑ i ∈ Finset.range COMMITMENT_BITS, (2 : Scalar) ^ i := by
    rw [ScalarVector.powers_eq, sum_tabulate]
  have hys : (ScalarVector.powers y (padded * COMMITMENT_BITS)).sum = ∑ i ∈ Finset.range (padded * COMMITMENT_BITS), y ^ i := by
    rw [ScalarVector.powers_eq, sum_tabulate]
  have hsum : ∑ i ∈ Finset.range padded, -(-weight * (ScalarVector.powers z (3 + padded)).getD (3 + i) 0 *
      (ScalarVector.powers 2 COMMITMENT_BITS).sum) =
        weight * ∑ j ∈ Finset.range padded, z ^ (3 + j) * ∑ i ∈ Finset.range COMMITMENT_BITS, 2 ^ i := by
    rw [Finset.mul_sum, htwos]
    refine Finset.sum_congr rfl fun j hj => ?_
    rw [hz _ (by have := Finset.mem_range.1 hj; omega)]
    ring
  have hreach := (reaches_foldl_addH ((((hr.addH (weight * proof.tHat)).addG (weight * proof.tauX)).addH
    (-weight * ((ScalarVector.powers z (3 + padded)).getD 1 0 - (ScalarVector.powers z (3 + padded)).getD 2 0) *
      (ScalarVector.powers y (padded * COMMITMENT_BITS)).sum)).push hV) (fun i => -(-weight *
      (ScalarVector.powers z (3 + padded)).getD (3 + i) 0 * (ScalarVector.powers 2 COMMITMENT_BITS).sum)) padded).push hT
  refine hreach.congr ?_
  rw [hsum, hys, hz 1 (by omega), hz 2 (by omega), pow_one]
  module

/-- The value added for equations 66 to 68, before the inner-product argument. -/
theorem reaches_accumulateIp (hr : Reaches (pointG Γ) (pointH Γ) dst verifier (padded * COMMITMENT_BITS) reached P)
    (A S : Γ.primeSubgroup) (proof : AggregateRangeProof) (weight y z x xIp : Scalar) :
    Reaches (pointG Γ) (pointH Γ) dst verifier (padded * COMMITMENT_BITS)
      (accumulateIp padded A S proof weight y z x xIp reached)
      (P + weight • (A + x • S - combine (padded * COMMITMENT_BITS) (fun _ => z) (boldG Γ dst) +
        combine (padded * COMMITMENT_BITS)
          (fun i => z + y⁻¹ ^ i * (z ^ (2 + i / COMMITMENT_BITS) * 2 ^ (i % COMMITMENT_BITS))) (boldH Γ dst) +
        (xIp * proof.tHat) • pointH Γ - proof.mu • pointG Γ)) := by
  have hz : (ScalarVector.powers z (3 + padded)).getD 1 0 = z := by
    rw [ScalarVector.powers_eq, getD_tabulate _ (by omega), pow_one]
  have hzTwos : ∀ i < padded * COMMITMENT_BITS, weight * (ScalarVector.powers y⁻¹ (padded * COMMITMENT_BITS)).getD i 0 *
      (zTwos padded (ScalarVector.powers z (3 + padded)) (ScalarVector.powers 2 COMMITMENT_BITS)).getD i 0 =
        weight * (y⁻¹ ^ i * (z ^ (2 + i / COMMITMENT_BITS) * 2 ^ (i % COMMITMENT_BITS))) := by
    intro i hi
    rw [ScalarVector.powers_eq, zTwos_eq, getD_tabulate _ hi, getD_tabulate _ hi, mul_assoc]
  have hreach := (((((hr.push (multiexp_pair weight (weight * x) A S)).addHBold fun _ =>
    weight * (ScalarVector.powers z (3 + padded)).getD 1 0).addGBold fun _ =>
    -(weight * (ScalarVector.powers z (3 + padded)).getD 1 0)).addHBold fun i =>
    weight * (ScalarVector.powers y⁻¹ (padded * COMMITMENT_BITS)).getD i 0 *
      (zTwos padded (ScalarVector.powers z (3 + padded)) (ScalarVector.powers 2 COMMITMENT_BITS)).getD i 0).addH
    (weight * xIp * proof.tHat)).addG (weight * -proof.mu)
  refine hreach.congr ?_
  rw [combine_congr hzTwos fun _ _ => rfl, hz, combine_add_left]
  simp only [combine_smul_left, ← neg_mul]
  module

end

/-! ### What is proved verifies -/

theorem IpWitness_new_tabulate (k : ℕ) (a b : ℕ → Scalar) :
    ∃ witness : IpWitness, IpWitness.new (tabulate (2 ^ k) a) (tabulate (2 ^ k) b) = some witness ∧
      witness.a = tabulate (2 ^ k) a ∧ witness.b = tabulate (2 ^ k) b := by
  have hne : tabulate (2 ^ k) a ≠ [] := by
    rw [ne_eq, ← List.length_eq_zero_iff, length_tabulate]
    exact (Nat.two_pow_pos k).ne'
  have h : (tabulate (2 ^ k) a).length = (tabulate (2 ^ k) b).length ∧
      paddedPowOf2 (tabulate (2 ^ k) a).length = (tabulate (2 ^ k) a).length := by
    rw [length_tabulate, length_tabulate, paddedPowOf2_two_pow]
    exact ⟨rfl, rfl⟩
  refine ⟨{ a := tabulate (2 ^ k) a, b := tabulate (2 ^ k) b, length_eq := h.1, powerOf2 := h.2 }, ?_, rfl, rfl⟩
  rw [IpWitness.new, if_neg hne, dif_pos h]

/-- The end of proving: it succeeds, and the inner-product argument is of the polynomials at the challenge. -/
theorem proveEvaluated_spec (witness : List Commitment) {k : ℕ} (hk : 2 ^ k ≤ MAX_MN) (A S T1 T2 : CompressedPoint)
    (l0 l1 r0 r1 : ℕ → Scalar) (alpha rho tau1 tau2 y z x : Scalar) :
    ∃ proof : AggregateRangeProof, proveEvaluated Γ witness A S T1 T2
        { l0 := tabulate (2 ^ k) l0, l1 := tabulate (2 ^ k) l1, r0 := tabulate (2 ^ k) r0, r1 := tabulate (2 ^ k) r1 }
        alpha rho tau1 tau2 y z x = .ok proof ∧
      proof.A = A ∧ proof.S = S ∧ proof.T1 = T1 ∧ proof.T2 = T2 ∧ proof.mu = alpha + rho * x ∧
      proof.tHat = combine (2 ^ k) (fun i => l0 i + l1 i * x) (fun i => r0 i + r1 i * x) ∧
      proof.tauX = (tau2 * x + tau1) * x + ∑ i ∈ Finset.range witness.length, z ^ (2 + i) * (commitmentAt witness i).mask ∧
      (proof.ip.L.length = k ∧ proof.ip.R.length = k) ∧
      ∀ xIp, xIp = transcriptTauXMuTHat Γ x proof.tauX proof.mu proof.tHat →
        (∀ x ∈ IpStatement.challenges Γ xIp (proof.ip.L.zip proof.ip.R), x ≠ 0) →
        ∀ (weight : Scalar) {verifier reached : InternalBatchVerifier Γ} {P : Γ.primeSubgroup},
        Reaches (pointG Γ) (pointH Γ) dst verifier (2 ^ k) reached P →
        ∃ next, IpStatement.verify { hBoldWeights := ScalarVector.powers y⁻¹ (2 ^ k), u := xIp } reached
          (2 ^ k) xIp weight proof.ip =
            .ok next ∧
          Reaches (pointG Γ) (pointH Γ) dst verifier (2 ^ k) next
            (P - weight • relation (2 ^ k) (fun _ => 1) (fun i => l0 i + l1 i * x) (fun i => r0 i + r1 i * x) (boldG Γ dst)
              (fun i => y⁻¹ ^ i • boldH Γ dst i) (xIp • pointH Γ)) := by
  have htau : witness.zipIdx.foldl (fun tauX commitment => tauX +
      (ScalarVector.powers z (3 + paddedPowOf2 witness.length)).getD (2 + commitment.2) 0 * commitment.1.mask)
        ((tau2 * x + tau1) * x) =
      (tau2 * x + tau1) * x + ∑ i ∈ Finset.range witness.length, z ^ (2 + i) * (commitmentAt witness i).mask := by
    have hle := le_paddedPowOf2 witness.length
    conv_lhs => rw [witness_eq witness, zipIdx_tabulate, foldl_add_tabulate]
    congr 1
    refine Finset.sum_congr rfl fun i hi => ?_
    have hi : i < witness.length := Finset.mem_range.1 hi
    rw [length_tabulate, ScalarVector.powers_eq, getD_tabulate _ (by omega)]
  obtain ⟨ipWitness, hnew, ha, hb⟩ := IpWitness_new_tabulate k (fun i => l0 i + l1 i * x) fun i => r0 i + r1 i * x
  set tauX := (tau2 * x + tau1) * x + ∑ i ∈ Finset.range witness.length, z ^ (2 + i) * (commitmentAt witness i).mask with htauX
  set tHat := combine (2 ^ k) (fun i => l0 i + l1 i * x) (fun i => r0 i + r1 i * x) with htHat
  set xIp := transcriptTauXMuTHat Γ x tauX (alpha + rho * x) tHat with hxIp
  obtain ⟨ip, hprove, hlengths, hverify⟩ := IpStatement.verify_prove (Γ := Γ) hk (fun i => y⁻¹ ^ i) _ _ xIp xIp ha hb
  refine ⟨{ A, S, T1, T2, tauX, mu := alpha + rho * x, tHat, ip }, ?_, rfl, rfl, rfl, rfl, rfl, rfl, rfl, hlengths, ?_⟩
  · simp only [proveEvaluated, ScalarVector.mulScalar_tabulate, ScalarVector.add_tabulate, ScalarVector.innerProduct_tabulate, htau,
      length_tabulate, ScalarVector.powers_eq y⁻¹, hnew, ← htHat, ← hxIp, hprove]
  · intro xIp' hxIp' hne weight verifier reached P hr
    subst hxIp'
    rw [ScalarVector.powers_eq]
    exact hverify hne weight hr

theorem length_randomPairs (n : ℕ) (rng : Rng) : (randomPairs n rng).1.length = n := by
  induction n generalizing rng with
  | zero => rfl
  | succ n ih => simp [randomPairs, ih]

/-- What was proved, for the equations of the verifier: the bits `aL` of the amounts, the blinds, and the polynomials. -/
structure Proved (rows len padded : ℕ) (witness : ℕ → Commitment) (aL sL sR l0 r0 r1 : ℕ → Scalar) (y z : Scalar) :
    Prop where
  rows_eq : rows = padded * COMMITMENT_BITS
  len_le : len ≤ padded
  bit : ∀ i, aL i * (aL i - 1) = 0
  amount : ∀ j, ∑ i ∈ Finset.range COMMITMENT_BITS, aL (j * COMMITMENT_BITS + i) * 2 ^ i =
    Commitment.amountScalar (witness j).amount
  padding : ∀ j, len ≤ j → witness j = { mask := 0, amount := 0 }
  l0_eq : ∀ i, l0 i = aL i - z
  r0_eq : ∀ i, r0 i = (aL i - 1 + z) * y ^ i + z ^ (2 + i / COMMITMENT_BITS) * 2 ^ (i % COMMITMENT_BITS)
  r1_eq : ∀ i, r1 i = sR i * y ^ i

section

variable {rows len padded : ℕ} {witness : ℕ → Commitment} {aL sL sR l0 r0 r1 : ℕ → Scalar} {y z : Scalar}
  (h : Proved rows len padded witness aL sL sR l0 r0 r1 y z) {tHat x : Scalar}
  (htHat : tHat = combine rows (fun i => l0 i + sL i * x) (fun i => r0 i + r1 i * x))

include h htHat

/-- Equation 65 holds. -/
theorem equation_t {tauX tau1 tau2 : Scalar} {T1 T2 : Γ.primeSubgroup}
    (htauX : tauX = (tau2 * x + tau1) * x + ∑ i ∈ Finset.range len, z ^ (2 + i) * (witness i).mask)
    (hT1 : T1 = (combine rows l0 r1 + combine rows r0 sL) • pointH Γ + tau1 • pointG Γ)
    (hT2 : T2 = combine rows sL r1 • pointH Γ + tau2 • pointG Γ) :
    (tHat - (z - z ^ 2) * (∑ i ∈ Finset.range rows, y ^ i) +
        ∑ j ∈ Finset.range padded, z ^ (3 + j) * ∑ i ∈ Finset.range COMMITMENT_BITS, 2 ^ i) • pointH Γ +
      tauX • pointG Γ - combine len (fun i => z ^ (2 + i)) (fun i => commitmentPoint Γ (witness i)) - x • T1 -
      (x * x) • T2 = 0 := by
  have ht := tHat_eq (by decide) aL sL sR (fun j => Commitment.amountScalar (witness j).amount) x y z h.bit
    (fun j (_ : j < padded) => h.amount j) h.l0_eq h.r0_eq h.r1_eq
  rw [← h.rows_eq, ← htHat, sum_amount_of_le h.len_le h.padding] at ht
  rw [combine_commitmentPoint, ht, htauX, hT1, hT2]
  module

/-- Equations 66 to 68 hold: the point of the inner-product argument is the one its relation is about. -/
theorem equation_ip (hy : y ≠ 0) {alpha rho xIp : Scalar} {A S : Γ.primeSubgroup}
    (hA : A = alpha • pointG Γ + combine rows aL (boldG Γ dst) + combine rows (fun i => aL i - 1) (boldH Γ dst))
    (hS : S = rho • pointG Γ + combine rows sL (boldG Γ dst) + combine rows sR (boldH Γ dst)) :
    A + x • S - combine rows (fun _ => z) (boldG Γ dst) +
        combine rows (fun i => z + y⁻¹ ^ i * (z ^ (2 + i / COMMITMENT_BITS) * 2 ^ (i % COMMITMENT_BITS))) (boldH Γ dst) +
        (xIp * tHat) • pointH Γ - (alpha + rho * x) • pointG Γ =
      relation rows (fun _ => 1) (fun i => l0 i + sL i * x) (fun i => r0 i + r1 i * x) (boldG Γ dst)
        (fun i => y⁻¹ ^ i • boldH Γ dst i) (xIp • pointH Γ) := by
  have hG : combine rows (fun i => l0 i + sL i * x) (boldG Γ dst) =
      combine rows aL (boldG Γ dst) - combine rows (fun _ => z) (boldG Γ dst) + x • combine rows sL (boldG Γ dst) := by
    rw [← combine_smul_left, ← combine_sub_left, ← combine_add_left]
    refine combine_congr (fun i _ => ?_) fun _ _ => rfl
    rw [h.l0_eq]
    ring
  have hH : combine rows (fun i => r0 i + r1 i * x) (fun i => y⁻¹ ^ i • boldH Γ dst i) =
      combine rows (fun i => aL i - 1) (boldH Γ dst) +
        combine rows (fun i => z + y⁻¹ ^ i * (z ^ (2 + i / COMMITMENT_BITS) * 2 ^ (i % COMMITMENT_BITS))) (boldH Γ dst) +
        x • combine rows sR (boldH Γ dst) := by
    rw [← combine_mul_left, ← combine_smul_left, ← combine_add_left, ← combine_add_left]
    refine combine_congr (fun i _ => ?_) fun _ _ => rfl
    have hpow : y ^ i * y⁻¹ ^ i = 1 := by rw [← mul_pow, mul_inv_cancel₀ hy, one_pow]
    rw [h.r0_eq, h.r1_eq]
    linear_combination (aL i - 1 + z + sR i * x) * hpow
  simp only [relation, mul_one]
  rw [hG, hH, ← htHat, hA, hS]
  module

end

/-- The challenges of a proof that are inverted are not zero. -/
def Invertible (Γ : Ctx) (commitments : List Γ.Point) (proof : AggregateRangeProof) : Prop :=
  let (y, _, _, xIp) := challenges Γ (initialTranscript Γ commitments).1 proof
  y ≠ 0 ∧ ∀ x ∈ IpStatement.challenges Γ xIp (proof.ip.L.zip proof.ip.R), x ≠ 0

/-- Proving, with the randomness drawn and the challenges named. -/
theorem proveRange_eq (rng : Rng) (commitments : List Γ.Point) (witness : List Commitment) :
    ∃ (alpha rho tau1 tau2 : Scalar) (sL sR : ℕ → Scalar) (rng' : Rng),
      let padded := paddedPowOf2 witness.length
      let rows := padded * COMMITMENT_BITS
      ∀ (A S T1 T2 : CompressedPoint) (y z x : Scalar) (poly : Polynomials),
        A = vectorCommitment Γ alpha (tabulate rows (rowBit witness)) (tabulate rows fun i => rowBit witness i - 1) →
        S = vectorCommitment Γ rho (tabulate rows sL) (tabulate rows sR) →
        (y, z) = transcriptAS Γ (initialTranscript Γ commitments).1 A S →
        poly = polynomials padded (tabulate rows (rowBit witness)) (tabulate rows fun i => rowBit witness i - 1)
          (tabulate rows sL) (tabulate rows sR) y z →
        T1 = coefficientCommitment Γ poly.t1 tau1 → T2 = coefficientCommitment Γ poly.t2 tau2 → x = transcriptT12 Γ z T1 T2 →
        proveRange rng commitments witness =
          (proveEvaluated Γ witness A S T1 T2 poly alpha rho tau1 tau2 y z x).map fun proof => (proof, rng') := by
  set pairs := randomPairs (paddedPowOf2 witness.length * COMMITMENT_BITS) (Scalar.random rng).2 with hpairs
  have htabulate : ∀ f : Scalar × Scalar → Scalar,
      tabulate (paddedPowOf2 witness.length * COMMITMENT_BITS) (fun i => (pairs.1.map f).getD i 0) = pairs.1.map f := by
    intro f
    have hlen : (pairs.1.map f).length = paddedPowOf2 witness.length * COMMITMENT_BITS := by
      rw [List.length_map, hpairs, length_randomPairs]
    rw [← hlen]
    exact (eq_tabulate _ 0).symm
  refine ⟨(Scalar.random rng).1, (Scalar.random pairs.2).1, (Scalar.random (Scalar.random pairs.2).2).1,
    (Scalar.random (Scalar.random (Scalar.random pairs.2).2).2).1, fun i => (pairs.1.map Prod.fst).getD i 0,
    fun i => (pairs.1.map Prod.snd).getD i 0, (Scalar.random (Scalar.random (Scalar.random pairs.2).2).2).2, ?_⟩
  intro padded rows A S T1 T2 y z x poly hA hS hyz hpoly hT1 hT2 hx
  rw [htabulate, htabulate] at hS hpoly
  rw [← amountBits_eq] at hA hpoly
  have haR : tabulate rows (fun i => rowBit witness i - 1) = ScalarVector.subScalar (amountBits witness) 1 := by
    rw [amountBits_eq, ScalarVector.subScalar_tabulate]
  rw [haR] at hA hpoly
  have hy : y = (transcriptAS Γ (initialTranscript Γ commitments).1 A S).1 := congrArg Prod.fst hyz
  have hz : z = (transcriptAS Γ (initialTranscript Γ commitments).1 A S).2 := congrArg Prod.snd hyz
  subst hx hT1 hT2 hpoly hy hz hA hS
  rfl

/-- Verifying, where the points can be decompressed and with the challenges named. -/
theorem verify_eq {statement : AggregateRangeStatement Γ} {witness : List Commitment}
    (hstatement : statement.commitments = witness.map (Commitment.commit Γ)) {proof : AggregateRangeProof}
    {A S T1 T2 : Γ.primeSubgroup} (hA : proof.A = encoded A) (hS : proof.S = encoded S) (hT1 : proof.T1 = encoded T1)
    (hT2 : proof.T2 = encoded T2) {y z x xIp : Scalar}
    (hchallenges : challenges Γ (initialTranscript Γ statement.commitments).1 proof = (y, z, x, xIp)) (rng : Rng)
    (verifier : InternalBatchVerifier Γ) {next : InternalBatchVerifier Γ}
    (hnext : let padded := paddedPowOf2 witness.length
      let rows := padded * COMMITMENT_BITS
      let accumulated := accumulateT padded (tabulate witness.length fun i => (commitmentPoint Γ (commitmentAt witness i) : Γ.Point))
        T1 T2 proof (Scalar.random rng).1 y z x (pad rows verifier)
      IpStatement.verify { hBoldWeights := ScalarVector.powers y⁻¹ rows, u := xIp }
        (accumulateIp padded A S proof (Scalar.random (Scalar.random rng).2).1 y z x xIp accumulated) rows xIp
        (Scalar.random (Scalar.random rng).2).1 proof.ip = .ok next) :
    verify rng statement verifier proof = some (next, (Scalar.random (Scalar.random rng).2).2) := by
  have hcommitments : (initialTranscript Γ (witness.map (Commitment.commit Γ))).2.map (fun commitment => (8 : ℕ) • commitment) =
      tabulate witness.length fun i => (commitmentPoint Γ (commitmentAt witness i) : Γ.Point) := map_clearCofactor witness
  have hlength : statement.commitments.length = witness.length := by rw [hstatement, List.length_map]
  rw [← hstatement] at hcommitments
  unfold verify
  simp only [hchallenges, hA, hS, hT1, hT2, decompMulCofactor_encoded, hcommitments, hlength]
  simp only at hnext
  rw [hnext]

/-- What is proved verifies, in any batch and with any weights: it adds the identity to the value of the batch. -/
theorem verify_proveRange (witness : List Commitment) (hle : witness.length ≤ MAX_COMMITMENTS) (rng : Rng)
    {statement : AggregateRangeStatement Γ} (hstatement : statement.commitments = witness.map (Commitment.commit Γ)) :
    ∃ (proof : AggregateRangeProof) (rng' : Rng), proveRange rng statement.commitments witness = .ok (proof, rng') ∧
      (proof.ip.L.length = Bulletproof.padLoop witness.length 0 + 6 ∧
      proof.ip.R.length = Bulletproof.padLoop witness.length 0 + 6) ∧
      (Invertible Γ statement.commitments proof → ∀ (rng : Rng) (verifier : InternalBatchVerifier Γ), verifier.Sane →
        ∃ next rng', verify rng statement verifier proof = some (next, rng') ∧
          ∃ rows, Reaches (pointG Γ) (pointH Γ) dst verifier rows next 0) := by
  obtain ⟨alpha, rho, tau1, tau2, sL, sR, rng', hprove⟩ := proveRange_eq rng statement.commitments witness
  set padded := paddedPowOf2 witness.length with hpadded
  set k := Bulletproof.padLoop witness.length 0 + 6 with hk
  have hrows : padded * COMMITMENT_BITS = 2 ^ k := padded_rows witness.length
  have hkle : 2 ^ k ≤ MAX_MN := padded_rows_le hle
  set A := alpha • pointG Γ + combine (2 ^ k) (rowBit witness) (boldG Γ dst) +
    combine (2 ^ k) (fun i => rowBit witness i - 1) (boldH Γ dst) with hA
  set S := rho • pointG Γ + combine (2 ^ k) sL (boldG Γ dst) + combine (2 ^ k) sR (boldH Γ dst) with hS
  rcases hyz : transcriptAS Γ (initialTranscript Γ statement.commitments).1 (encoded A) (encoded S) with ⟨y, z⟩
  set l0 := fun i => rowBit witness i - z with hl0
  set r0 := fun i => (rowBit witness i - 1 + z) * y ^ i + z ^ (2 + i / COMMITMENT_BITS) * 2 ^ (i % COMMITMENT_BITS) with hr0
  set r1 := fun i => sR i * y ^ i with hr1
  set T1 := (combine (2 ^ k) l0 r1 + combine (2 ^ k) r0 sL) • pointH Γ + tau1 • pointG Γ with hT1
  set T2 := combine (2 ^ k) sL r1 • pointH Γ + tau2 • pointG Γ with hT2
  set x := transcriptT12 Γ z (encoded T1) (encoded T2) with hx
  have hproved : Proved (2 ^ k) witness.length padded (commitmentAt witness) (rowBit witness) sL sR l0 r0 r1 y z :=
    { rows_eq := hrows.symm, len_le := le_paddedPowOf2 _, bit := fun i => bit_mul_bit_sub_one _ _, amount := sum_rowBit witness,
      padding := fun j hj => commitmentAt_of_le hj, l0_eq := fun _ => rfl, r0_eq := fun _ => rfl, r1_eq := fun _ => rfl }
  obtain ⟨proof, hevaluated, hpA, hpS, hpT1, hpT2, hmu, htHat, htauX, hlengths, hip⟩ :=
    proveEvaluated_spec (Γ := Γ) witness hkle (encoded A) (encoded S) (encoded T1)
      (encoded T2) l0 sL r0 r1 alpha rho tau1 tau2 y z x
  refine ⟨proof, rng', ?_, hlengths, ?_⟩
  · have hpoly := polynomials_eq padded (rowBit witness) sL sR y z
    have hproveRange := hprove (encoded A) (encoded S) (encoded T1) (encoded T2) y z x _
      (by rw [hrows, vectorCommitment_eq hkle]) (by rw [hrows, vectorCommitment_eq hkle]) hyz.symm rfl
      (by rw [hpoly, hrows, Polynomials.t1, coefficientCommitment_eq, ScalarVector.innerProduct_tabulate,
            ScalarVector.innerProduct_tabulate])
      (by rw [hpoly, hrows, Polynomials.t2, coefficientCommitment_eq, ScalarVector.innerProduct_tabulate]) hx
    rw [hproveRange, hpoly, hrows, hevaluated]
    rfl
  · intro hinvertible rng verifier hsane
    set xIp := transcriptTauXMuTHat Γ x proof.tauX proof.mu proof.tHat with hxIp
    have hchallenges : challenges Γ (initialTranscript Γ statement.commitments).1 proof = (y, z, x, xIp) := by
      rw [challenges, hpA, hpS, hpT1, hpT2, hyz]
    rw [Invertible, hchallenges] at hinvertible
    obtain ⟨hy, hne⟩ := hinvertible
    set weight := (Scalar.random rng).1
    set ipWeight := (Scalar.random (Scalar.random rng).2).1
    have hpad : Reaches (pointG Γ) (pointH Γ) dst verifier (padded * COMMITMENT_BITS)
        (pad (padded * COMMITMENT_BITS) verifier) 0 := by
      have hrefl : Reaches (pointG Γ) (pointH Γ) dst verifier 0 verifier 0 := Reaches.refl hsane
      have hpad := hrefl.pad (hrows ▸ hkle : padded * COMMITMENT_BITS ≤ MAX_MN)
      rw [hsane.length_eq] at hpad
      exact hpad
    have hreach := reaches_accumulateIp (reaches_accumulateT hpad (le_paddedPowOf2 witness.length)
      (fun i => commitmentPoint Γ (commitmentAt witness i)) T1 T2 proof weight y z x) A S proof ipWeight y z x xIp
    rw [hrows, equation_t hproved htHat htauX hT1 hT2, hmu, equation_ip hproved htHat hy hA hS] at hreach
    obtain ⟨next, hnext, hreach⟩ := hip xIp rfl hne ipWeight hreach
    refine ⟨next, _, verify_eq hstatement hpA hpS hpT1 hpT2 hchallenges rng verifier ?_, 2 ^ k, hreach.congr ?_⟩
    · simp only
      rw [← hpadded, hrows]
      exact hnext
    · module

end AggregateRangeStatement

end Original

end MoneroOxide
