import MoneroOxide.BulletproofsPlus
import MoneroOxide.Lemmas.Bulletproofs
import MoneroOxide.Lib.Lists

/-!
# The weighted inner-product argument of Bulletproofs+

A round of the prover folds the relation it is about (`InnerProduct.relation_fold`, with the halves weighted by a power of `y`). By
induction over the rounds, the relation of the vectors it starts with is that of the scalars it ends with, and the value the verifier
accumulates for what was sent is the identity (`verify_prove`).
-/

namespace MoneroOxide

open InnerProduct Tabulate InternalBatchVerifier

namespace Plus

variable {Γ : Ctx}

/-- What the generators of Bulletproofs+ are separated by. -/
def dst : List UInt8 := ascii "bulletproof_plus"

theorem GENERATORS_eq : GENERATORS Γ = bulletproofsGenerators Γ dst := rfl

namespace WipStatement

theorem length_challenges (transcript : Scalar) (rounds : List (CompressedPoint × CompressedPoint)) :
    (challenges Γ transcript rounds).1.length = rounds.length := by
  induction rounds generalizing transcript with
  | nil => rfl
  | cons round rounds ih => rw [challenges, List.length_cons, ih, List.length_cons]

/-- The powers to be inverted are those of the halves. -/
theorem toInvert_eq (y : Scalar) (k : ℕ) {i : ℕ} (hi : i ≤ k) :
    toInvert (tabulate (2 ^ k) fun i => y ^ (i + 1)) (2 ^ k) i = tabulate (k - i) fun j => y ^ 2 ^ (i + j) := by
  induction hj : k - i generalizing i with
  | zero =>
    have : i = k := by omega
    subst this
    rw [toInvert, if_neg (by omega)]
    rfl
  | succ j ih =>
    have hlt : 2 ^ i < 2 ^ k := Nat.pow_lt_pow_right (by omega) (by omega)
    have hpos := Nat.two_pow_pos i
    rw [toInvert, if_pos hlt, ih (by omega) (by omega), tabulate_succ, getD_tabulate _ (by omega), Nat.sub_add_cancel hpos,
      Nat.add_zero]
    congr 2
    funext l
    rw [Nat.add_right_comm, Nat.add_assoc]

/-- The point `L` of a round. -/
def roundL (n : ℕ) (Y' dL : Scalar) (y a b : ℕ → Scalar) (g h : ℕ → Γ.primeSubgroup) : Γ.primeSubgroup :=
  combine n (fun i => a i * Y') (fun i => g (n + i)) + combine n (fun i => b (n + i)) h +
    combine n a (fun i => b (n + i) * y i) • pointH Γ + dL • pointG Γ

/-- The point `R` of a round. -/
def roundR (n : ℕ) (Y dR : Scalar) (y a b : ℕ → Scalar) (g h : ℕ → Γ.primeSubgroup) : Γ.primeSubgroup :=
  combine n (fun i => a (n + i) * Y) g + combine n b (fun i => h (n + i)) +
    combine n (fun i => a (n + i) * Y) (fun i => b i * y i) • pointH Γ + dR • pointG Γ

theorem roundLR_tabulate (n : ℕ) (y a b : ℕ → Scalar) (g h : ℕ → Γ.primeSubgroup) (Y Y' dL dR : Scalar) :
    roundLR (tabulate n a, tabulate n fun i => a (n + i)) (tabulate n b, tabulate n fun i => b (n + i))
        (tabulate n fun i => (g i : Γ.Point), tabulate n fun i => (g (n + i) : Γ.Point))
        (tabulate n fun i => (h i : Γ.Point), tabulate n fun i => (h (n + i) : Γ.Point)) (tabulate n y) Y Y' dL dR =
      ((roundL n Y' dL y a b g h : Γ.Point), (roundR n Y dR y a b g h : Γ.Point)) := by
  have hH : Γ.H = (pointH Γ : Γ.Point) := rfl
  have hG : Γ.G = (pointG Γ : Γ.Point) := rfl
  simp only [roundLR, ScalarVector.mulScalar_tabulate, ScalarVector.weightedInnerProduct_tabulate, zip_tabulate, multiexp_append,
    multiexp_tabulate, hH, hG, multiexp_pair, roundL, roundR, ← AddSubgroup.coe_add, add_assoc]

/-- The end of the argument: for the point it is about, the answers satisfy the equation of the verifier. -/
theorem proveEnd_spec (rng : Rng) (transcript : Scalar) (g h : Γ.primeSubgroup) (a b alpha y : Scalar) :
    ∃ (A B : Γ.primeSubgroup) (proof : WipProof) (rng' : Rng), proveEnd rng transcript (g : Γ.Point) h a b alpha y = (proof, rng') ∧
      proof.L = [] ∧ proof.R = [] ∧ proof.A = encoded A ∧ proof.B = encoded B ∧
      ∀ e, e = transcriptPair Γ transcript proof.A proof.B →
        (e * e) • (a • g + b • h + (a * (b * y)) • pointH Γ + alpha • pointG Γ) + e • A + B =
          (proof.rAnswer * e) • g + (proof.sAnswer * e) • h + (proof.rAnswer * y * proof.sAnswer) • pointH Γ +
            proof.deltaAnswer • pointG Γ := by
  set r := (Scalar.random rng).1
  set s := (Scalar.random (Scalar.random rng).2).1
  set delta := (Scalar.random (Scalar.random (Scalar.random rng).2).2).1
  set eta := (Scalar.random (Scalar.random (Scalar.random (Scalar.random rng).2).2).2).1
  set A := r • g + s • h + (r * y * b + s * y * a) • pointH Γ + delta • pointG Γ with hA
  set B := (r * y * s) • pointH Γ + eta • pointG Γ with hB
  have hencA : Γ.compress (Scalar.INV_EIGHT • multiexp [(r, (g : Γ.Point)), (s, (h : Γ.Point)),
      (r * y * b + s * y * a, Γ.H), (delta, Γ.G)]) = encoded A := by
    rw [encoded, hA, multiexp_cons, multiexp_cons]
    simp only [AddSubgroup.coe_add, Ctx.coe_smul, multiexp_cons, multiexp_nil, add_zero, add_assoc]
    rfl
  have hencB : Γ.compress (Scalar.INV_EIGHT • multiexp [(r * y * s, Γ.H), (eta, Γ.G)]) = encoded B :=
    congrArg (fun P => Γ.compress (Scalar.INV_EIGHT • P)) (multiexp_pair (r * y * s) eta (pointH Γ) (pointG Γ))
  refine ⟨A, B, { L := [], R := [], A := encoded A, B := encoded B,
                   rAnswer := r + a * transcriptPair Γ transcript (encoded A) (encoded B),
                   sAnswer := s + b * transcriptPair Γ transcript (encoded A) (encoded B),
                   deltaAnswer := eta + delta * transcriptPair Γ transcript (encoded A) (encoded B) +
                     alpha * (transcriptPair Γ transcript (encoded A) (encoded B) *
                       transcriptPair Γ transcript (encoded A) (encoded B)) },
    (Scalar.random (Scalar.random (Scalar.random (Scalar.random rng).2).2).2).2, ?_, rfl, rfl, rfl, rfl, ?_⟩
  · rw [← hencA, ← hencB]
    rfl
  · intro e he
    simp only [← show e = transcriptPair Γ transcript (encoded A) (encoded B) from he]
    rw [hA, hB]
    module

/-- One iteration of the loop of the prover. -/
theorem proveLoop_round {n : ℕ} (hn : 0 < n) (rng : Rng) (transcript : Scalar) (g h : ℕ → Γ.primeSubgroup) (a b : ℕ → Scalar)
    (alpha : Scalar) (y : ℕ → Scalar) (yInv : List Scalar) (Y' : Scalar) {dL dR e : Scalar}
    (hdL : dL = (Scalar.random rng).1) (hdR : dR = (Scalar.random (Scalar.random rng).2).1)
    (he : e = transcriptPair Γ transcript (encoded (roundL n Y' dL y a b g h)) (encoded (roundR n (y (n - 1)) dR y a b g h)))
    {rest : WipProof} {rng' : Rng}
    (hrest : proveLoop (Scalar.random (Scalar.random rng).2).2 e
      (tabulate n fun i => ((e⁻¹ • g i + (e * Y') • g (n + i) : Γ.primeSubgroup) : Γ.Point))
      (tabulate n fun i => ((e • h i + e⁻¹ • h (n + i) : Γ.primeSubgroup) : Γ.Point))
      (tabulate n fun i => a i * e + a (n + i) * (y (n - 1) * e⁻¹)) (tabulate n fun i => b i * e⁻¹ + b (n + i) * e)
      (alpha + (dL * (e * e) + dR * (e⁻¹ * e⁻¹))) (tabulate n y) yInv = .ok (rest, rng')) :
    proveLoop rng transcript (tabulate (n + n) fun i => (g i : Γ.Point)) (tabulate (n + n) fun i => (h i : Γ.Point))
        (tabulate (n + n) a) (tabulate (n + n) b) alpha (tabulate (n + n) y) (yInv ++ [Y']) =
      .ok ({ rest with L := encoded (roundL n Y' dL y a b g h) :: rest.L,
                       R := encoded (roundR n (y (n - 1)) dR y a b g h) :: rest.R }, rng') := by
  have hlt : 1 < (tabulate (n + n) fun i => (g i : Γ.Point)).length := by
    rw [length_tabulate]
    omega
  have hencoded : ∀ P : Γ.primeSubgroup, Γ.compress (Scalar.INV_EIGHT • (P : Γ.Point)) = encoded P := fun _ => rfl
  rw [proveLoop, if_pos hlt]
  simp only [split_tabulate, length_tabulate, take_tabulate y (by omega : n ≤ n + n), getD_tabulate y (by omega : n - 1 < n + n),
    List.getLast?_append, List.getLast?_singleton, Option.some_or, List.dropLast_concat, roundLR_tabulate, fold_tabulate,
    ScalarVector.mulScalar_tabulate, ScalarVector.add_tabulate, ← hdL, ← hdR, hencoded, ← he, hrest]
  rfl

/-- What the prover sends: points of the prime-order subgroup, and answers which satisfy the equation of the verifier for the
generators folded by the challenges. -/
theorem proveLoop_spec (k : ℕ) (rng : Rng) (transcript : Scalar) (g h : ℕ → Γ.primeSubgroup) (a b : ℕ → Scalar)
    (alpha y : Scalar) :
    ∃ (rounds : List (Γ.primeSubgroup × Γ.primeSubgroup)) (A B : Γ.primeSubgroup) (proof : WipProof) (rng' : Rng),
      proveLoop rng transcript (tabulate (2 ^ k) fun i => (g i : Γ.Point)) (tabulate (2 ^ k) fun i => (h i : Γ.Point))
        (tabulate (2 ^ k) a) (tabulate (2 ^ k) b) alpha (tabulate (2 ^ k) fun i => y ^ (i + 1))
        (tabulate k fun j => (y ^ 2 ^ j)⁻¹) = .ok (proof, rng') ∧
      rounds.length = k ∧ proof.L = (encodedRounds rounds).map Prod.fst ∧ proof.R = (encodedRounds rounds).map Prod.snd ∧
      proof.A = encoded A ∧ proof.B = encoded B ∧
      ∀ es transcript', challenges Γ transcript (encodedRounds rounds) = (es, transcript') → y ≠ 0 → (∀ e ∈ es, e ≠ 0) →
        ∀ e, e = transcriptPair Γ transcript' proof.A proof.B →
        (e * e) • (relation (2 ^ k) (fun i => y ^ (i + 1)) a b g h (pointH Γ) + alpha • pointG Γ + crossTerms es rounds) + e • A + B =
          (proof.rAnswer * e) • folded (es.map fun e => (e, e⁻¹)) y⁻¹ g +
          (proof.sAnswer * e) • folded (es.map fun e => (e⁻¹, e)) 1 h +
          (proof.rAnswer * y * proof.sAnswer) • pointH Γ + proof.deltaAnswer • pointG Γ := by
  induction k generalizing rng transcript g h a b alpha with
  | zero =>
    obtain ⟨A, B, proof, rng', hprove, hL, hR, hA, hB, heq⟩ := proveEnd_spec rng transcript (g 0) (h 0) (a 0) (b 0) alpha y
    refine ⟨[], A, B, proof, rng', ?_, rfl, hL, hR, hA, hB, ?_⟩
    · rw [proveLoop, if_neg (by simp)]
      have hy0 : (tabulate (2 ^ 0) fun i => y ^ (i + 1)).getD 0 0 = y := by
        rw [getD_tabulate _ (by decide), zero_add, pow_one]
      rw [hy0]
      exact congrArg Except.ok hprove
    · intro es transcript' hes _ _ e he
      obtain ⟨rfl, rfl⟩ := Prod.mk.inj hes
      have hcross : crossTerms [] ([] : List (Γ.primeSubgroup × Γ.primeSubgroup)) = 0 := rfl
      simp only [relation, pow_zero, combine_one, List.map_nil, folded_nil, zero_add, pow_one, smul_eq_mul, hcross, add_zero]
      exact heq e he
  | succ k ih =>
    have hpow : 2 ^ (k + 1) = 2 ^ k + 2 ^ k := by rw [Nat.pow_succ]; ring
    have hn : 0 < 2 ^ k := Nat.two_pow_pos k
    have hyInv : (tabulate (k + 1) fun j => (y ^ 2 ^ j)⁻¹) = (tabulate k fun j => (y ^ 2 ^ j)⁻¹) ++ [(y ^ 2 ^ k)⁻¹] := by
      rw [tabulate_add]
      rfl
    rw [hpow, hyInv]
    set n := 2 ^ k with hndef
    set yw : ℕ → Scalar := fun i => y ^ (i + 1) with hyw
    have hY : yw (n - 1) = y ^ n := by rw [hyw]; simp only [Nat.sub_add_cancel hn]
    set dL := (Scalar.random rng).1 with hdL
    set dR := (Scalar.random (Scalar.random rng).2).1 with hdR
    set L := roundL n (y ^ n)⁻¹ dL yw a b g h with hL
    set R := roundR n (yw (n - 1)) dR yw a b g h with hR
    set e₀ := transcriptPair Γ transcript (encoded L) (encoded R) with he₀
    obtain ⟨rounds, A, B, rest, rng', hrest, hlen, hLs, hRs, hA, hB, heq⟩ := ih (Scalar.random (Scalar.random rng).2).2 e₀
      (fun i => e₀⁻¹ • g i + (e₀ * (y ^ n)⁻¹) • g (n + i)) (fun i => e₀ • h i + e₀⁻¹ • h (n + i))
      (fun i => a i * e₀ + a (n + i) * (yw (n - 1) * e₀⁻¹)) (fun i => b i * e₀⁻¹ + b (n + i) * e₀)
      (alpha + (dL * (e₀ * e₀) + dR * (e₀⁻¹ * e₀⁻¹)))
    refine ⟨(L, R) :: rounds, A, B, _, rng', proveLoop_round hn rng transcript g h a b alpha yw _ _ hdL hdR he₀ hrest,
      by rw [List.length_cons, hlen], by rw [hLs]; rfl, by rw [hRs]; rfl, hA, hB, ?_⟩
    intro es transcript' hes hy hne e he
    rcases hrounds : challenges Γ e₀ (encodedRounds rounds) with ⟨es', transcript''⟩
    have hchallenges : challenges Γ transcript (encodedRounds ((L, R) :: rounds)) = (e₀ :: es', transcript'') := by
      have hcons : challenges Γ transcript (encodedRounds ((L, R) :: rounds)) =
          (e₀ :: (challenges Γ e₀ (encodedRounds rounds)).1, (challenges Γ e₀ (encodedRounds rounds)).2) := rfl
      rw [hcons, hrounds]
    rw [hchallenges] at hes
    obtain ⟨rfl, rfl⟩ := Prod.mk.inj hes
    have he₀0 : e₀ ≠ 0 := hne e₀ (by simp)
    have heq := heq es' transcript'' hrounds hy (fun e he => hne e (by simp [he])) e he
    have hesLen : es'.length = k := by
      have := length_challenges (Γ := Γ) e₀ (encodedRounds rounds)
      rw [hrounds, encodedRounds, List.length_map, hlen] at this
      exact this
    have hfold := relation_fold (mul_inv_cancel₀ he₀0) (mul_inv_cancel₀ (pow_ne_zero n hy)) n (y := yw)
      (fun i _ => by simp only [hyw]; ring) a b g h (pointH Γ)
    have hg : folded ((e₀ :: es').map fun e => (e, e⁻¹)) y⁻¹ g =
        folded (es'.map fun e => (e, e⁻¹)) y⁻¹ fun i => e₀⁻¹ • g i + (e₀ * (y ^ n)⁻¹) • g (n + i) := by
      rw [List.map_cons, folded_cons]
      simp only [List.length_map, hesLen, inv_pow, ← hndef]
    have hh : folded ((e₀ :: es').map fun e => (e⁻¹, e)) 1 h =
        folded (es'.map fun e => (e⁻¹, e)) 1 fun i => e₀ • h i + e₀⁻¹ • h (n + i) := by
      rw [List.map_cons, folded_cons]
      simp only [List.length_map, hesLen, one_pow, mul_one, ← hndef]
    rw [hY] at heq hR
    rw [hg, hh, ← heq, hfold, crossTerms_cons, hL, hR, roundL, roundR]
    module

/-- The points of the rounds can be decompressed. -/
theorem decompressRounds_encodedRounds (rounds : List (Γ.primeSubgroup × Γ.primeSubgroup)) :
    decompressRounds Γ (encodedRounds rounds) = some (rounds.map fun round => ((round.1 : Γ.Point), (round.2 : Γ.Point))) := by
  induction rounds with
  | nil => rfl
  | cons round rounds ih =>
    have hrounds : encodedRounds (round :: rounds) = (encoded round.1, encoded round.2) :: encodedRounds rounds := rfl
    rw [hrounds, decompressRounds, decompMulCofactor_encoded, decompMulCofactor_encoded, ih]
    rfl

/-- The terms of the rounds add up to the cross terms. -/
theorem multiexp_rounds (c : Scalar) (es : List Scalar) (rounds : List (Γ.primeSubgroup × Γ.primeSubgroup)) :
    multiexp (((es.zip (es.map (·⁻¹))).zip (rounds.map fun round => ((round.1 : Γ.Point), (round.2 : Γ.Point)))).flatMap
        fun ((e, invE), (L, R)) => [(c * (e * e), L), (c * (invE * invE), R)]) =
      ((c • crossTerms es rounds : Γ.primeSubgroup) : Γ.Point) := by
  induction es generalizing rounds with
  | nil => simp [crossTerms]
  | cons e es ih =>
    cases rounds with
    | nil => simp [crossTerms]
    | cons round rounds =>
      rw [List.map_cons, List.map_cons, List.zip_cons_cons, List.zip_cons_cons, List.flatMap_cons, multiexp_append, ih,
        multiexp_pair, crossTerms_cons, ← AddSubgroup.coe_add]
      congr 1
      module

/-- The value that the verifier accumulates. -/
theorem reaches_accumulate {k : ℕ} (hk : 2 ^ k ≤ MAX_MN) (P : Γ.primeSubgroup) (y : Scalar) {es : List Scalar} (hes : es.length = k)
    (e : Scalar) (rounds : List (Γ.primeSubgroup × Γ.primeSubgroup)) (A B : Γ.primeSubgroup) (proof : WipProof) (weight : Scalar)
    {verifier : InternalBatchVerifier Γ} (hsane : verifier.Sane) {generators : Generators Γ}
    (hgenerators : generators.G.length = 2 ^ k) :
    Reaches (pointH Γ) (pointG Γ) dst verifier (2 ^ k)
      (accumulate (WipStatement.new generators P y) es e (rounds.map fun round => ((round.1 : Γ.Point), (round.2 : Γ.Point))) A B
        proof weight verifier)
      (weight • ((proof.rAnswer * e) • folded (es.map fun e => (e, e⁻¹)) y⁻¹ (boldG Γ dst) +
          (proof.sAnswer * e) • folded (es.map fun e => (e⁻¹, e)) 1 (boldH Γ dst) +
          (proof.rAnswer * y * proof.sAnswer) • pointH Γ + proof.deltaAnswer • pointG Γ -
        ((e * e) • (P + crossTerms es rounds) + e • A + B))) := by
  set challengePairs := es.map fun e => (e, e⁻¹) with hpairs
  have hzip : es.zip (es.map (·⁻¹)) = challengePairs := Lists.zip_map_self _ es
  have hlen : challengePairs.length = k := by rw [hpairs, List.length_map, hes]
  have hswap : challengePairs.map Prod.swap = es.map fun e => (e⁻¹, e) := by
    rw [hpairs, List.map_map]
    rfl
  set productCache := challengeProducts (es.zip (es.map (·⁻¹))) with hcache
  have hy : (WipStatement.new generators (P : Γ.Point) y).y = tabulate (2 ^ k) fun i => y ^ (i + 1) := by
    rw [WipStatement.new, hgenerators, ScalarVector.powersFrom_eq]
    exact tabulate_congr fun i _ => (pow_succ' y i).symm
  have hy0 : (tabulate (2 ^ k) fun i => y ^ (i + 1)).getD 0 0 = y := by
    rw [getD_tabulate _ (Nat.two_pow_pos k), zero_add, pow_one]
  have hinvY : ∀ i < 2 ^ k, (ScalarVector.powersFrom y⁻¹ y⁻¹ (2 ^ k)).getD i 0 = y⁻¹ ^ (i + 1) := by
    intro i hi
    rw [ScalarVector.powersFrom_eq, getD_tabulate _ hi, pow_succ']
  set gCoefficient : ℕ → Scalar := fun i => weight * (if 0 < i then productCache.getD i 0 * (proof.rAnswer * e) *
    (ScalarVector.powersFrom y⁻¹ y⁻¹ (2 ^ k)).getD (i - 1) 0 else productCache.getD i 0 * (proof.rAnswer * e)) with hgCoefficient
  set hCoefficient : ℕ → Scalar := fun i =>
    weight * (proof.sAnswer * e * productCache.getD (productCache.length - 1 - i) 0) with hhCoefficient
  have hg : combine (2 ^ k) gCoefficient (boldG Γ dst) =
      (weight * (proof.rAnswer * e)) • folded challengePairs y⁻¹ (boldG Γ dst) := by
    rw [← combine_challengeProducts, hlen]
    refine combine_congr (fun i hi => ?_) fun _ _ => rfl
    simp only [hgCoefficient, hcache, hzip]
    split
    · rename_i hpos
      rw [hinvY _ (by omega), Nat.sub_add_cancel hpos]
      ring
    · have : i = 0 := by omega
      rw [this, pow_zero]
      ring
  have hh : combine (2 ^ k) hCoefficient (boldH Γ dst) =
      (weight * (proof.sAnswer * e)) • folded (es.map fun e => (e⁻¹, e)) 1 (boldH Γ dst) := by
    rw [← hswap, ← combine_challengeProducts_reverse, hlen]
    refine combine_congr (fun i _ => ?_) fun _ _ => rfl
    simp only [hhCoefficient, hcache, hzip]
    ring
  have hone : ∀ (c : Scalar) (Q : Γ.primeSubgroup), multiexp [(c, (Q : Γ.Point))] = ((c • Q : Γ.primeSubgroup) : Γ.Point) := by
    intro c Q
    rw [multiexp_cons, multiexp_nil, add_zero, Ctx.coe_smul]
  have hrefl : Reaches (pointH Γ) (pointG Γ) dst verifier 0 verifier 0 := Reaches.refl hsane
  have hreach := ((((((((hrefl.push
    (hone (weight * -(e * e)) P)).push (multiexp_rounds (weight * -(e * e)) es rounds)).pad hk).addGBold
    gCoefficient).addHBold hCoefficient).push (hone (weight * -e) A)).addG (weight * (proof.rAnswer * y * proof.sAnswer))).addH
    (weight * proof.deltaAnswer)).push (hone (-weight) B)
  unfold accumulate
  simp only [hy, hy0, length_tabulate, show (WipStatement.new generators (P : Γ.Point) y).generators.G.length =
    2 ^ k from hgenerators]
  refine hreach.congr ?_
  rw [hg, hh]
  module

/-- What is proved verifies, in any batch and with any weight: it adds the identity to the value of the batch. -/
theorem verify_prove {k : ℕ} (hk : 2 ^ k ≤ MAX_MN) (rng : Rng) (transcript : Scalar) (a b : ℕ → Scalar) (alpha y : Scalar)
    {generators : Generators Γ} (hG : generators.G = tabulate (2 ^ k) fun i => (boldG Γ dst i : Γ.Point))
    (hH : generators.H = tabulate (2 ^ k) fun i => (boldH Γ dst i : Γ.Point)) {P : Γ.primeSubgroup}
    (hP : P = relation (2 ^ k) (fun i => y ^ (i + 1)) a b (boldG Γ dst) (boldH Γ dst) (pointH Γ) + alpha • pointG Γ) :
    ∃ (proof : WipProof) (rng' : Rng),
      prove rng (WipStatement.new generators P y) transcript { a := tabulate (2 ^ k) a, b := tabulate (2 ^ k) b, alpha } =
        .ok (some (proof, rng')) ∧
      (proof.L.length = k ∧ proof.R.length = k) ∧
      (y ≠ 0 → (∀ e ∈ (challenges Γ transcript (proof.L.zip proof.R)).1, e ≠ 0) →
        ∀ (rng : Rng) (verifier : InternalBatchVerifier Γ),
        verifier.Sane → ∃ next rng', verify rng (WipStatement.new generators P y) verifier transcript proof = some (next, rng') ∧
          Reaches (pointH Γ) (pointG Γ) dst verifier (2 ^ k) next 0) := by
  obtain ⟨rounds, A, B, proof, rng', hprove, hlen, hL, hR, hA, hB, heq⟩ :=
    proveLoop_spec k rng transcript (boldG Γ dst) (boldH Γ dst) a b alpha y
  have hlength : generators.G.length = 2 ^ k := by rw [hG, length_tabulate]
  have hy : (WipStatement.new generators (P : Γ.Point) y).y = tabulate (2 ^ k) fun i => y ^ (i + 1) := by
    rw [WipStatement.new, hlength, ScalarVector.powersFrom_eq]
    exact tabulate_congr fun i _ => (pow_succ' y i).symm
  have hLR : proof.L.zip proof.R = encodedRounds rounds := by rw [hL, hR, List.zip_map', List.map_id']
  have hLlen : proof.L.length = k := by rw [hL, List.length_map, encodedRounds, List.length_map, hlen]
  have hRlen : proof.R.length = k := by rw [hR, List.length_map, encodedRounds, List.length_map, hlen]
  refine ⟨proof, rng', ?_, ⟨hLlen, hRlen⟩, ?_⟩
  · have hinv : (toInvert (tabulate (2 ^ k) fun i => y ^ (i + 1)) (2 ^ k) 0).map (·⁻¹) = tabulate k fun j => (y ^ 2 ^ j)⁻¹ := by
      rw [toInvert_eq y k (Nat.zero_le k), map_tabulate, Nat.sub_zero]
      simp only [Nat.zero_add]
    rw [prove, if_neg (by rw [length_tabulate]; exact not_not.2 hlength), hy,
      show (WipStatement.new generators (P : Γ.Point) y).generators = generators from rfl, hlength, hinv, hG, hH]
    exact congrArg (Except.map some) hprove
  · rw [hLR]
    intro hy0 hne rng verifier hsane
    rcases hchallenges : challenges Γ transcript (encodedRounds rounds) with ⟨es, transcript'⟩
    rw [hchallenges] at hne
    have hes : es.length = k := by
      have := length_challenges (Γ := Γ) transcript (encodedRounds rounds)
      rw [hchallenges, encodedRounds, List.length_map, hlen] at this
      exact this
    set e := transcriptPair Γ transcript' proof.A proof.B with he
    have heq := heq es transcript' hchallenges hy0 hne e he
    refine ⟨_, (Scalar.random rng).2, ?_, (reaches_accumulate hk P y hes e rounds A B proof (Scalar.random rng).1 hsane hlength).congr ?_⟩
    · have hcheck : ¬(proof.L.length ≠ k ∨ proof.R.length ≠ k ∨ 2 ^ k ≠ 2 ^ k) := by simp [hLlen, hRlen]
      simp only [verify, show (WipStatement.new generators (P : Γ.Point) y).generators.G.length = 2 ^ k from hlength,
        padLoop_two_pow,
        if_neg hcheck, hLR, hchallenges, decompressRounds_encodedRounds, hA, hB, decompMulCofactor_encoded]
      rw [← hA, ← hB]
      rfl
    · rw [hP, heq, sub_self, smul_zero]

end WipStatement

/-! ## The range proof -/

open Bulletproof (MAX_COMMITMENTS COMMITMENT_BITS)

theorem u64Decompose_eq (value : UInt64) : u64Decompose value = tabulate COMMITMENT_BITS (bit value.toNat) := by
  refine tabulate_congr fun i hi => ?_
  have hi : i < 64 := hi
  have hshift : (value >>> UInt64.ofNat i).toNat = value.toNat / 2 ^ i := by
    rw [UInt64.toNat_shiftRight, UInt64.toNat_ofNat', Nat.mod_eq_of_lt (by omega : i < 2 ^ 64), Nat.mod_eq_of_lt hi,
      Nat.shiftRight_eq_div_pow]
  rw [Commitment.amountScalar, UInt64.toNat_and, hshift, bit]
  simp

namespace AggregateRangeStatement

theorem amountBits_eq (m : ℕ) (witness : List Commitment) :
    amountBits m witness = tabulate (m * COMMITMENT_BITS) (rowBit witness) := by
  have hamount : ∀ j, (witness[j]?.map Commitment.amount).getD 0 = (commitmentAt witness j).amount := by
    intro j
    rw [commitmentAt, List.getD_eq_getElem?_getD]
    cases witness[j]? <;> rfl
  simp only [amountBits, hamount, u64Decompose_eq]
  exact flatMap_tabulate m COMMITMENT_BITS (fun j => bit (commitmentAt witness j).amount.toNat) (by decide)

theorem dJ_eq {j m : ℕ} (hj : j < m) :
    dJ (j + 1) m = tabulate (m * COMMITMENT_BITS) fun k => if k / COMMITMENT_BITS = j then 2 ^ (k % COMMITMENT_BITS) else 0 := by
  obtain ⟨l, rfl⟩ := Nat.exists_eq_add_of_lt hj
  have hsum : (j + l + 1) * COMMITMENT_BITS = j * COMMITMENT_BITS + COMMITMENT_BITS + l * COMMITMENT_BITS := by ring
  have hbits : 0 < COMMITMENT_BITS := by decide
  rw [dJ, Nat.add_sub_cancel, show j + l + 1 - (j + 1) = l by omega, hsum, tabulate_add, tabulate_add, ScalarVector.powers_eq,
    replicate_eq_tabulate, replicate_eq_tabulate]
  congr 1
  · congr 1
    · refine tabulate_congr fun i hi => ?_
      have : i / COMMITMENT_BITS < j := Nat.div_lt_of_lt_mul (by rwa [Nat.mul_comm] at hi)
      rw [if_neg (by omega)]
    · refine tabulate_congr fun i hi => ?_
      rw [Nat.mul_comm j, Nat.mul_add_div hbits, Nat.div_eq_of_lt hi, Nat.mul_add_mod, Nat.mod_eq_of_lt hi, if_pos (Nat.add_zero j)]
  · refine tabulate_congr fun i _ => ?_
    have hdiv : (j * COMMITMENT_BITS + COMMITMENT_BITS + i) / COMMITMENT_BITS = j + 1 + i / COMMITMENT_BITS := by
      rw [← Nat.succ_mul, Nat.mul_comm, Nat.mul_add_div hbits]
    rw [hdiv]
    generalize i / COMMITMENT_BITS = q
    rw [if_neg (by omega)]

/-- The vector `d`: the bits are weighted by the powers of two, and the rows by the even powers of `z`. -/
theorem dVector_eq (m : ℕ) (z : Scalar) :
    dVector m (tabulate (m + 1) fun j => (z * z) ^ (j + 1)) =
      tabulate (m * COMMITMENT_BITS) fun k => (z * z) ^ (k / COMMITMENT_BITS + 1) * 2 ^ (k % COMMITMENT_BITS) := by
  have hloop : ∀ n ≤ m, (List.range n).foldl (fun d j => ScalarVector.add d (ScalarVector.mulScalar (dJ (j + 1) m)
      ((tabulate (m + 1) fun j => (z * z) ^ (j + 1)).getD j 0))) (List.replicate (m * COMMITMENT_BITS) 0) =
        tabulate (m * COMMITMENT_BITS) fun k =>
          if k / COMMITMENT_BITS < n then (z * z) ^ (k / COMMITMENT_BITS + 1) * 2 ^ (k % COMMITMENT_BITS) else 0 := by
    intro n hn
    induction n with
    | zero => exact replicate_eq_tabulate _ _
    | succ n ih =>
      rw [List.range_succ, List.foldl_append, ih (by omega), List.foldl_cons, List.foldl_nil, dJ_eq (by omega),
        getD_tabulate _ (by omega), ScalarVector.mulScalar_tabulate, ScalarVector.add_tabulate]
      refine tabulate_congr fun k _ => ?_
      by_cases hk : k / COMMITMENT_BITS = n
      · rw [if_neg (by omega), if_pos hk, if_pos (by omega), hk]
        ring
      · by_cases hlt : k / COMMITMENT_BITS < n
        · rw [if_pos hlt, if_neg hk, if_pos (by omega)]
          ring
        · rw [if_neg hlt, if_neg hk, if_neg (by omega)]
          ring
  rw [dVector, hloop m le_rfl]
  exact tabulate_congr fun k hk => if_pos (Nat.div_lt_of_lt_mul (by rwa [Nat.mul_comm] at hk))

theorem padV_tabulate (witness : List Commitment) :
    padV (tabulate witness.length fun i => (commitmentPoint Γ (commitmentAt witness i) : Γ.Point)) =
      tabulate (paddedPowOf2 witness.length) fun i => (commitmentPoint Γ (commitmentAt witness i) : Γ.Point) := by
  obtain ⟨padding, hpadding⟩ := Nat.exists_eq_add_of_le (le_paddedPowOf2 witness.length)
  rw [padV, length_tabulate, hpadding, Nat.add_sub_cancel_left, tabulate_add, replicate_eq_tabulate]
  congr 1
  refine tabulate_congr fun i _ => ?_
  rw [commitmentAt_of_le (Nat.le_add_right _ i)]
  simp [commitmentPoint, Commitment.amountScalar]

theorem padV_padded (n : ℕ) (V : ℕ → Γ.Point) : padV (tabulate (paddedPowOf2 n) V) = tabulate (paddedPowOf2 n) V := by
  have hpadded : paddedPowOf2 (paddedPowOf2 n) = paddedPowOf2 n := paddedPowOf2_two_pow _
  rw [padV, length_tabulate, hpadded, Nat.sub_self, List.replicate_zero, List.append_nil]

/-- The weights of the rows, with the powers of `y` in descending order. -/
def dDescending (rows : ℕ) (y z : Scalar) (k : ℕ) : Scalar :=
  (z * z) ^ (k / COMMITMENT_BITS + 1) * 2 ^ (k % COMMITMENT_BITS) * y ^ (rows - 1 - k + 1)

/-- What `compute_A_hat` computes, as sums. -/
theorem computeAHatWith_eq {m : ℕ} {V : List Γ.Point} {Vs : ℕ → Γ.primeSubgroup}
    (hV : padV V = tabulate m fun i => (Vs i : Γ.Point)) (hm : 0 < m) {rows : ℕ} (hrows : rows = m * COMMITMENT_BITS)
    {generators : Generators Γ} (hG : generators.G = tabulate rows fun i => (boldG Γ dst i : Γ.Point))
    (hH : generators.H = tabulate rows fun i => (boldH Γ dst i : Γ.Point)) (y z : Scalar) (A : Γ.primeSubgroup) :
    computeAHatWith V generators y z A =
      { y, z
        dDescendingYPlusZ := tabulate rows fun k => dDescending rows y z k + z
        yMnPlusOne := y ^ (rows + 1)
        zPow := tabulate (m + 1) fun j => (z * z) ^ (j + 1)
        AHat := ((A - combine rows (fun _ => z) (boldG Γ dst) + combine rows (fun k => dDescending rows y z k + z) (boldH Γ dst) +
          y ^ (rows + 1) • combine m (fun j => (z * z) ^ (j + 1)) Vs +
          ((∑ i ∈ Finset.range rows, y ^ (i + 1)) * (z - z * z) -
            (∑ k ∈ Finset.range rows, (z * z) ^ (k / COMMITMENT_BITS + 1) * 2 ^ (k % COMMITMENT_BITS)) * y ^ (rows + 1) * z) •
              pointH Γ : Γ.primeSubgroup) : Γ.Point) } := by
  have hpowers : ∀ (x : Scalar) (n : ℕ), ScalarVector.powersFrom x x n = tabulate n fun i => x ^ (i + 1) := by
    intro x n
    rw [ScalarVector.powersFrom_eq]
    exact tabulate_congr fun i _ => (pow_succ' x i).symm
  have hrowsPos : 0 < rows := by
    rw [hrows]
    exact Nat.mul_pos hm (by decide)
  have hyMn : (tabulate rows fun i => y ^ (rows - 1 - i + 1)).getD 0 0 * y = y ^ (rows + 1) := by
    rw [getD_tabulate _ hrowsPos, Nat.sub_zero, Nat.sub_add_cancel hrowsPos, pow_succ]
  have haccum : (tabulate m fun i => (Vs i : Γ.Point)).zipIdx.foldl (fun accum commitment =>
      accum + (tabulate (m + 1) fun j => (z * z) ^ (j + 1)).getD commitment.2 0 • commitment.1) 0 =
        ((combine m (fun j => (z * z) ^ (j + 1)) Vs : Γ.primeSubgroup) : Γ.Point) := by
    rw [zipIdx_tabulate, foldl_add_tabulate, zero_add, combine, AddSubgroup.val_finsetSum]
    refine Finset.sum_congr rfl fun i hi => ?_
    rw [getD_tabulate _ (by have := Finset.mem_range.1 hi; omega), Ctx.coe_smul]
  have hterms : multiexp ((tabulate rows fun k => dDescending rows y z k + z).zipIdx.flatMap fun term =>
      [(-z, generators.G.getD term.2 0), (term.1, generators.H.getD term.2 0)]) =
        ((combine rows (fun _ => -z) (boldG Γ dst) + combine rows (fun k => dDescending rows y z k + z) (boldH Γ dst) :
          Γ.primeSubgroup) : Γ.Point) := by
    rw [zipIdx_tabulate, multiexp_flatMap_tabulate, combine, combine, ← Finset.sum_add_distrib, AddSubgroup.val_finsetSum]
    refine Finset.sum_congr rfl fun i hi => ?_
    have hi : i < rows := Finset.mem_range.1 hi
    rw [hG, hH, getD_tabulate _ hi, getD_tabulate _ hi, multiexp_pair]
  have hd : ∀ k, (z * z) ^ (k / COMMITMENT_BITS + 1) * 2 ^ (k % COMMITMENT_BITS) * y ^ (rows - 1 - k + 1) =
    dDescending rows y z k :=
    fun _ => rfl
  unfold computeAHatWith
  simp only [hV, length_tabulate, hpowers, dVector_eq, ← hrows, reverse_tabulate, ScalarVector.mul_tabulate,
    ScalarVector.addScalar_tabulate, hyMn, haccum, sum_tabulate, hd]
  congr 1
  have hneg : combine rows (fun _ => -z) (boldG Γ dst) = -combine rows (fun _ => z) (boldG Γ dst) := by
    simp only [combine, neg_smul, Finset.sum_neg_distrib]
  rw [multiexp_append, hterms, show Γ.H = (pointH Γ : Γ.Point) from rfl, multiexp_pair, ← AddSubgroup.coe_add,
    ← AddSubgroup.coe_add, hneg]
  congr 1
  module

/-- The weighted inner product of the witness. The bits cancel, and each row is multiplied by the same power of `y`. -/
theorem inner_eq (padded : ℕ) {rows : ℕ} (hrows : rows = padded * COMMITMENT_BITS) (witness : List Commitment) (y z : Scalar) :
    combine rows (fun i => rowBit witness i - z) (fun i => (rowBit witness i - 1 + (dDescending rows y z i + z)) * y ^ (i + 1)) =
      (∑ i ∈ Finset.range rows, y ^ (i + 1)) * (z - z * z) +
        y ^ (rows + 1) * ((∑ j ∈ Finset.range padded,
            (z * z) ^ (j + 1) * Commitment.amountScalar (commitmentAt witness j).amount) -
          z * ∑ k ∈ Finset.range rows, (z * z) ^ (k / COMMITMENT_BITS + 1) * 2 ^ (k % COMMITMENT_BITS)) := by
  have hamounts : ∑ j ∈ Finset.range padded, (z * z) ^ (j + 1) * Commitment.amountScalar (commitmentAt witness j).amount =
      ∑ k ∈ Finset.range rows, rowBit witness k * ((z * z) ^ (k / COMMITMENT_BITS + 1) * 2 ^ (k % COMMITMENT_BITS)) := by
    rw [hrows, sum_range_mul]
    refine Finset.sum_congr rfl fun j _ => ?_
    rw [← sum_rowBit, Finset.mul_sum]
    refine Finset.sum_congr rfl fun i hi => ?_
    have hi : i < COMMITMENT_BITS := Finset.mem_range.1 hi
    have hdiv : (j * COMMITMENT_BITS + i) / COMMITMENT_BITS = j := by
      rw [Nat.mul_comm, Nat.mul_add_div (by decide), Nat.div_eq_of_lt hi, Nat.add_zero]
    have hmod : (j * COMMITMENT_BITS + i) % COMMITMENT_BITS = i := by
      rw [Nat.mul_comm, Nat.mul_add_mod, Nat.mod_eq_of_lt hi]
    rw [hdiv, hmod]
    ring
  rw [hamounts, Finset.mul_sum, ← Finset.sum_sub_distrib, Finset.mul_sum, Finset.sum_mul, ← Finset.sum_add_distrib, combine]
  refine Finset.sum_congr rfl fun i hi => ?_
  have hi : i < rows := Finset.mem_range.1 hi
  have hpow : y ^ (rows - 1 - i + 1) * y ^ (i + 1) = y ^ (rows + 1) := by
    rw [← pow_add]
    congr 1
    omega
  have hbit : rowBit witness i * (rowBit witness i - 1) = 0 := bit_mul_bit_sub_one _ _
  rw [smul_eq_mul, dDescending]
  linear_combination y ^ (i + 1) * hbit +
    (rowBit witness i - z) * ((z * z) ^ (i / COMMITMENT_BITS + 1) * 2 ^ (i % COMMITMENT_BITS)) * hpow

/-- The point that the argument is about, by its witness. -/
def statedPoint (Γ : Ctx) (rows : ℕ) (witness : List Commitment) (y z alpha : Scalar) : Γ.primeSubgroup :=
  relation rows (fun i => y ^ (i + 1)) (fun i => rowBit witness i - z)
      (fun i => rowBit witness i - 1 + (dDescending rows y z i + z)) (boldG Γ dst) (boldH Γ dst) (pointH Γ) +
    (alpha + ∑ j ∈ Finset.range witness.length, (z * z) ^ (j + 1) * (commitmentAt witness j).mask * y ^ (rows + 1)) • pointG Γ

/-- The point that the argument is about is the one its relation is about. -/
theorem relation_eq {padded : ℕ} {rows : ℕ} (hrows : rows = padded * COMMITMENT_BITS) {witness : List Commitment}
    (hpadded : witness.length ≤ padded) (y z : Scalar) {alpha : Scalar} {A : Γ.primeSubgroup}
    (hA : A = combine rows (rowBit witness) (boldG Γ dst) + combine rows (fun i => rowBit witness i - 1) (boldH Γ dst) +
      alpha • pointG Γ) :
    A - combine rows (fun _ => z) (boldG Γ dst) + combine rows (fun k => dDescending rows y z k + z) (boldH Γ dst) +
        y ^ (rows + 1) • combine padded (fun j => (z * z) ^ (j + 1)) (fun j => commitmentPoint Γ (commitmentAt witness j)) +
        ((∑ i ∈ Finset.range rows, y ^ (i + 1)) * (z - z * z) -
          (∑ k ∈ Finset.range rows, (z * z) ^ (k / COMMITMENT_BITS + 1) * 2 ^ (k % COMMITMENT_BITS)) * y ^ (rows + 1) * z) •
            pointH Γ = statedPoint Γ rows witness y z alpha := by
  have hmasks : ∑ j ∈ Finset.range padded, (z * z) ^ (j + 1) * (commitmentAt witness j).mask =
      ∑ j ∈ Finset.range witness.length, (z * z) ^ (j + 1) * (commitmentAt witness j).mask := by
    obtain ⟨padding, rfl⟩ := Nat.exists_eq_add_of_le hpadded
    rw [Finset.sum_range_add, Finset.sum_eq_zero (s := Finset.range padding), add_zero]
    intro j _
    rw [commitmentAt_of_le (Nat.le_add_right _ j), mul_zero]
  rw [statedPoint, relation, inner_eq padded hrows, combine_sub_left, combine_add_left rows (fun i => rowBit witness i - 1),
    combine_commitmentPoint, hmasks, hA, ← Finset.sum_mul]
  module

/-- What `compute_A_hat` computes for the commitment `A` to the bits. -/
def computed (Γ : Ctx) (padded rows : ℕ) (witness : List Commitment) (y z alpha : Scalar) : AHatComputation Γ where
  y := y
  dDescendingYPlusZ := tabulate rows fun k => dDescending rows y z k + z
  yMnPlusOne := y ^ (rows + 1)
  z := z
  zPow := tabulate (padded + 1) fun j => (z * z) ^ (j + 1)
  AHat := statedPoint Γ rows witness y z alpha

theorem computeAHat_eq {padded : ℕ} {rows : ℕ} (hrows : rows = padded * COMMITMENT_BITS) (hpos : 0 < padded)
    {witness : List Commitment} (hpadded : witness.length ≤ padded) {V : List Γ.Point}
    (hV : padV V = tabulate padded fun i => (commitmentPoint Γ (commitmentAt witness i) : Γ.Point))
    {generators : Generators Γ} (hG : generators.G = tabulate rows fun i => (boldG Γ dst i : Γ.Point))
    (hH : generators.H = tabulate rows fun i => (boldH Γ dst i : Γ.Point)) {alpha : Scalar} {A : Γ.primeSubgroup}
    (hA : A = combine rows (rowBit witness) (boldG Γ dst) + combine rows (fun i => rowBit witness i - 1) (boldH Γ dst) +
      alpha • pointG Γ) {transcript y z : Scalar} (hyz : transcriptA Γ transcript (encoded A) = (y, z)) :
    computeAHat V generators transcript (encoded A) = some (computed Γ padded rows witness y z alpha) := by
  rw [computeAHat, hyz, decompMulCofactor_encoded]
  refine congrArg some ?_
  rw [computeAHatWith_eq hV hpos hrows hG hH, relation_eq hrows hpadded y z hA, computed]

/-- The generators are as many as the rows. -/
theorem reduce_eq {n k : ℕ} (hn : paddedPowOf2 n = 2 ^ k) (hk : 2 ^ k ≤ MAX_MN) :
    reduce (GENERATORS Γ) n = .ok { G := tabulate (2 ^ k) fun i => (boldG Γ dst i : Γ.Point),
                                    H := tabulate (2 ^ k) fun i => (boldH Γ dst i : Γ.Point) } := by
  rw [reduce, GENERATORS_eq, hn]
  simp only [length_bulletproofsGenerators_G]
  rw [if_pos hk, take_boldG dst hk, take_boldH dst hk]

theorem WipWitness_new_two_pow (k : ℕ) (a b : ℕ → Scalar) (alpha : Scalar) :
    WipWitness.new (tabulate (2 ^ k) a) (tabulate (2 ^ k) b) alpha =
      some { a := tabulate (2 ^ k) a, b := tabulate (2 ^ k) b, alpha } := by
  have hne : ¬(tabulate (2 ^ k) a = [] ∨ (tabulate (2 ^ k) a).length ≠ (tabulate (2 ^ k) b).length) := by
    have hpos := Nat.two_pow_pos k
    rw [not_or, length_tabulate, length_tabulate, not_not]
    refine ⟨fun hnil => ?_, rfl⟩
    have hlen := congrArg List.length hnil
    rw [length_tabulate, List.length_nil] at hlen
    omega
  rw [WipWitness.new, if_neg hne]
  simp only [length_tabulate, paddedPowOf2_two_pow, Nat.sub_self, List.replicate_zero, List.append_nil]

/-- The end of proving, where the argument is proved. -/
theorem proveWip_eq {k m : ℕ} (rng : Rng) (generators : Generators Γ) {witness : List Commitment} (hle : witness.length ≤ m)
    (A : CompressedPoint) (aL aR d : ℕ → Scalar) (alpha : Scalar) {computed : AHatComputation Γ} {zPow : ℕ → Scalar}
    (hd : computed.dDescendingYPlusZ = tabulate (2 ^ k) d) (hzPow : computed.zPow = tabulate (m + 1) zPow) {proof : WipProof}
    {rng' : Rng}
    (hprove : WipStatement.prove rng (WipStatement.new generators computed.AHat computed.y) computed.z
      { a := tabulate (2 ^ k) fun i => aL i - computed.z, b := tabulate (2 ^ k) fun i => aR i + d i
        alpha := alpha + ∑ j ∈ Finset.range witness.length, zPow j * (commitmentAt witness j).mask * computed.yMnPlusOne } =
          .ok (some (proof, rng'))) :
    proveWip rng generators witness A (tabulate (2 ^ k) aL) (tabulate (2 ^ k) aR) alpha computed =
      .ok ({ A, wip := proof }, rng') := by
  have halpha : witness.zipIdx.foldl
      (fun alpha commitment => alpha + computed.zPow.getD commitment.2 0 * commitment.1.mask * computed.yMnPlusOne) alpha =
        alpha + ∑ j ∈ Finset.range witness.length, zPow j * (commitmentAt witness j).mask * computed.yMnPlusOne := by
    conv_lhs => rw [witness_eq witness]
    rw [zipIdx_tabulate, foldl_add_tabulate, hzPow]
    refine congrArg (alpha + ·) (Finset.sum_congr rfl fun j hj => ?_)
    rw [getD_tabulate _ (by have := Finset.mem_range.1 hj; omega)]
  unfold proveWip
  rw [hd, ScalarVector.subScalar_tabulate, ScalarVector.add_tabulate, halpha]
  simp only [WipWitness_new_two_pow, hprove]
  rfl

/-- The challenges of a proof that are inverted are not zero. -/
def Invertible (Γ : Ctx) (commitments : List Γ.Point) (proof : AggregateRangeProof) : Prop :=
  let (y, z) := transcriptA Γ (initialTranscript Γ (commitments.map fun V => Scalar.INV_EIGHT • V)) proof.A
  y ≠ 0 ∧ ∀ e ∈ (WipStatement.challenges Γ z (proof.wip.L.zip proof.wip.R)).1, e ≠ 0

/-- What is proved verifies, in any batch and with any weight: it adds the identity to the value of the batch. -/
theorem verify_prove (witness : AggregateRangeWitness) (rng : Rng) {statement : AggregateRangeStatement Γ}
    (hstatement : statement.V = witness.commitments.map (Commitment.commit Γ)) :
    ∃ (proof : AggregateRangeProof) (rng' : Rng), prove rng statement witness = .ok (some (proof, rng')) ∧
      (proof.wip.L.length = Bulletproof.padLoop witness.commitments.length 0 + 6 ∧
        proof.wip.R.length = Bulletproof.padLoop witness.commitments.length 0 + 6) ∧
      (Invertible Γ statement.V proof → ∀ (rng : Rng) (verifier : InternalBatchVerifier Γ), verifier.Sane →
        ∃ next rng', verify rng statement verifier proof = some (next, rng') ∧
          ∃ rows, Reaches (pointH Γ) (pointG Γ) dst verifier rows next 0) := by
  set commitments := witness.commitments with hcommitments
  have hpos : 0 < commitments.length := List.length_pos_of_ne_nil witness.ne_nil
  set padded := paddedPowOf2 commitments.length with hpadded
  set k := Bulletproof.padLoop commitments.length 0 + 6 with hk
  have hrows : padded * COMMITMENT_BITS = 2 ^ k := padded_rows commitments.length
  have hkle : 2 ^ k ≤ MAX_MN := padded_rows_le witness.length_le
  have hpaddedPos : 0 < padded := Nat.two_pow_pos _
  set generators : Generators Γ := { G := tabulate (2 ^ k) fun i => (boldG Γ dst i : Γ.Point)
                                     H := tabulate (2 ^ k) fun i => (boldH Γ dst i : Γ.Point) } with hgenerators
  set transcript := initialTranscript Γ (statement.V.map fun V => Scalar.INV_EIGHT • V) with htranscript
  set alpha := (Scalar.random rng).1 with halpha
  set A := combine (2 ^ k) (rowBit commitments) (boldG Γ dst) + combine (2 ^ k) (fun i => rowBit commitments i - 1) (boldH Γ dst) +
    alpha • pointG Γ with hA
  rcases hyz : transcriptA Γ transcript (encoded A) with ⟨y, z⟩
  have hG : generators.G = tabulate (2 ^ k) fun i => (boldG Γ dst i : Γ.Point) := rfl
  have hH : generators.H = tabulate (2 ^ k) fun i => (boldH Γ dst i : Γ.Point) := rfl
  have hlen := le_paddedPowOf2 commitments.length
  -- The prover pads the commitments before `compute_A_hat`, which has nothing to pad then.
  have hprover := computeAHat_eq hrows.symm hpaddedPos hlen (padV_padded commitments.length _) hG hH hA hyz
  have hverifier := computeAHat_eq hrows.symm hpaddedPos hlen (padV_tabulate commitments) hG hH hA hyz
  obtain ⟨wip, rng', hwip, hlengths, hverify⟩ := WipStatement.verify_prove hkle (Scalar.random rng).2 z
    (fun i => rowBit commitments i - z)
    (fun i => rowBit commitments i - 1 + (dDescending (2 ^ k) y z i + z))
    (alpha + ∑ j ∈ Finset.range commitments.length, (z * z) ^ (j + 1) * (commitmentAt commitments j).mask * y ^ (2 ^ k + 1)) y hG hH
    (P := statedPoint Γ (2 ^ k) commitments y z alpha) rfl
  refine ⟨{ A := encoded A, wip }, rng', ?_, hlengths, ?_⟩
  · have hlength : ¬statement.V.length ≠ witness.commitments.length := by
      rw [hstatement, List.length_map]
      exact not_not.2 rfl
    have hany : ¬((statement.V.zip witness.commitments).any fun pair => pair.2.commit Γ ≠ pair.1) = true := by
      rw [hstatement, ← hcommitments, any_commit_ne]
      exact Bool.false_ne_true
    have hencoded : Γ.compress (Scalar.INV_EIGHT • multiexp ((tabulate (2 ^ k) (rowBit commitments)).zip generators.G ++
        (tabulate (2 ^ k) fun i => rowBit commitments i - 1).zip generators.H ++ [(alpha, Γ.G)])) = encoded A := by
      have hone : multiexp [(alpha, Γ.G)] = ((alpha • pointG Γ : Γ.primeSubgroup) : Γ.Point) := add_zero _
      rw [hG, hH, zip_tabulate, zip_tabulate, multiexp_append, multiexp_append, multiexp_tabulate, multiexp_tabulate, hone,
        encoded, hA, AddSubgroup.coe_add, AddSubgroup.coe_add]
    have hreduce : reduce (GENERATORS Γ) (2 ^ k) = .ok generators := reduce_eq (paddedPowOf2_two_pow k) hkle
    unfold prove
    rw [if_neg hlength, if_neg hany]
    simp only [← htranscript]
    simp only [hstatement, map_clearCofactor, padV_tabulate, length_tabulate, ← hpadded, hreduce, bind, Except.bind, amountBits_eq,
      ← hcommitments, hrows, ScalarVector.subScalar_tabulate, ← halpha, hencoded]
    rw [← hpadded] at hprover
    rw [hprover]
    have hend : proveWip (Scalar.random rng).2 generators commitments (encoded A) (tabulate (2 ^ k) (rowBit commitments))
        (tabulate (2 ^ k) fun i => rowBit commitments i - 1) alpha (computed Γ padded (2 ^ k) commitments y z alpha) =
          .ok ({ A := encoded A, wip }, rng') := proveWip_eq _ generators hlen _ _ _ _ alpha rfl rfl hwip
    exact congrArg (Except.map some) hend
  · intro hinvertible rng verifier hsane
    rw [Invertible, ← htranscript, hyz] at hinvertible
    obtain ⟨hy, hne⟩ := hinvertible
    obtain ⟨next, rng', hnext, hreach⟩ := hverify hy hne rng verifier hsane
    refine ⟨next, rng', ?_, 2 ^ k, hreach⟩
    have hreduce : reduce (GENERATORS Γ) (commitments.length * COMMITMENT_BITS) = .ok generators :=
      reduce_eq (paddedPowOf2_mul_bits hpos) hkle
    unfold verify
    simp only [← htranscript]
    simp only [hstatement, map_clearCofactor, length_tabulate, hreduce, hverifier]
    exact hnext

end AggregateRangeStatement

end Plus

end MoneroOxide
