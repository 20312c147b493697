import MoneroOxide.Lemmas.BulletproofsOriginal
import MoneroOxide.Lemmas.BulletproofsPlus
import MoneroOxide.RangeProof

/-!
# What a proof adds to a batch

Two batches are followed through the same verification. Their values stay apart by the same point, whatever was accumulated before
and whatever their lists of coefficients were grown to (`Offset`), and whether the verification succeeds does not depend on the
batch. So what a proof adds to the value of a batch is what it adds to that of an empty one.
-/

namespace MoneroOxide

open InternalBatchVerifier Bulletproof

namespace InternalBatchVerifier

section

variable {Γ : Ctx} (g h : Γ.primeSubgroup) (dst : List UInt8)

/-- Two verifiers with coefficients for at least `rows` generators, the value of one being that of the other and a point. -/
structure Offset (rows : ℕ) (D : Γ.Point) (verifier other : InternalBatchVerifier Γ) : Prop where
  sane : verifier.Sane
  sane_other : other.Sane
  rows_le : rows ≤ verifier.gBold.length
  rows_le_other : rows ≤ other.gBold.length
  value_eq : verifier.value g h dst = other.value g h dst + D

namespace Offset

variable {g h dst} {rows : ℕ} {D : Γ.Point} {verifier other : InternalBatchVerifier Γ}

/-- The verifier itself is reached from it. -/
theorem reaches_self (hsane : verifier.Sane) (hrows : rows ≤ verifier.gBold.length) : Reaches g h dst verifier rows verifier 0 where
  sane := hsane
  rows_le := hrows
  value_eq := by rw [AddSubgroup.coe_zero, add_zero]

/-- What adds the same point to both keeps them apart. -/
theorem of_reaches (ho : Offset g h dst rows D verifier other) {rows' : ℕ} {verifier' other' : InternalBatchVerifier Γ}
    {P : Γ.primeSubgroup} (hverifier : Reaches g h dst verifier rows' verifier' P) (hother : Reaches g h dst other rows' other' P) :
    Offset g h dst rows' D verifier' other' where
  sane := hverifier.sane
  sane_other := hother.sane
  rows_le := hverifier.rows_le
  rows_le_other := hother.rows_le
  value_eq := by
    rw [hverifier.value_eq, hother.value_eq, ho.value_eq]
    abel

theorem addG (ho : Offset g h dst rows D verifier other) (s : Scalar) :
    Offset g h dst rows D (verifier.addG s) (other.addG s) :=
  ho.of_reaches ((reaches_self ho.sane ho.rows_le).addG s) ((reaches_self ho.sane_other ho.rows_le_other).addG s)

theorem addH (ho : Offset g h dst rows D verifier other) (s : Scalar) :
    Offset g h dst rows D (verifier.addH s) (other.addH s) :=
  ho.of_reaches ((reaches_self ho.sane ho.rows_le).addH s) ((reaches_self ho.sane_other ho.rows_le_other).addH s)

theorem addGBold (ho : Offset g h dst rows D verifier other) (f : ℕ → Scalar) :
    Offset g h dst rows D (verifier.addGBold rows f) (other.addGBold rows f) :=
  ho.of_reaches ((reaches_self ho.sane ho.rows_le).addGBold f) ((reaches_self ho.sane_other ho.rows_le_other).addGBold f)

theorem addHBold (ho : Offset g h dst rows D verifier other) (f : ℕ → Scalar) :
    Offset g h dst rows D (verifier.addHBold rows f) (other.addHBold rows f) :=
  ho.of_reaches ((reaches_self ho.sane ho.rows_le).addHBold f) ((reaches_self ho.sane_other ho.rows_le_other).addHBold f)

theorem value_push (hsane : verifier.Sane) (terms : List (Scalar × Γ.Point)) :
    (verifier.push terms).value g h dst = verifier.value g h dst + multiexp terms := by
  have hsane' : (verifier.push terms).Sane := { hsane with }
  rw [InternalBatchVerifier.value_eq g h dst hsane', InternalBatchVerifier.value_eq g h dst hsane]
  simp only [InternalBatchVerifier.push, multiexp_append]
  abel

/-- The points pushed may be any. -/
theorem push (ho : Offset g h dst rows D verifier other) (terms : List (Scalar × Γ.Point)) :
    Offset g h dst rows D (verifier.push terms) (other.push terms) where
  sane := { ho.sane with }
  sane_other := { ho.sane_other with }
  rows_le := ho.rows_le
  rows_le_other := ho.rows_le_other
  value_eq := by
    rw [value_push ho.sane, value_push ho.sane_other, ho.value_eq]
    abel

/-- Each is grown by as many coefficients as it lacks. -/
theorem pad (ho : Offset g h dst rows D verifier other) {rows' : ℕ} (hrows : rows' ≤ MAX_MN) :
    Offset g h dst rows' D
      { verifier with
        gBold := verifier.gBold ++ List.replicate (rows' - verifier.gBold.length) 0
        hBold := verifier.hBold ++ List.replicate (rows' - verifier.hBold.length) 0 }
      { other with
        gBold := other.gBold ++ List.replicate (rows' - other.gBold.length) 0
        hBold := other.hBold ++ List.replicate (rows' - other.hBold.length) 0 } :=
  ho.of_reaches ((reaches_self ho.sane ho.rows_le).pad hrows) ((reaches_self ho.sane_other ho.rows_le_other).pad hrows)

theorem foldl_addH (ho : Offset g h dst rows D verifier other) (f : ℕ → Scalar) (is : List ℕ) :
    Offset g h dst rows D (is.foldl (fun verifier i => verifier.addH (f i)) verifier)
      (is.foldl (fun verifier i => verifier.addH (f i)) other) := by
  induction is generalizing verifier other with
  | nil => exact ho
  | cons i is ih => exact ih (ho.addH (f i))

end Offset

end

end InternalBatchVerifier

/-! ## Bulletproofs -/

namespace Original

variable {Γ : Ctx} {rows : ℕ} {D : Γ.Point} {verifier other : InternalBatchVerifier Γ}

theorem offset_pad (ho : Offset (pointG Γ) (pointH Γ) dst rows D verifier other) {rows' : ℕ} (hrows : rows' ≤ MAX_MN) :
    Offset (pointG Γ) (pointH Γ) dst rows' D (AggregateRangeStatement.pad rows' verifier)
    (AggregateRangeStatement.pad rows' other) := by
  have hpad := ho.pad hrows
  rw [ho.sane.length_eq, ho.sane_other.length_eq] at hpad
  exact hpad

theorem offset_accumulateT (ho : Offset (pointG Γ) (pointH Γ) dst rows D verifier other) (padded : ℕ) (commitments : List Γ.Point)
    (T1 T2 : Γ.Point) (proof : AggregateRangeProof) (weight y z x : Scalar) :
    Offset (pointG Γ) (pointH Γ) dst rows D
      (AggregateRangeStatement.accumulateT padded commitments T1 T2 proof weight y z x verifier)
      (AggregateRangeStatement.accumulateT padded commitments T1 T2 proof weight y z x other) := by
  unfold AggregateRangeStatement.accumulateT
  exact (((((ho.addH _).addG _).addH _).push _).foldl_addH _ _).push _

theorem offset_accumulateIp {padded : ℕ} (ho : Offset (pointG Γ) (pointH Γ) dst (padded * COMMITMENT_BITS) D verifier other)
    (A S : Γ.Point) (proof : AggregateRangeProof) (ipWeight y z x xIp : Scalar) :
    Offset (pointG Γ) (pointH Γ) dst (padded * COMMITMENT_BITS) D
      (AggregateRangeStatement.accumulateIp padded A S proof ipWeight y z x xIp verifier)
      (AggregateRangeStatement.accumulateIp padded A S proof ipWeight y z x xIp other) := by
  unfold AggregateRangeStatement.accumulateIp
  exact (((((ho.push _).addHBold _).addGBold _).addHBold _).addH _).addG _

/-- The inner-product argument, for two batches. -/
theorem offset_verifyIp {rows : ℕ} (hrows : rows ≤ MAX_MN) (ho : Offset (pointG Γ) (pointH Γ) dst rows D verifier other)
    (statement : IpStatement) (transcript weight : Scalar) (proof : IpProof) {next : InternalBatchVerifier Γ}
    (hverify : statement.verify verifier rows transcript weight proof = .ok next) :
    ∃ next', statement.verify other rows transcript weight proof = .ok next' ∧
      Offset (pointG Γ) (pointH Γ) dst rows D next next' := by
  have hG : ((GENERATORS Γ).G.take rows).length = rows := by
    rw [GENERATORS_eq, take_boldG dst hrows, Tabulate.length_tabulate]
  have hH : ((GENERATORS Γ).H.take rows).length = rows := by
    rw [GENERATORS_eq, take_boldH dst hrows, Tabulate.length_tabulate]
  unfold IpStatement.verify at hverify ⊢
  simp only [hG, hH] at hverify ⊢
  split at hverify
  · cases hverify
  · rename_i hL
    rw [if_neg hL]
    split at hverify
    · cases hverify
    · rename_i hR
      rw [if_neg hR]
      split at hverify
      · cases hverify
      · cases hverify
        exact ⟨_, rfl, (((ho.push _).addGBold _).addHBold _).addH _⟩

/-- A proof, for two batches. -/
theorem offset_verify (ho : Offset (pointG Γ) (pointH Γ) dst rows D verifier other) (rng : Rng)
    (statement : AggregateRangeStatement Γ)
    (proof : AggregateRangeProof) {next : InternalBatchVerifier Γ} {rng' : Rng}
    (hverify : AggregateRangeStatement.verify rng statement verifier proof = some (next, rng')) :
    ∃ next', AggregateRangeStatement.verify rng statement other proof = some (next', rng') ∧
      Offset (pointG Γ) (pointH Γ) dst 0 D next next' := by
  have hrows : paddedPowOf2 statement.commitments.length * COMMITMENT_BITS ≤ MAX_MN := by
    rw [padded_rows]
    exact padded_rows_le statement.length_le
  have hpad := offset_pad ho hrows
  unfold AggregateRangeStatement.verify at hverify ⊢
  dsimp only at hverify ⊢
  split at hverify
  · split at hverify
    · rename_i hip
      -- both batches are padded, then accumulated into, and then passed to the inner-product argument
      obtain ⟨next', hnext', ho'⟩ := offset_verifyIp hrows
        (offset_accumulateIp (offset_accumulateT hpad _ _ _ _ proof _ _ _ _) _ _ proof _ _ _ _ _) _ _ _ _ hip
      cases hverify
      rw [hnext']
      exact ⟨next', rfl, { ho' with rows_le := Nat.zero_le _, rows_le_other := Nat.zero_le _ }⟩
    · cases hverify
  · cases hverify

end Original

/-! ## Bulletproofs+ -/

namespace Plus

variable {Γ : Ctx} {rows : ℕ} {D : Γ.Point} {verifier other : InternalBatchVerifier Γ}

theorem offset_accumulate (ho : Offset (pointH Γ) (pointG Γ) dst rows D verifier other) (statement : WipStatement Γ)
    (hrows : statement.generators.G.length ≤ MAX_MN) (es : List Scalar) (e : Scalar) (rounds : List (Γ.Point × Γ.Point))
    (A B : Γ.Point) (proof : WipProof) (weight : Scalar) :
    Offset (pointH Γ) (pointG Γ) dst statement.generators.G.length D
      (WipStatement.accumulate statement es e rounds A B proof weight verifier)
      (WipStatement.accumulate statement es e rounds A B proof weight other) := by
  unfold WipStatement.accumulate
  exact ((((((((ho.push _).push _).pad hrows).addGBold _).addHBold _).push _).addG _).addH _).push _

/-- The weighted inner-product argument, for two batches. -/
theorem offset_verifyWip (ho : Offset (pointH Γ) (pointG Γ) dst rows D verifier other) (rng : Rng) (statement : WipStatement Γ)
    (hrows : statement.generators.G.length ≤ MAX_MN) (transcript : Scalar) (proof : WipProof) {next : InternalBatchVerifier Γ}
    {rng' : Rng} (hverify : WipStatement.verify rng statement verifier transcript proof = some (next, rng')) :
    ∃ next', WipStatement.verify rng statement other transcript proof = some (next', rng') ∧
      Offset (pointH Γ) (pointG Γ) dst 0 D next next' := by
  unfold WipStatement.verify at hverify ⊢
  dsimp only at hverify ⊢
  split at hverify
  · cases hverify
  · rename_i hlengths
    rw [if_neg hlengths]
    simp only [bind, Option.bind_eq_some_iff] at hverify
    obtain ⟨rounds, hrounds, A, hA, B, hB, hnext⟩ := hverify
    cases hnext
    simp only [hrounds, hA, hB, bind, Option.bind_some]
    have hnext := offset_accumulate ho statement hrows
      (WipStatement.challenges Γ transcript (proof.L.zip proof.R)).1
      (WipStatement.transcriptPair Γ (WipStatement.challenges Γ transcript (proof.L.zip proof.R)).2 proof.A proof.B) rounds A B proof
      (Scalar.random rng).1
    exact ⟨_, rfl, { hnext with rows_le := Nat.zero_le _, rows_le_other := Nat.zero_le _ }⟩

theorem length_reduce_le {n : ℕ} {generators : Generators Γ} (hreduce : reduce (GENERATORS Γ) n = .ok generators) :
    generators.G.length ≤ MAX_MN := by
  unfold reduce at hreduce
  dsimp only at hreduce
  split at hreduce
  · cases hreduce
    rw [GENERATORS_eq, ← length_bulletproofsGenerators_G (Γ := Γ) dst]
    exact List.length_take_le' _ _
  · cases hreduce

/-- A proof, for two batches. -/
theorem offset_verify (ho : Offset (pointH Γ) (pointG Γ) dst rows D verifier other) (rng : Rng)
    (statement : AggregateRangeStatement Γ)
    (proof : AggregateRangeProof) {next : InternalBatchVerifier Γ} {rng' : Rng}
    (hverify : AggregateRangeStatement.verify rng statement verifier proof = some (next, rng')) :
    ∃ next', AggregateRangeStatement.verify rng statement other proof = some (next', rng') ∧
      Offset (pointH Γ) (pointG Γ) dst 0 D next next' := by
  unfold AggregateRangeStatement.verify at hverify ⊢
  dsimp only at hverify ⊢
  split at hverify
  · cases hverify
  · rename_i generators hreduce
    simp only [bind, Option.bind_eq_some_iff] at hverify
    obtain ⟨computed, hcomputed, hwip⟩ := hverify
    rw [hcomputed]
    exact offset_verifyWip ho rng _ (length_reduce_le hreduce) _ _ hwip

end Plus

end MoneroOxide
