import Mathlib.Data.UInt
import MoneroOxide.Lemmas.BulletproofsOriginal
import MoneroOxide.Lemmas.BulletproofsPlus
import MoneroOxide.Lemmas.Instance
import MoneroOxide.RangeProof

/-!
# Range proofs are complete

A proof of either kind, made for openings of any amounts, verifies for the commitments of these openings: alone, and in any batch
that would verify without it. What is assumed is that the challenges that are inverted are not zero.
-/

namespace MoneroOxide

open InternalBatchVerifier

namespace InternalBatchVerifier

variable {Γ : Ctx} {g h : Γ.primeSubgroup} {dst : List UInt8} {verifier next : InternalBatchVerifier Γ}

theorem sane_default : (default : InternalBatchVerifier Γ).Sane where
  length_eq := rfl
  length_le := Nat.zero_le _

theorem verify_iff : verifier.verify (g : Γ.Point) h (bulletproofsGenerators Γ dst) = true ↔ verifier.value g h dst = 0 := by
  rw [verify, decide_eq_true_iff]
  rfl

theorem verify_default : (default : InternalBatchVerifier Γ).verify (g : Γ.Point) h (bulletproofsGenerators Γ dst) = true := by
  rw [verify_iff, value_eq g h dst sane_default]
  simp [default, weighted, InnerProduct.combine]

/-- A batch to which the identity is added verifies if it did before. -/
theorem verify_of_reaches {rows : ℕ} (hr : Reaches g h dst verifier rows next 0)
    (hverify : verifier.verify (g : Γ.Point) h (bulletproofsGenerators Γ dst) = true) :
    next.verify (g : Γ.Point) h (bulletproofsGenerators Γ dst) = true := by
  rw [verify_iff] at hverify ⊢
  rw [hr.value_eq, hverify, AddSubgroup.coe_zero, add_zero]

end InternalBatchVerifier

/-- A batch that verifies, whose coefficients are at most those of the generators. -/
structure BatchVerifier.Accepting {Γ : Ctx} (verifier : BatchVerifier Γ) : Prop where
  original : verifier.original.Sane
  plus : verifier.plus.Sane
  verify : verifier.verify = true

namespace BatchVerifier

variable {Γ : Ctx} {verifier : BatchVerifier Γ}

theorem accepting_new (Γ : Ctx) : (new Γ).Accepting where
  original := sane_default
  plus := sane_default
  verify := Bool.and_eq_true_iff.2
    ⟨verify_default (g := pointG Γ) (h := pointH Γ), verify_default (g := pointH Γ) (h := pointG Γ)⟩

theorem Accepting.with_original (haccepting : verifier.Accepting) {next : InternalBatchVerifier Γ} {rows : ℕ}
    (hr : Reaches (pointG Γ) (pointH Γ) Original.dst verifier.original rows next 0) :
    Accepting { verifier with original := next } where
  original := hr.sane
  plus := haccepting.plus
  verify := by
    obtain ⟨horiginal, hplus⟩ := Bool.and_eq_true_iff.1 haccepting.verify
    exact Bool.and_eq_true_iff.2 ⟨verify_of_reaches hr horiginal, hplus⟩

theorem Accepting.with_plus (haccepting : verifier.Accepting) {next : InternalBatchVerifier Γ} {rows : ℕ}
    (hr : Reaches (pointH Γ) (pointG Γ) Plus.dst verifier.plus rows next 0) : Accepting { verifier with plus := next } where
  original := haccepting.original
  plus := hr.sane
  verify := by
    obtain ⟨horiginal, hplus⟩ := Bool.and_eq_true_iff.1 haccepting.verify
    exact Bool.and_eq_true_iff.2 ⟨horiginal, verify_of_reaches hr hplus⟩

end BatchVerifier

namespace Bulletproof

variable {Γ : Ctx}

/-- The commitments as they are in a transaction. -/
def compressedCommitments (Γ : Ctx) (outputs : List Commitment) : List CompressedPoint :=
  outputs.map fun output => Γ.compress (output.commit Γ)

theorem mapM_compressedCommitments (outputs : List Commitment) :
    (compressedCommitments Γ outputs).mapM (CompressedPoint.decompress Γ) = some (outputs.map (Commitment.commit Γ)) := by
  induction outputs with
  | nil => rfl
  | cons output outputs ih =>
    have hcons : compressedCommitments Γ (output :: outputs) =
        Γ.compress (output.commit Γ) :: compressedCommitments Γ outputs := rfl
    rw [hcons, List.mapM_cons, CompressedPoint.decompress_compress, ih]
    rfl

theorem checkAmount_eq {outputs : List Commitment} (hne : outputs ≠ []) (hle : outputs.length ≤ MAX_COMMITMENTS) :
    checkAmount outputs = .ok () := by
  rw [checkAmount, if_neg (by simpa using hne), if_neg (by omega)]

/-- A proof verifies: alone, as the only one of a batch, and in any batch that verifies without it. -/
structure Verifies (Γ : Ctx) (rng : Rng) (bulletproof : Bulletproof) (commitments : List CompressedPoint) : Prop where
  alone : verify Γ rng bulletproof commitments = true
  only : ∃ next rng', batchVerify rng (BatchVerifier.new Γ) bulletproof commitments = some (next, rng') ∧ next.verify = true
  batch : ∀ verifier : BatchVerifier Γ, verifier.Accepting →
    ∃ next rng', batchVerify rng verifier bulletproof commitments = some (next, rng') ∧ next.Accepting

theorem Verifies.of_batch {rng : Rng} {bulletproof : Bulletproof} {commitments : List CompressedPoint}
    (halone : verify Γ rng bulletproof commitments = true)
    (hbatch : ∀ verifier : BatchVerifier Γ, verifier.Accepting →
      ∃ next rng', batchVerify rng verifier bulletproof commitments = some (next, rng') ∧ next.Accepting) :
    Verifies Γ rng bulletproof commitments where
  alone := halone
  only := by
    obtain ⟨next, rng', hnext, haccepting⟩ := hbatch _ (BatchVerifier.accepting_new Γ)
    exact ⟨next, rng', hnext, haccepting.verify⟩
  batch := hbatch

/-- A Bulletproof is made, with lists of the length for this many rows, and its statement is verified. -/
theorem prove_spec {outputs : List Commitment} (hne : outputs ≠ []) (hle : outputs.length ≤ MAX_COMMITMENTS) (rng : Rng) :
    ∃ (proof : Original.AggregateRangeProof) (rng' : Rng) (statement : Original.AggregateRangeStatement Γ),
      prove Γ rng outputs = .ok (.original proof, rng') ∧
      (proof.ip.L.length = padLoop outputs.length 0 + 6 ∧ proof.ip.R.length = padLoop outputs.length 0 + 6) ∧
      Original.AggregateRangeStatement.new Γ (outputs.map (Commitment.commit Γ)) = some statement ∧
      (Original.AggregateRangeStatement.Invertible Γ (outputs.map (Commitment.commit Γ)) proof →
        ∀ (rng : Rng) (verifier : InternalBatchVerifier Γ), verifier.Sane →
          ∃ next rng', Original.AggregateRangeStatement.verify rng statement verifier proof = some (next, rng') ∧
            ∃ rows, Reaches (pointG Γ) (pointH Γ) Original.dst verifier rows next 0) := by
  have hstatement : outputs.map (Commitment.commit Γ) ≠ [] ∧ (outputs.map (Commitment.commit Γ)).length ≤ MAX_COMMITMENTS := by
    rw [List.length_map]
    exact ⟨by simpa using hne, hle⟩
  set statement : Original.AggregateRangeStatement Γ :=
    { commitments := outputs.map (Commitment.commit Γ), ne_nil := hstatement.1, length_le := hstatement.2 }
  have hnew : Original.AggregateRangeStatement.new Γ (outputs.map (Commitment.commit Γ)) = some statement := dif_pos hstatement
  have hwitness : Original.AggregateRangeWitness.new outputs = some { commitments := outputs, ne_nil := hne, length_le := hle } :=
    dif_pos ⟨hne, hle⟩
  obtain ⟨proof, rng', hprove, hlengths, hverify⟩ :=
    Original.AggregateRangeStatement.verify_proveRange outputs hle rng (rfl : statement.commitments = _)
  refine ⟨proof, rng', statement, ?_, hlengths, hnew, hverify⟩
  have hproved : Original.AggregateRangeStatement.prove rng statement { commitments := outputs, ne_nil := hne, length_le := hle } =
      .ok (some (proof, rng')) := by
    rw [Original.AggregateRangeStatement.prove, if_neg (not_not.2 rfl)]
    exact congrArg (Except.map some) hprove
  simp only [prove, checkAmount_eq hne hle, hnew, hwitness, expect, hproved, bind, Except.bind]
  rfl

/-- A Bulletproof+ is made, with lists of the length for this many rows, and its statement is verified. -/
theorem provePlus_spec {outputs : List Commitment} (hne : outputs ≠ []) (hle : outputs.length ≤ MAX_COMMITMENTS) (rng : Rng) :
    ∃ (proof : Plus.AggregateRangeProof) (rng' : Rng) (statement : Plus.AggregateRangeStatement Γ),
      provePlus Γ rng outputs = .ok (.plus proof, rng') ∧
      (proof.wip.L.length = padLoop outputs.length 0 + 6 ∧ proof.wip.R.length = padLoop outputs.length 0 + 6) ∧
      Plus.AggregateRangeStatement.new (outputs.map (Commitment.commit Γ)) = some statement ∧
      (Plus.AggregateRangeStatement.Invertible Γ (outputs.map (Commitment.commit Γ)) proof →
        ∀ (rng : Rng) (verifier : InternalBatchVerifier Γ), verifier.Sane →
          ∃ next rng', Plus.AggregateRangeStatement.verify rng statement verifier proof = some (next, rng') ∧
            ∃ rows, Reaches (pointH Γ) (pointG Γ) Plus.dst verifier rows next 0) := by
  have hstatement : outputs.map (Commitment.commit Γ) ≠ [] ∧ (outputs.map (Commitment.commit Γ)).length ≤ MAX_COMMITMENTS := by
    rw [List.length_map]
    exact ⟨by simpa using hne, hle⟩
  set statement : Plus.AggregateRangeStatement Γ :=
    { V := outputs.map (Commitment.commit Γ), ne_nil := hstatement.1, length_le := hstatement.2 }
  have hnew : Plus.AggregateRangeStatement.new (outputs.map (Commitment.commit Γ)) = some statement :=
    dif_neg (not_or.2 ⟨hstatement.1, not_lt.2 hstatement.2⟩)
  have hwitness : Plus.AggregateRangeWitness.new outputs = some { commitments := outputs, ne_nil := hne, length_le := hle } :=
    dif_neg (not_or.2 ⟨hne, not_lt.2 hle⟩)
  obtain ⟨proof, rng', hproved, hlengths, hverify⟩ := Plus.AggregateRangeStatement.verify_prove
    { commitments := outputs, ne_nil := hne, length_le := hle } rng (rfl : statement.V = _)
  refine ⟨proof, rng', statement, ?_, hlengths, hnew, hverify⟩
  simp only [provePlus, checkAmount_eq hne hle, hnew, hwitness, expect, hproved, bind, Except.bind]
  rfl

/-- Bulletproofs are complete. -/
theorem bulletproof_complete (outputs : List Commitment) (hne : outputs ≠ []) (hle : outputs.length ≤ MAX_COMMITMENTS) (rng : Rng) :
    ∃ (proof : Original.AggregateRangeProof) (rng' : Rng), prove Γ rng outputs = .ok (.original proof, rng') ∧
      (Original.AggregateRangeStatement.Invertible Γ (outputs.map (Commitment.commit Γ)) proof →
        ∀ rng : Rng, Verifies Γ rng (.original proof) (compressedCommitments Γ outputs)) := by
  obtain ⟨proof, rng', statement, hprove, -, hnew, hverify⟩ := prove_spec (Γ := Γ) hne hle rng
  refine ⟨proof, rng', hprove, ?_⟩
  intro hinvertible rng
  refine Verifies.of_batch ?_ fun verifier haccepting => ?_
  · obtain ⟨next, rng', hnext, rows, hreach⟩ := hverify hinvertible rng .default sane_default
    simp only [verify, mapM_compressedCommitments, hnew, hnext]
    exact verify_of_reaches hreach verify_default
  · obtain ⟨next, rng', hnext, rows, hreach⟩ := hverify hinvertible rng verifier.original haccepting.original
    refine ⟨{ verifier with original := next }, rng', ?_, haccepting.with_original hreach⟩
    simp only [batchVerify, mapM_compressedCommitments, hnew, hnext, bind, Option.bind]
    rfl

/-- Bulletproofs+ are complete. -/
theorem bulletproofPlus_complete (outputs : List Commitment) (hne : outputs ≠ []) (hle : outputs.length ≤ MAX_COMMITMENTS)
    (rng : Rng) :
    ∃ (proof : Plus.AggregateRangeProof) (rng' : Rng), provePlus Γ rng outputs = .ok (.plus proof, rng') ∧
      (Plus.AggregateRangeStatement.Invertible Γ (outputs.map (Commitment.commit Γ)) proof →
        ∀ rng : Rng, Verifies Γ rng (.plus proof) (compressedCommitments Γ outputs)) := by
  obtain ⟨proof, rng', statement, hprove, -, hnew, hverify⟩ := provePlus_spec (Γ := Γ) hne hle rng
  refine ⟨proof, rng', hprove, ?_⟩
  intro hinvertible rng
  refine Verifies.of_batch ?_ fun verifier haccepting => ?_
  · obtain ⟨next, rng', hnext, rows, hreach⟩ := hverify hinvertible rng .default sane_default
    simp only [verify, mapM_compressedCommitments, hnew, hnext]
    exact verify_of_reaches hreach verify_default
  · obtain ⟨next, rng', hnext, rows, hreach⟩ := hverify hinvertible rng verifier.plus haccepting.plus
    refine ⟨{ verifier with plus := next }, rng', ?_, haccepting.with_plus hreach⟩
    simp only [batchVerify, mapM_compressedCommitments, hnew, hnext, bind, Option.bind]
    rfl

/-! ## A context where no challenge is zero -/

theorem originalChallenges_instanceCtx (transcript : Scalar) (rounds : List (CompressedPoint × CompressedPoint)) :
    ∀ x ∈ Original.IpStatement.challenges instanceCtx transcript rounds, x ≠ 0 := by
  induction rounds generalizing transcript with
  | nil => simp [Original.IpStatement.challenges]
  | cons round rounds ih =>
    intro x hx
    rcases List.mem_cons.1 hx with rfl | hx
    · exact (hash_instanceCtx _).trans_ne one_ne_zero
    · exact ih _ x hx

theorem plusChallenges_instanceCtx (transcript : Scalar) (rounds : List (CompressedPoint × CompressedPoint)) :
    ∀ e ∈ (Plus.WipStatement.challenges instanceCtx transcript rounds).1, e ≠ 0 := by
  induction rounds generalizing transcript with
  | nil => simp [Plus.WipStatement.challenges]
  | cons round rounds ih =>
    intro e he
    rcases List.mem_cons.1 he with rfl | he
    · exact (hash_instanceCtx _).trans_ne one_ne_zero
    · exact ih _ e he

theorem original_invertible (commitments : List instanceCtx.Point) (proof : Original.AggregateRangeProof) :
    Original.AggregateRangeStatement.Invertible instanceCtx commitments proof :=
  ⟨(hash_instanceCtx _).trans_ne one_ne_zero, originalChallenges_instanceCtx _ _⟩

theorem plus_invertible (commitments : List instanceCtx.Point) (proof : Plus.AggregateRangeProof) :
    Plus.AggregateRangeStatement.Invertible instanceCtx commitments proof :=
  ⟨(hash_instanceCtx _).trans_ne one_ne_zero, plusChallenges_instanceCtx _ _⟩

/-- Three outputs, whose rows are padded to those of four. -/
def instanceOutputs : List Commitment := [{ mask := 3, amount := 5 }, { mask := 7, amount := 0 },
    { mask := 0, amount := 2 ^ 64 - 1 }]

theorem bulletproof_complete_instanceOutputs :
    ∃ proof rng', prove instanceCtx (Stream'.const (Bytes.replicate 64 0)) instanceOutputs = .ok (.original proof, rng') ∧
      ∀ rng, Verifies instanceCtx rng (.original proof) (compressedCommitments instanceCtx instanceOutputs) := by
  obtain ⟨proof, rng', hprove, hverifies⟩ := bulletproof_complete instanceOutputs (by simp [instanceOutputs]) (by decide)
    (Stream'.const (Bytes.replicate 64 0))
  exact ⟨proof, rng', hprove, hverifies (original_invertible _ _)⟩

theorem bulletproofPlus_complete_instanceOutputs :
    ∃ proof rng', provePlus instanceCtx (Stream'.const (Bytes.replicate 64 0)) instanceOutputs = .ok (.plus proof, rng') ∧
      ∀ rng, Verifies instanceCtx rng (.plus proof) (compressedCommitments instanceCtx instanceOutputs) := by
  obtain ⟨proof, rng', hprove, hverifies⟩ := bulletproofPlus_complete instanceOutputs (by simp [instanceOutputs]) (by decide)
    (Stream'.const (Bytes.replicate 64 0))
  exact ⟨proof, rng', hprove, hverifies (plus_invertible _ _)⟩

end Bulletproof

end MoneroOxide
