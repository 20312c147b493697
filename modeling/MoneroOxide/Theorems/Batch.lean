import MoneroOxide.Lemmas.Batch
import MoneroOxide.Lib.Lists
import MoneroOxide.Theorems.RangeProof

/-!
# A batch is the sum of its proofs

Proofs of both kinds and of any sizes are queued in one batch. The point that a kind of them adds up to is the sum of the points that
they add up to alone, with the same weights. So neither their order nor their sizes matter to whether the batch verifies.
-/

namespace MoneroOxide

open InternalBatchVerifier Bulletproof

/-- A proof to queue: with the commitments it is for, and the randomness its weights are drawn from. -/
structure Queued where
  rng : Rng
  bulletproof : Bulletproof
  commitments : List CompressedPoint

namespace Queued

/-- Whether the proof is a Bulletproof. -/
def isOriginal (queued : Queued) : Bool :=
  match queued.bulletproof with
  | .original _ => true
  | .plus _ => false

/-- Whether the proof is a Bulletproof+. -/
def isPlus (queued : Queued) : Bool :=
  match queued.bulletproof with
  | .original _ => false
  | .plus _ => true

end Queued

namespace BatchVerifier

variable {Γ : Ctx}

/-- `Bulletproof::batch_verify` for one proof after the other, until one returns `false`. -/
def queue (verifier : BatchVerifier Γ) : List Queued → Option (BatchVerifier Γ)
  | [] => some verifier
  | queued :: rest => do
    let (verifier, _) ← queued.bulletproof.batchVerify queued.rng verifier queued.commitments
    queue verifier rest

/-- The first of the multi-exponentiations of `BatchVerifier::verify`. -/
def originalValue (verifier : BatchVerifier Γ) : Γ.Point := multiexp (verifier.original.terms Γ.G Γ.H (Original.GENERATORS Γ))

/-- The second of the multi-exponentiations of `BatchVerifier::verify`. -/
def plusValue (verifier : BatchVerifier Γ) : Γ.Point := multiexp (verifier.plus.terms Γ.H Γ.G (Plus.GENERATORS Γ))

theorem verify_iff_values (verifier : BatchVerifier Γ) : verifier.verify = true ↔
    verifier.originalValue = 0 ∧ verifier.plusValue = 0 := by
  rw [BatchVerifier.verify, Bool.and_eq_true_iff, InternalBatchVerifier.verify, InternalBatchVerifier.verify, decide_eq_true_iff,
    decide_eq_true_iff]
  rfl

/-- No list of coefficients is longer than that of its generators. -/
structure Sane (verifier : BatchVerifier Γ) : Prop where
  original : verifier.original.Sane
  plus : verifier.plus.Sane

theorem sane_new : (new Γ).Sane where
  original := sane_default
  plus := sane_default

theorem value_default (g h : Γ.primeSubgroup) (dst : List UInt8) : (default : InternalBatchVerifier Γ).value g h dst = 0 :=
  verify_iff.1 verify_default

@[simp]
theorem originalValue_new : (new Γ).originalValue = 0 := value_default (pointG Γ) (pointH Γ) Original.dst

@[simp]
theorem plusValue_new : (new Γ).plusValue = 0 := value_default (pointH Γ) (pointG Γ) Plus.dst

/-- Two batches whose values are apart by these points. -/
structure Apart (D E : Γ.Point) (verifier other : BatchVerifier Γ) : Prop where
  original : Offset (pointG Γ) (pointH Γ) Original.dst 0 D verifier.original other.original
  plus : Offset (pointH Γ) (pointG Γ) Plus.dst 0 E verifier.plus other.plus

theorem apart_of_sane {verifier other : BatchVerifier Γ} (hsane : verifier.Sane) (hother : other.Sane) :
    Apart (verifier.originalValue - other.originalValue) (verifier.plusValue - other.plusValue) verifier other where
  original := ⟨hsane.original, hother.original, Nat.zero_le _, Nat.zero_le _, (add_sub_cancel _ _).symm⟩
  plus := ⟨hsane.plus, hother.plus, Nat.zero_le _, Nat.zero_le _, (add_sub_cancel _ _).symm⟩

/-- A proof queued in two batches: it is in both, or in neither, and they stay as far apart. -/
theorem Apart.batchVerify {D E : Γ.Point} {verifier other : BatchVerifier Γ} (hapart : Apart D E verifier other) (rng : Rng)
    (bulletproof : Bulletproof) (commitments : List CompressedPoint) {next : BatchVerifier Γ} {rng' : Rng}
    (hverify : Bulletproof.batchVerify rng verifier bulletproof commitments = some (next, rng')) :
    ∃ next', Bulletproof.batchVerify rng other bulletproof commitments = some (next', rng') ∧ Apart D E next next' := by
  unfold Bulletproof.batchVerify at hverify ⊢
  simp only [bind, Option.bind_eq_some_iff] at hverify
  obtain ⟨points, hpoints, hverify⟩ := hverify
  simp only [hpoints, bind, Option.bind_some]
  cases bulletproof with
  | original proof =>
    simp only [Option.bind_eq_some_iff] at hverify
    obtain ⟨statement, hstatement, ⟨batch, rng''⟩, hbatch, hnext⟩ := hverify
    cases hnext
    obtain ⟨batch', hbatch', ho⟩ := Original.offset_verify hapart.original rng statement proof hbatch
    simp only [hstatement, hbatch', Option.bind_some]
    exact ⟨_, rfl, { original := ho, plus := hapart.plus }⟩
  | plus proof =>
    simp only [Option.bind_eq_some_iff] at hverify
    obtain ⟨statement, hstatement, ⟨batch, rng''⟩, hbatch, hnext⟩ := hverify
    cases hnext
    obtain ⟨batch', hbatch', ho⟩ := Plus.offset_verify hapart.plus rng statement proof hbatch
    simp only [hstatement, hbatch', Option.bind_some]
    exact ⟨_, rfl, { original := hapart.original, plus := ho }⟩

end BatchVerifier

namespace Queued

variable (Γ : Ctx) (queued : Queued)

/-- The proof as the only one of a batch. -/
def alone : Option (BatchVerifier Γ) := (BatchVerifier.new Γ).queue [queued]

/-- What the proof adds up to alone, in the first multi-exponentiation. -/
def originalValue : Γ.Point := ((queued.alone Γ).map BatchVerifier.originalValue).getD 0

/-- What the proof adds up to alone, in the second multi-exponentiation. -/
def plusValue : Γ.Point := ((queued.alone Γ).map BatchVerifier.plusValue).getD 0

/-- Whether the proof verifies alone. -/
def verifies : Bool := ((queued.alone Γ).map BatchVerifier.verify).getD false

variable {Γ queued} {verifier next : BatchVerifier Γ} {rng' : Rng}

theorem alone_eq_some :
    queued.alone Γ = some next ↔
      ∃ rng', Bulletproof.batchVerify queued.rng (BatchVerifier.new Γ) queued.bulletproof queued.commitments =
      some (next, rng') := by
  simp only [alone, BatchVerifier.queue, bind, Option.bind_eq_some_iff, Option.some.injEq]
  constructor
  · rintro ⟨⟨_, rng'⟩, h, rfl⟩
    exact ⟨rng', h⟩
  · rintro ⟨rng', h⟩
    exact ⟨(next, rng'), h, rfl⟩

/-- What a proof adds to a batch is what it adds up to alone. -/
theorem batchVerify_values (hsane : verifier.Sane)
    (hverify : Bulletproof.batchVerify queued.rng verifier queued.bulletproof queued.commitments = some (next, rng')) :
    (∃ alone, queued.alone Γ = some alone) ∧ next.Sane ∧
      next.originalValue = verifier.originalValue + queued.originalValue Γ ∧
      next.plusValue = verifier.plusValue + queued.plusValue Γ := by
  obtain ⟨alone, halone, hapart⟩ := (BatchVerifier.apart_of_sane hsane BatchVerifier.sane_new).batchVerify _ _ _ hverify
  have halone : queued.alone Γ = some alone := alone_eq_some.2 ⟨rng', halone⟩
  refine ⟨⟨alone, halone⟩, ⟨hapart.original.sane, hapart.plus.sane⟩, ?_, ?_⟩
  · have hvalue : next.originalValue = alone.originalValue + (verifier.originalValue - (BatchVerifier.new Γ).originalValue) :=
      hapart.original.value_eq
    rw [hvalue, originalValue, halone, BatchVerifier.originalValue_new, sub_zero, add_comm]
    rfl
  · have hvalue : next.plusValue = alone.plusValue + (verifier.plusValue - (BatchVerifier.new Γ).plusValue) := hapart.plus.value_eq
    rw [hvalue, plusValue, halone, BatchVerifier.plusValue_new, sub_zero, add_comm]
    rfl

/-- A proof that is queued alone is queued in any batch. -/
theorem exists_batchVerify (hsane : verifier.Sane) {alone : BatchVerifier Γ} (halone : queued.alone Γ = some alone) :
    ∃ next rng', Bulletproof.batchVerify queued.rng verifier queued.bulletproof queued.commitments = some (next, rng') := by
  obtain ⟨rng', halone⟩ := alone_eq_some.1 halone
  obtain ⟨next, hnext, -⟩ := (BatchVerifier.apart_of_sane BatchVerifier.sane_new hsane).batchVerify _ _ _ halone
  exact ⟨next, rng', hnext⟩

/-- A proof of the other kind leaves the value as it was. -/
theorem originalValue_eq_zero (hkind : queued.isOriginal = false) : queued.originalValue Γ = 0 := by
  unfold originalValue
  cases halone : queued.alone Γ with
  | none => rfl
  | some alone =>
    obtain ⟨rng', halone⟩ := alone_eq_some.1 halone
    obtain ⟨rng, bulletproof, commitments⟩ := queued
    cases bulletproof with
    | original proof => cases hkind
    | plus proof =>
      simp only [Bulletproof.batchVerify, bind, Option.bind_eq_some_iff] at halone
      obtain ⟨points, -, statement, -, ⟨batch, rng''⟩, -, hnext⟩ := halone
      cases hnext
      exact BatchVerifier.originalValue_new

theorem plusValue_eq_zero (hkind : queued.isPlus = false) : queued.plusValue Γ = 0 := by
  unfold plusValue
  cases halone : queued.alone Γ with
  | none => rfl
  | some alone =>
    obtain ⟨rng', halone⟩ := alone_eq_some.1 halone
    obtain ⟨rng, bulletproof, commitments⟩ := queued
    cases bulletproof with
    | plus proof => cases hkind
    | original proof =>
      simp only [Bulletproof.batchVerify, bind, Option.bind_eq_some_iff] at halone
      obtain ⟨points, -, statement, -, ⟨batch, rng''⟩, -, hnext⟩ := halone
      cases hnext
      exact BatchVerifier.plusValue_new

theorem verifies_iff (halone : ∃ alone, queued.alone Γ = some alone) :
    queued.verifies Γ = true ↔ queued.originalValue Γ = 0 ∧ queued.plusValue Γ = 0 := by
  obtain ⟨alone, halone⟩ := halone
  rw [verifies, originalValue, plusValue, halone]
  exact alone.verify_iff_values

end Queued

namespace BatchVerifier

variable {Γ : Ctx} {verifier next : BatchVerifier Γ}

/-- A whole run: the values add up. -/
theorem queue_values (hsane : verifier.Sane) {all : List Queued} (hqueue : verifier.queue all = some next) :
    (∀ queued ∈ all, ∃ alone, queued.alone Γ = some alone) ∧ next.Sane ∧
      next.originalValue = verifier.originalValue + (all.map (Queued.originalValue Γ)).sum ∧
      next.plusValue = verifier.plusValue + (all.map (Queued.plusValue Γ)).sum := by
  induction all generalizing verifier with
  | nil =>
    cases hqueue
    simp [hsane]
  | cons queued all ih =>
    simp only [queue, bind, Option.bind_eq_some_iff] at hqueue
    obtain ⟨⟨middle, rng'⟩, hverify, hqueue⟩ := hqueue
    obtain ⟨halone, hmiddle, horiginal, hplus⟩ := Queued.batchVerify_values hsane hverify
    obtain ⟨hall, hnext, horiginal', hplus'⟩ := ih hmiddle hqueue
    refine ⟨List.forall_mem_cons.2 ⟨halone, hall⟩, hnext, ?_, ?_⟩
    · rw [horiginal', horiginal, List.map_cons, List.sum_cons, add_assoc]
    · rw [hplus', hplus, List.map_cons, List.sum_cons, add_assoc]

/-- Proofs that are queued alone are queued together. -/
theorem exists_queue (hsane : verifier.Sane) {all : List Queued} (halone : ∀ queued ∈ all, ∃ alone, queued.alone Γ = some alone) :
    ∃ next, verifier.queue all = some next := by
  induction all generalizing verifier with
  | nil => exact ⟨verifier, rfl⟩
  | cons queued all ih =>
    obtain ⟨⟨alone, hqueued⟩, hall⟩ := List.forall_mem_cons.1 halone
    obtain ⟨middle, rng', hverify⟩ := Queued.exists_batchVerify hsane hqueued
    obtain ⟨-, hmiddle, -⟩ := Queued.batchVerify_values hsane hverify
    obtain ⟨next, hnext⟩ := ih hmiddle hall
    refine ⟨next, ?_⟩
    simp only [queue, bind, hverify, Option.bind_some]
    exact hnext

end BatchVerifier

/-- Proofs that verify alone add up to nothing. -/
theorem Queued.sums_eq_zero {Γ : Ctx} {all : List Queued} (halone : ∀ queued ∈ all, ∃ alone, queued.alone Γ = some alone)
    (hverifies : ∀ queued ∈ all, queued.verifies Γ = true) :
    (all.map (Queued.originalValue Γ)).sum = 0 ∧ (all.map (Queued.plusValue Γ)).sum = 0 := by
  have hzero : ∀ queued ∈ all, queued.originalValue Γ = 0 ∧ queued.plusValue Γ = 0 := by
    intro queued hqueued
    exact (verifies_iff (halone queued hqueued)).1 (hverifies queued hqueued)
  constructor
  · exact List.sum_eq_zero (List.forall_mem_map.2 fun queued hqueued => (hzero queued hqueued).1)
  · exact List.sum_eq_zero (List.forall_mem_map.2 fun queued hqueued => (hzero queued hqueued).2)

/-- Batch verification is the sum of its parts. -/
theorem batch_eq_sum (Γ : Ctx) (all : List Queued) (verifier : BatchVerifier Γ)
    (hqueue : (BatchVerifier.new Γ).queue all = some verifier) :
    verifier.Sane ∧ (∀ queued ∈ all, ∃ alone, queued.alone Γ = some alone) ∧
    verifier.originalValue = ((all.filter Queued.isOriginal).map (Queued.originalValue Γ)).sum ∧
    verifier.plusValue = ((all.filter Queued.isPlus).map (Queued.plusValue Γ)).sum ∧
    (∀ reordered : List Queued, reordered.Perm all →
      ∃ verifier', (BatchVerifier.new Γ).queue reordered = some verifier' ∧ verifier'.verify = verifier.verify) ∧
    ((∀ queued ∈ all, queued.verifies Γ = true) → verifier.verify = true) ∧
    (∀ (before after : List Queued) (queued : Queued), all = before ++ queued :: after →
      (∀ other ∈ before ++ after, other.verifies Γ = true) → queued.verifies Γ = false → verifier.verify = false) := by
  obtain ⟨halone, hsane, horiginal, hplus⟩ := BatchVerifier.queue_values BatchVerifier.sane_new hqueue
  rw [BatchVerifier.originalValue_new, zero_add] at horiginal
  rw [BatchVerifier.plusValue_new, zero_add] at hplus
  refine ⟨hsane, halone, ?_, ?_, ?_, ?_, ?_⟩
  · rw [horiginal, Lists.sum_map_filter _ _ _ fun _ _ => Queued.originalValue_eq_zero]
  · rw [hplus, Lists.sum_map_filter _ _ _ fun _ _ => Queued.plusValue_eq_zero]
  · intro reordered hperm
    obtain ⟨verifier', hverifier'⟩ := BatchVerifier.exists_queue BatchVerifier.sane_new
      fun queued hqueued => halone queued (hperm.mem_iff.1 hqueued)
    obtain ⟨-, -, horiginal', hplus'⟩ := BatchVerifier.queue_values BatchVerifier.sane_new hverifier'
    refine ⟨verifier', hverifier', Bool.eq_iff_iff.2 ?_⟩
    rw [BatchVerifier.verify_iff_values, BatchVerifier.verify_iff_values, horiginal', hplus', horiginal, hplus,
      BatchVerifier.originalValue_new, BatchVerifier.plusValue_new, zero_add, zero_add,
      (hperm.map (Queued.originalValue Γ)).sum_eq, (hperm.map (Queued.plusValue Γ)).sum_eq]
  · intro hverifies
    obtain ⟨hzero, hzero'⟩ := Queued.sums_eq_zero halone hverifies
    exact verifier.verify_iff_values.2 ⟨horiginal.trans hzero, hplus.trans hzero'⟩
  · rintro before after queued rfl hothers hfails
    have hsublist : (before ++ after).Sublist (before ++ queued :: after) :=
      List.Sublist.append (List.Sublist.refl before) (List.sublist_cons_self queued after)
    obtain ⟨hzero, hzero'⟩ := Queued.sums_eq_zero (fun other hother => halone other (hsublist.subset hother)) hothers
    -- the others add up to nothing, so that the values are those of the proof that fails
    have hmiddle : (before ++ queued :: after).Perm (queued :: (before ++ after)) := List.perm_middle
    rw [(hmiddle.map (Queued.originalValue Γ)).sum_eq, List.map_cons, List.sum_cons, hzero, add_zero] at horiginal
    rw [(hmiddle.map (Queued.plusValue Γ)).sum_eq, List.map_cons, List.sum_cons, hzero', add_zero] at hplus
    rw [← Bool.not_eq_true, verifier.verify_iff_values, horiginal, hplus,
      ← Queued.verifies_iff (halone queued (List.mem_append_right _ List.mem_cons_self)), hfails]
    decide

/-- A Bulletproof of three outputs and a Bulletproof+ of one, in one batch. -/
theorem batch_eq_sum_instanceOutputs :
    ∃ (first second : Queued) (verifier : BatchVerifier instanceCtx),
      first.isOriginal = true ∧ first.commitments = compressedCommitments instanceCtx instanceOutputs ∧
      second.isPlus = true ∧ second.commitments = compressedCommitments instanceCtx [{ mask := 3, amount := 5 }] ∧
      (BatchVerifier.new instanceCtx).queue [first, second] = some verifier ∧
      verifier.originalValue = (([first, second].filter Queued.isOriginal).map (Queued.originalValue instanceCtx)).sum ∧
      verifier.plusValue = (([first, second].filter Queued.isPlus).map (Queued.plusValue instanceCtx)).sum := by
  have hsecond : [({ mask := 3, amount := 5 } : Commitment)] ≠ [] := List.cons_ne_nil _ _
  obtain ⟨original, rng, statement, -, -, hnew, hverify⟩ :=
    @prove_spec instanceCtx instanceOutputs (by simp [instanceOutputs]) (by decide)
      (Stream'.const (Bytes.replicate 64 0))
  obtain ⟨plus, -, statement', -, -, hnew', hverify'⟩ := provePlus_spec (Γ := instanceCtx) hsecond (by decide) rng
  obtain ⟨batch, rng', hbatch, -⟩ := hverify (original_invertible _ _) rng .default sane_default
  obtain ⟨batch', rng'', hbatch', -⟩ := hverify' (plus_invertible _ _) rng .default sane_default
  have hqueue : (BatchVerifier.new instanceCtx).queue
      [{ rng, bulletproof := .original original, commitments := compressedCommitments instanceCtx instanceOutputs },
        { rng, bulletproof := .plus plus, commitments := compressedCommitments instanceCtx [{ mask := 3, amount := 5 }] }] =
      some { original := batch, plus := batch' } := by
    simp only [BatchVerifier.queue, batchVerify, BatchVerifier.new, mapM_compressedCommitments, hnew, hnew', hbatch, hbatch', bind,
      Option.bind_some, pure]
  obtain ⟨-, -, horiginal, hplus, -⟩ := batch_eq_sum instanceCtx _ _ hqueue
  exact ⟨_, _, _, rfl, rfl, rfl, rfl, hqueue, horiginal, hplus⟩

end MoneroOxide
