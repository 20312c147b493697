import MoneroOxide.Lemmas.Interface
import MoneroOxide.Lemmas.Instance

/-!
# What a validated answer of an interface is worth

Against any interface, transactions which were validated are those requested, and blocks which were validated are those of the
range requested, provided it is not empty. Conversely an interface which answers with the real transactions, or with the blocks of
the range, is not rejected. For an empty range it is: one block is expected of it, and any one block is accepted.
-/

namespace MoneroOxide

variable {σ : Type}

/-! ## Transactions -/

/-- `real` is a view of the transactions there are, by their hashes. -/
def RealTransactions (Γ : Ctx) (real : Bytes 32 → Option (Transaction NotPruned)) : Prop :=
  ∀ hash tx, real hash = some tx → tx.hash Γ = hash

/-- The transactions of the hashes. -/
def TransactionsOf (real : Bytes 32 → Option (Transaction NotPruned)) : List (Bytes 32) → List (Transaction NotPruned) → Prop :=
  List.Forall₂ fun hash tx => real hash = some tx

/-- The pruned forms of the transactions, with the hashes of what was pruned. -/
def PrunedForms (Γ : Ctx) : List (Transaction NotPruned) → List PrunedTransactionWithPrunableHash → Prop :=
  List.Forall₂ fun tx pruned => PrunedTransactionWithPrunableHash.new tx.toPruned (tx.prunableHash Γ) = some pruned

/-- The interface answers with the real transactions, whatever its state. -/
structure Honest (Γ : Ctx) (real : Bytes 32 → Option (Transaction NotPruned)) (P : ProvidesUnvalidatedTransactions σ) : Prop where
  transactions : ∀ hashes txs, TransactionsOf real hashes txs → Call.Answers (P.transactions hashes) txs
  prunedTransactions : ∀ hashes txs, TransactionsOf real hashes txs →
    ∃ pruned, PrunedForms Γ txs pruned ∧ Call.Answers (P.prunedTransactions hashes) pruned

theorem validTransactions_sound {Γ : Ctx} {P : ProvidesUnvalidatedTransactions σ} {hashes : List (Bytes 32)} {s t : σ}
    {txs : List (Transaction NotPruned)} (h : P.validTransactions Γ hashes s = .ok txs t) :
    List.Forall₂ (fun tx hash => tx.hash Γ = hash) txs hashes := by
  unfold ProvidesUnvalidatedTransactions.validTransactions at h
  simp only [Call.bind_ok, Call.ite_ok, Call.throw_ok, and_false, false_or, Call.ofExcept_ok, Call.pure_ok, not_not] at h
  obtain ⟨txs', u, -, hlen, ⟨⟩, v, ⟨hcheck, -⟩, rfl, -⟩ := h
  exact List.forall₂_iff_zip.2 ⟨hlen, fun hx => checkHashes_ok.1 hcheck _ hx⟩

theorem validatePrunedTransactions_sound {Γ : Ctx} {P : ProvidesUnvalidatedTransactions σ}
    {unvalidated : List PrunedTransactionWithPrunableHash} {hashes : List (Bytes 32)} {s t : σ} {txs : List (Transaction Pruned)}
    (h : validatePrunedTransactions Γ (P.validTransactions Γ) unvalidated hashes s = .ok txs t) :
    List.Forall₂ (PrunedFor Γ) txs hashes := by
  unfold validatePrunedTransactions at h
  simp only [Call.bind_ok, Call.ite_ok, Call.throw_ok, and_false, false_or, Call.ofExcept_ok, Call.pure_ok, not_not] at h
  obtain ⟨hlen, verified, u, ⟨hloop, -⟩, hrest⟩ := h
  have hinv := verifyLoop_zip_inv hlen hloop
  rcases hrest with ⟨-, fullTxs, v, hfull, ⟨⟩, w, ⟨hcheck, -⟩, rfl, -⟩ | ⟨hempty, rfl, -⟩
  · exact hinv.prunedFor (validTransactions_sound hfull) hcheck
  · -- No transaction of version 1 was collected, so that no full transaction is needed.
    have hhashes : verified.v1Hashes = [] := by
      rw [← List.length_eq_zero_iff, ← hinv.lengths, hempty, List.length_nil]
    have hnone : List.Forall₂ (fun (tx : Transaction NotPruned) hash => tx.hash Γ = hash) [] verified.v1Hashes := by
      rw [hhashes]
      exact .nil
    refine hinv.prunedFor hnone ?_
    rw [hempty]
    rfl

theorem validTransactions_complete {Γ : Ctx} {real : Bytes 32 → Option (Transaction NotPruned)} (hreal : RealTransactions Γ real)
    {P : ProvidesUnvalidatedTransactions σ} (hP : Honest Γ real P) {hashes : List (Bytes 32)} {txs : List (Transaction NotPruned)}
    (h : TransactionsOf real hashes txs) : Call.Answers (P.validTransactions Γ hashes) txs := by
  have hlen : txs.length = hashes.length := h.length_eq.symm
  have hcheck : checkHashes Γ (txs.zip hashes) = .ok () := by
    rw [checkHashes_ok]
    intro x hx
    have := (List.forall₂_iff_zip.1 h.flip).2 hx
    exact hreal _ _ this
  refine (hP.transactions hashes txs h).bind ?_
  rw [if_neg (not_not.2 hlen)]
  exact (Call.Answers.ofExcept hcheck).bind (.pure txs)

/-- The pruned form of a real transaction is verified against its hash. -/
theorem verifyAsPossible_of_real {Γ : Ctx} {tx : Transaction NotPruned} {pruned : PrunedTransactionWithPrunableHash}
    (h : PrunedTransactionWithPrunableHash.new tx.toPruned (tx.prunableHash Γ) = some pruned) :
    pruned.verifyAsPossible Γ (tx.hash Γ) = .ok tx.toPruned := by
  cases tx with
  | V1 txPrefix signatures =>
    obtain rfl : _ = pruned := Option.some.inj h
    rfl
  | V2 txPrefix proofs =>
    cases proofs with
    | none =>
      obtain rfl : _ = pruned := Option.some.inj h
      exact if_neg (not_not.2 rfl)
    | some proofs =>
      obtain rfl : _ = pruned := Option.some.inj h
      exact if_neg (not_not.2 rfl)

theorem validatePrunedTransactions_complete {Γ : Ctx} {real : Bytes 32 → Option (Transaction NotPruned)}
    (hreal : RealTransactions Γ real) {P : ProvidesUnvalidatedTransactions σ} (hP : Honest Γ real P) {hashes : List (Bytes 32)}
    {txs : List (Transaction NotPruned)} (h : TransactionsOf real hashes txs) {pruned : List PrunedTransactionWithPrunableHash}
    (hpruned : PrunedForms Γ txs pruned) :
    Call.Answers (validatePrunedTransactions Γ (P.validTransactions Γ) pruned hashes) (txs.map Transaction.toPruned) := by
  have hlen : pruned.length = hashes.length := by rw [← hpruned.length_eq, h.length_eq]
  have hall : List.Forall₂ (fun x tx => x.1.verifyAsPossible Γ x.2 = .ok tx) (pruned.zip hashes)
    (txs.map Transaction.toPruned) := by
    rw [List.forall₂_map_right_iff]
    induction h generalizing pruned with
    | nil =>
      cases hpruned
      exact .nil
    | cons hx _ ih =>
      cases hpruned with
      | cons hp hps =>
        refine .cons ?_ (ih hps (by rw [List.length_cons, List.length_cons] at hlen; omega))
        rw [← hreal _ _ hx]
        exact verifyAsPossible_of_real hp
  obtain ⟨verified, hloop, htxs⟩ := verifyLoop_of_forall hall { txs := [], v1Indexes := [], v1Hashes := [] }
  rw [List.nil_append] at htxs
  have hinv := verifyLoop_zip_inv hlen hloop
  unfold validatePrunedTransactions
  rw [if_neg (not_not.2 hlen)]
  refine (Call.Answers.ofExcept hloop).bind ?_
  by_cases hempty : verified.v1Indexes = []
  · rw [if_neg (not_not.2 hempty), htxs]
    exact .pure _
  · rw [if_pos hempty]
    -- The hashes collected are among those requested, so that their transactions are known.
    have hreals : ∀ i hash, (i, hash) ∈ verified.v1Indexes.zip verified.v1Hashes →
        ∃ tx, real hash = some tx ∧ verified.txs[i]? = some tx.toPruned := by
      intro i hash hmem
      obtain ⟨hi, rfl⟩ := List.getElem?_eq_some_iff.1 (hinv.present i hash hmem)
      have hi' : i < txs.length := by
        rw [← h.length_eq]
        exact hi
      refine ⟨txs[i], h.get hi hi', ?_⟩
      rw [htxs, List.getElem?_map, List.getElem?_eq_getElem hi']
      rfl
    obtain ⟨fullTxs, hfull⟩ : ∃ fullTxs, TransactionsOf real verified.v1Hashes fullTxs := by
      refine Lists.exists_forall₂ fun hash hmem => ?_
      obtain ⟨k, hk, rfl⟩ := List.getElem_of_mem hmem
      have hk' : k < verified.v1Indexes.length := by rw [hinv.lengths]; exact hk
      obtain ⟨tx, htx, -⟩ := hreals verified.v1Indexes[k] verified.v1Hashes[k]
        (List.mem_iff_getElem.2 ⟨k, by rw [List.length_zip]; omega, List.getElem_zip⟩)
      exact ⟨tx, htx⟩
    have hcheck : checkV1Loop verified.txs ((verified.v1Indexes.zip verified.v1Hashes).zip fullTxs) = .ok () := by
      rw [checkV1Loop_ok]
      intro x hx
      obtain ⟨k, hk, rfl⟩ := List.getElem_of_mem hx
      rw [List.length_zip, List.length_zip] at hk
      have hk1 : k < verified.v1Hashes.length := by omega
      have hk2 : k < fullTxs.length := by omega
      have hk3 : k < verified.v1Indexes.length := by omega
      obtain ⟨tx, htx, hi⟩ := hreals verified.v1Indexes[k] verified.v1Hashes[k]
        (List.mem_iff_getElem.2 ⟨k, by rw [List.length_zip]; omega, List.getElem_zip⟩)
      have heq : real verified.v1Hashes[k] = some fullTxs[k] := hfull.get hk1 hk2
      rw [htx, Option.some.injEq] at heq
      rw [List.getElem_zip, List.getElem_zip, hi, heq]
    refine (validTransactions_complete hreal hP hfull).bind ((Call.Answers.ofExcept hcheck).bind ?_)
    rw [htxs]
    exact .pure _

/-- Validated transactions are those requested, against any interface: in full, they have the hashes they were requested by; pruned,
they are known to be so as far as `PrunedFor` says. The real transactions, in any mix of versions, are accepted. -/
theorem providesTransactions_valid (Γ : Ctx) (P : ProvidesUnvalidatedTransactions σ) (hashes : List (Bytes 32)) :
    (∀ s t txs, (P.providesTransactions Γ).transactions hashes s = .ok txs t →
      List.Forall₂ (fun tx hash => tx.hash Γ = hash) txs hashes) ∧
    (∀ s t txs, (P.providesTransactions Γ).prunedTransactions hashes s = .ok txs t → List.Forall₂ (PrunedFor Γ) txs hashes) ∧
    (∀ unvalidated s t txs,
      validatePrunedTransactions Γ (P.providesTransactions Γ).transactions unvalidated hashes s = .ok txs t →
      List.Forall₂ (PrunedFor Γ) txs hashes) ∧
    (∀ real txs, RealTransactions Γ real → Honest Γ real P → TransactionsOf real hashes txs →
      Call.Answers ((P.providesTransactions Γ).transactions hashes) txs ∧
      Call.Answers ((P.providesTransactions Γ).prunedTransactions hashes) (txs.map Transaction.toPruned)) := by
  refine ⟨fun s t txs h => validTransactions_sound h, fun s t txs h => ?_, fun unvalidated s t txs h =>
    validatePrunedTransactions_sound h, fun real txs hreal hP h => ⟨validTransactions_complete hreal hP h, ?_⟩⟩
  · obtain ⟨unvalidated, u, -, hvalid⟩ := Call.bind_ok.1 h
    exact validatePrunedTransactions_sound hvalid
  · obtain ⟨pruned, hforms, hanswers⟩ := hP.prunedTransactions hashes txs h
    exact hanswers.bind (validatePrunedTransactions_complete hreal hP h hforms)

/-! ## Blocks -/

/-- `ProvidesBlockchain::contiguous_blocks` does what it is for on this range: against any interface, what it returns are the blocks
of the range, and an interface which answers with the blocks of the range is not rejected. -/
def ContiguousBlocksValid (Γ : Ctx) (range : RangeInclusive) : Prop :=
  ∀ (σ : Type) (P : ProvidesUnvalidatedBlockchain σ),
    (∀ s t blocks, (P.providesBlockchain Γ).contiguousBlocks range s = .ok blocks t → MatchesRange Γ range blocks) ∧
    ∀ blocks, MatchesRange Γ range blocks → Call.Answers (P.contiguousBlocks range) blocks →
      Call.Answers ((P.providesBlockchain Γ).contiguousBlocks range) blocks

/-- A scannable block with the transactions its block lists. -/
def HasTransactions (Γ : Ctx) (real : Bytes 32 → Option (Transaction NotPruned)) (block : UnvalidatedScannableBlock) : Prop :=
  ∃ txs, TransactionsOf real block.block.transactions txs ∧ PrunedForms Γ txs block.transactions

/-- `ProvidesScannableBlocks::contiguous_scannable_blocks` does what it is for on this range. -/
def ContiguousScannableBlocksValid (Γ : Ctx) (range : RangeInclusive) : Prop :=
  ∀ (σ : Type) (P : ProvidesUnvalidatedScannableBlocks σ) (T : ProvidesUnvalidatedTransactions σ),
    (∀ s t blocks, (P.providesScannableBlocks Γ (T.providesTransactions Γ)).contiguousScannableBlocks range s = .ok blocks t →
      MatchesRange Γ range (blocks.map fun block => block.block)) ∧
    ∀ real blocks, RealTransactions Γ real → Honest Γ real T →
      MatchesRange Γ range (blocks.map fun block => block.block) → (∀ block ∈ blocks, HasTransactions Γ real block) →
      Call.Answers (P.contiguousScannableBlocks range) blocks →
      ∃ validated : List ScannableBlock, validated.map (fun block => block.block) = blocks.map (fun block => block.block) ∧
        Call.Answers ((P.providesScannableBlocks Γ (T.providesTransactions Γ)).contiguousScannableBlocks range) validated

theorem contiguousBlocksValid_of_le {Γ : Ctx} {range : RangeInclusive} (hle : range.start ≤ range.stop)
    (hlen : range.toList.length < 2 ^ 64) : ContiguousBlocksValid Γ range := by
  have hexpected := range.expectedBlocks_eq hle hlen
  intro σ P
  constructor
  · intro s t blocks h
    change P.validContiguousBlocks Γ range s = _ at h
    unfold ProvidesUnvalidatedBlockchain.validContiguousBlocks at h
    simp only [Call.bind_ok, Call.ite_ok, Call.throw_ok, and_false, false_or, Call.ofExcept_ok, Call.pure_ok, not_not, hexpected,
      Except.ok.injEq] at h
    obtain ⟨blocks', u, -, expected, v, ⟨rfl, -⟩, hlength, ⟨⟩, w, ⟨hcheck, -⟩, rfl, -⟩ := h
    exact sanityCheckContiguousBlocks_ok.1 ⟨hlength, hcheck⟩
  · intro blocks hmatches hanswers
    obtain ⟨hlength, hcheck⟩ := sanityCheckContiguousBlocks_ok.2 hmatches
    refine hanswers.bind ((Call.Answers.ofExcept hexpected).bind ?_)
    rw [if_neg (not_not.2 hlength)]
    exact (Call.Answers.ofExcept hcheck).bind (.pure blocks)

/-- Validating a scannable block leaves the block as it is. -/
theorem validateScannableBlock_ok {Γ : Ctx} {transactions : List (Bytes 32) →
    Call σ TransactionsError (List (Transaction NotPruned))}
    {block : UnvalidatedScannableBlock} {validated : ScannableBlock} {s t : σ}
    (h : validateScannableBlock Γ transactions block s = .ok validated t) : validated.block = block.block := by
  unfold validateScannableBlock at h
  simp only [Call.bind_ok, Call.pure_ok] at h
  obtain ⟨txs, u, -, rfl, -⟩ := h
  rfl

theorem mapM_validateScannableBlock_ok {Γ : Ctx}
    {transactions : List (Bytes 32) → Call σ TransactionsError (List (Transaction NotPruned))}
    {blocks : List UnvalidatedScannableBlock}
    {validated : List ScannableBlock} {s t : σ} (h : blocks.mapM (validateScannableBlock Γ transactions) s = .ok validated t) :
    validated.map (fun block => block.block) = blocks.map fun block => block.block := by
  induction blocks generalizing s t validated with
  | nil =>
    rw [List.mapM_nil, Call.pure_ok] at h
    rw [← h.1]
    rfl
  | cons block blocks ih =>
    simp only [List.mapM_cons, Call.bind_ok, Call.pure_ok] at h
    obtain ⟨first, u, hfirst, rest, v, hrest, rfl, -⟩ := h
    rw [List.map_cons, List.map_cons, validateScannableBlock_ok hfirst, ih hrest]

theorem mapErr_answers {ε ε' α : Type} {f : ε → ε'} {x : Call σ ε α} {a : α} (h : Call.Answers x a) :
    Call.Answers (Call.mapErr f x) a := by
  intro s
  obtain ⟨t, ht⟩ := h s
  exact ⟨t, by rw [Call.mapErr, ht]⟩

theorem mapM_validateScannableBlock_answers {Γ : Ctx} {real : Bytes 32 → Option (Transaction NotPruned)}
    (hreal : RealTransactions Γ real) {T : ProvidesUnvalidatedTransactions σ} (hT : Honest Γ real T)
    {blocks : List UnvalidatedScannableBlock} (h : ∀ block ∈ blocks, HasTransactions Γ real block) :
    ∃ validated, Call.Answers (blocks.mapM (validateScannableBlock Γ (T.validTransactions Γ))) validated ∧
      validated.map (fun block => block.block) = blocks.map fun block => block.block := by
  induction blocks with
  | nil => exact ⟨[], .pure [], rfl⟩
  | cons block blocks ih =>
    obtain ⟨txs, htxs, hforms⟩ := h block (by simp)
    obtain ⟨validated, hanswers, hblocks⟩ := ih fun b hb => h b (by simp [hb])
    obtain ⟨first, hfirst, hblock⟩ : ∃ first, Call.Answers (validateScannableBlock Γ (T.validTransactions Γ) block) first ∧
        first.block = block.block :=
      ⟨_, (mapErr_answers (validatePrunedTransactions_complete hreal hT htxs hforms)).bind (.pure _), rfl⟩
    refine ⟨first :: validated, ?_, ?_⟩
    · rw [List.mapM_cons]
      exact hfirst.bind (hanswers.bind (.pure _))
    · rw [List.map_cons, List.map_cons, hblock, hblocks]

theorem contiguousScannableBlocksValid_of_le {Γ : Ctx} {range : RangeInclusive} (hle : range.start ≤ range.stop)
    (hlen : range.toList.length < 2 ^ 64) : ContiguousScannableBlocksValid Γ range := by
  have hexpected := range.expectedBlocks_eq hle hlen
  intro σ P T
  constructor
  · intro s t blocks h
    change P.validContiguousScannableBlocks Γ (T.providesTransactions Γ) range s = _ at h
    unfold ProvidesUnvalidatedScannableBlocks.validContiguousScannableBlocks at h
    simp only [Call.bind_ok, Call.ite_ok, Call.throw_ok, and_false, false_or, Call.ofExcept_ok, not_not, hexpected,
      Except.ok.injEq] at h
    obtain ⟨blocks', u, -, expected, v, ⟨rfl, -⟩, hlength, ⟨⟩, w, ⟨hcheck, -⟩, hmap⟩ := h
    rw [mapM_validateScannableBlock_ok hmap]
    exact sanityCheckContiguousBlocks_ok.1 ⟨by rw [List.length_map, hlength], hcheck⟩
  · intro real blocks hreal hT hmatches htxs hanswers
    obtain ⟨hlength, hcheck⟩ := sanityCheckContiguousBlocks_ok.2 hmatches
    rw [List.length_map] at hlength
    obtain ⟨validated, hvalidated, hblocks⟩ := mapM_validateScannableBlock_answers hreal hT htxs
    refine ⟨validated, hblocks, hanswers.bind ((Call.Answers.ofExcept hexpected).bind ?_)⟩
    rw [if_neg (not_not.2 hlength)]
    exact (Call.Answers.ofExcept hcheck).bind hvalidated

theorem RangeInclusive.toList_of_lt {range : RangeInclusive} (hlt : range.stop < range.start) : range.toList = [] := by
  have hlt' : range.stop.toNat < range.start.toNat := UInt64.lt_iff_toNat_lt.1 hlt
  rw [← List.length_eq_zero_iff, RangeInclusive.length_toList]
  omega

/-- An interface that answers every request for blocks with none. -/
def emptyBlockchain : ProvidesUnvalidatedBlockchain Unit where
  contiguousBlocks := fun _ => pure []
  block := fun _ => throw (.error (.InterfaceError "no block"))
  blockByNumber := fun _ => throw (.error (.InterfaceError "no block"))
  blockHash := fun _ => throw (.error (.InterfaceError "no block"))

/-- For an empty range, the interface that answers with its blocks, none, is rejected. -/
theorem not_contiguousBlocksValid_of_lt {Γ : Ctx} {range : RangeInclusive} (hlt : range.stop < range.start) :
    ¬ContiguousBlocksValid Γ range := by
  intro h
  have hmatches : MatchesRange Γ range [] :=
    { numbers := by rw [RangeInclusive.toList_of_lt hlt]; rfl
      previous := .nil
      genesis := nofun }
  obtain ⟨t, ht⟩ := (h Unit emptyBlockchain).2 [] hmatches (.pure []) ()
  change emptyBlockchain.validContiguousBlocks Γ range () = _ at ht
  unfold ProvidesUnvalidatedBlockchain.validContiguousBlocks at ht
  simp only [Call.bind_ok, Call.ite_ok, Call.throw_ok, and_false, false_or, Call.ofExcept_ok, Call.pure_ok, not_not,
    RangeInclusive.expectedBlocks_of_lt hlt, Except.ok.injEq, emptyBlockchain] at ht
  obtain ⟨blocks, u, ⟨rfl, -⟩, expected, v, ⟨rfl, -⟩, hlength, -⟩ := ht
  exact absurd hlength (by simp)

/-- On a range whose integers can be counted, validated contiguous blocks are those of the range, and the blocks of the range are
accepted, exactly when the range is not empty. -/
theorem contiguousBlocks_valid_iff (Γ : Ctx) (range : RangeInclusive) (hlen : range.toList.length < 2 ^ 64) :
    (ContiguousBlocksValid Γ range ∧ ContiguousScannableBlocksValid Γ range) ↔ range.start ≤ range.stop := by
  constructor
  · intro h
    by_contra hle
    exact not_contiguousBlocksValid_of_lt (UInt64.not_le.1 hle) h.1
  · intro hle
    exact ⟨contiguousBlocksValid_of_le hle hlen, contiguousScannableBlocksValid_of_le hle hlen⟩

theorem contiguousBlocks_valid_firstBlock :
    (⟨0, 0⟩ : RangeInclusive).toList.length < 2 ^ 64 ∧ ContiguousBlocksValid instanceCtx ⟨0, 0⟩ ∧
      ContiguousScannableBlocksValid instanceCtx ⟨0, 0⟩ :=
  ⟨by decide, (contiguousBlocks_valid_iff instanceCtx ⟨0, 0⟩ (by decide)).2 (by decide)⟩

/-- On the empty range from 1 to 0 the functions do not do what they are for: the answer without a block is not accepted. -/
theorem contiguousBlocks_invalid_emptyRange :
    (⟨1, 0⟩ : RangeInclusive).toList.length < 2 ^ 64 ∧
      ¬(ContiguousBlocksValid instanceCtx ⟨1, 0⟩ ∧ ContiguousScannableBlocksValid instanceCtx ⟨1, 0⟩) :=
  ⟨by decide, fun h => not_contiguousBlocksValid_of_lt (by decide) h.1⟩

end MoneroOxide
