import MoneroOxide.Lemmas.Agreement

/-!
# Daemons agree on what a hash covers

Two daemons, whatever they answer, are asked through the validated interfaces. For the hash of a block, or of transactions, they
return the same, and for two ranges of blocks which end with one hash the blocks of one end those of the other, with their pruned
transactions: a single hash which is trusted is enough to trust all which comes before it. Otherwise two of the blocks or transactions
have one hash and differ. The indexes of the outputs are not covered by any hash.
-/

namespace MoneroOxide

open Digest

variable {σ σ' : Type} {Γ : Ctx}

/-- What the hash of a scannable block covers. -/
def ScannableBlock.covered (block : ScannableBlock) : Block × List (Transaction Pruned) := (block.block, block.transactions)

/-- Two blocks with their transactions have one hash, and differ: the blocks do, or two of their transactions. -/
def CoveredDiffer (Γ : Ctx) (x y : Block × List (Transaction Pruned)) : Prop :=
  Block.Differ Γ x.1 y.1 ∨ ∃ tx ∈ x.2, ∃ tx' ∈ y.2, PrunedDiffer Γ tx tx'

/-- The block can be read, and the transactions were returned for the hashes in it. -/
def CoveredReturned (Γ : Ctx) (x : Block × List (Transaction Pruned)) : Prop :=
  x.1.Readable ∧ List.Forall₂ (PrunedReturned Γ) x.2 x.1.transactions

theorem CoveredReturned.eq_or_differ {x y : Block × List (Transaction Pruned)} (hx : CoveredReturned Γ x) (hy : CoveredReturned Γ y)
    (h : x.1.hash Γ = y.1.hash Γ) : x = y ∨ CoveredDiffer Γ x y := by
  obtain ⟨block, txs⟩ := x
  obtain ⟨block', txs'⟩ := y
  rcases Block.eq_or_differ hx.1 hy.1 h with rfl | hdiffer
  · rcases Lists.eq_or_exists_of_forall₂ (R := PrunedReturned Γ) (fun _ _ _ => PrunedReturned.eq_or_differ) hx.2 hy.2 with rfl | hdiffer
    · exact Or.inl rfl
    · exact Or.inr (Or.inr hdiffer)
  · exact Or.inr (Or.inl hdiffer)

/-- Blocks which passed the check are linked by their hashes. For an empty range it is one block which is not checked. -/
theorem isChain_of_sanityCheck {range : RangeInclusive} {blocks : List Block} {expected : ℕ}
    (hexpected : range.expectedBlocks = .ok expected) (hlen : blocks.length = expected)
    (h : sanityCheckContiguousBlocks Γ range blocks = .ok ()) :
    blocks.IsChain fun parent block => block.header.previous = parent.hash Γ := by
  have heq : range.stop.toNat - range.start.toNat + 1 = expected := by
    simp only [RangeInclusive.expectedBlocks] at hexpected
    split at hexpected
    · exact Except.ok.inj hexpected
    · cases hexpected
  rcases Nat.lt_or_ge range.stop.toNat range.start.toNat with hlt | hge
  · obtain ⟨block, rfl⟩ := List.length_eq_one_iff.1 (show blocks.length = 1 by omega)
    exact .singleton block
  · exact (sanityCheckContiguousBlocks_ok.1 ⟨by rw [RangeInclusive.length_toList]; omega, h⟩).previous

/-- Blocks which can be read and are linked by their hashes. -/
def LinkedBlocks (Γ : Ctx) (blocks : List Block) : Prop :=
  (∀ block ∈ blocks, block.Readable) ∧ blocks.IsChain fun parent block => block.header.previous = parent.hash Γ

/-- Blocks which can be read and are linked by their hashes, with transactions which were returned for the hashes in them. -/
def LinkedCovered (Γ : Ctx) (xs : List (Block × List (Transaction Pruned))) : Prop :=
  (∀ x ∈ xs, CoveredReturned Γ x) ∧ xs.IsChain fun parent x => x.1.header.previous = parent.1.hash Γ

namespace MoneroDaemon

variable {serde serde' : SerdeJson} {json json' : JsonAnswers} {daemon : MoneroDaemon σ} {daemon' : MoneroDaemon σ'}

/-! ## What is returned -/

theorem reads_transactions : ReadsTransactions (daemon.providesUnvalidatedTransactions json) :=
  fun _ _ _ _ h => (transactions_ok h).2

theorem returns_transactions (hashes : List (Bytes 32)) :
    Call.Returns (fun txs => List.Forall₂ (fun tx hash => Transaction.Readable NotPruned.codec tx ∧ tx.hash Γ = hash) txs hashes)
      ((daemon.providesTransactions Γ json).transactions hashes) :=
  returns_validTransactions reads_transactions hashes

theorem returns_prunedTransactions (hashes : List (Bytes 32)) :
    Call.Returns (fun txs => List.Forall₂ (PrunedReturned Γ) txs hashes)
      ((daemon.providesTransactions Γ json).prunedTransactions hashes) :=
  .bind (fun _ _ _ h => (prunedTransactions_ok h).2) fun _ hunvalidated =>
    returns_validatePrunedTransactions reads_transactions hunvalidated hashes

theorem returns_contiguousBlocks (range : RangeInclusive) :
    Call.Returns (LinkedBlocks Γ) ((daemon.providesBlockchain Γ serde json).contiguousBlocks range) := by
  refine .bind (Blocks.returns_contiguousBlocks serde daemon range) fun blocks hblocks =>
    .bind (.ofExcept fun _ => id) fun expected hexpected => .ite (fun _ => .throw _) fun hlen =>
    .bind (.ofExcept fun _ => id) fun _ hcheck => .pure ⟨hblocks, ?_⟩
  exact isChain_of_sanityCheck hexpected (not_not.1 hlen) hcheck

theorem returns_block (hash : Bytes 32) :
    Call.Returns (fun block => Block.Readable block ∧ block.hash Γ = hash) ((daemon.providesBlockchain Γ serde json).block hash) := by
  refine .bind (BinRpc.returns_block hash) fun block hblock => .bind (.ofExcept fun _ => id) fun _ hcheck => .pure ⟨hblock, ?_⟩
  unfold sanityCheckBlockByHash at hcheck
  split at hcheck
  · cases hcheck
  · rename_i heq
    exact not_not.1 heq

/-- A scannable block which can be read is returned with transactions for the hashes in it. -/
theorem returns_validateScannableBlock {block : UnvalidatedScannableBlock} (h : block.Readable) :
    Call.Returns (fun validated => validated.block = block.block ∧ CoveredReturned Γ validated.covered)
      (validateScannableBlock Γ (daemon.providesTransactions Γ json).transactions block) :=
  .bind (Call.returns_mapErr (returns_validatePrunedTransactions reads_transactions h.2 block.block.transactions) _)
    fun _ htxs => .pure ⟨rfl, h.1, htxs⟩

theorem returns_contiguousScannableBlocks (range : RangeInclusive) :
    Call.Returns (fun blocks => LinkedCovered Γ (blocks.map ScannableBlock.covered))
      ((daemon.providesScannableBlocks Γ serde json).contiguousScannableBlocks range) := by
  refine .bind (BinRpc.returns_contiguousScannableBlocks range) fun blocks hblocks =>
    .bind (.ofExcept fun _ => id) fun expected hexpected => .ite (fun _ => .throw _) fun hlen =>
    .bind (.ofExcept fun _ => id) fun _ hcheck => ?_
  intro s validated t h
  have hvalidated : List.Forall₂ (fun (block : UnvalidatedScannableBlock) validated => validated.block = block.block ∧
      CoveredReturned Γ validated.covered) blocks validated := by
    refine ((List.forall₂_and_left blocks validated).2 ⟨hblocks, Call.forall₂_of_mapM_ok h⟩).imp ?_
    rintro block validated ⟨hblock, u, v, hresult⟩
    exact returns_validateScannableBlock hblock u validated v hresult
  have hsame : validated.map (fun validated => validated.block) = blocks.map fun block => block.block := by
    rw [← List.forall₂_eq_eq_eq, List.forall₂_map_left_iff, List.forall₂_map_right_iff]
    exact (hvalidated.imp fun block validated h => h.1).flip
  have hchain := isChain_of_sanityCheck hexpected (by rw [List.length_map]; exact not_not.1 hlen) hcheck
  rw [← hsame, List.isChain_map] at hchain
  refine ⟨?_, (List.isChain_map _).2 hchain⟩
  intro x hx
  obtain ⟨block, hblock, rfl⟩ := List.mem_map.1 hx
  obtain ⟨_, -, -, hcovered⟩ := Lists.exists_mem_of_forall₂ hvalidated hblock
  exact hcovered

theorem returns_scannableBlock (hash : Bytes 32) :
    Call.Returns (fun block => CoveredReturned Γ (ScannableBlock.covered block) ∧ block.block.hash Γ = hash)
      ((daemon.providesScannableBlocks Γ serde json).scannableBlock hash) := by
  refine .bind (BinRpc.returns_scannableBlock hash) fun block hblock => .bind (.ofExcept fun _ => id) fun _ hcheck =>
    (returns_validateScannableBlock hblock).imp fun validated hvalidated => ⟨hvalidated.2, ?_⟩
  rw [hvalidated.1]
  unfold sanityCheckBlockByHash at hcheck
  split at hcheck
  · cases hcheck
  · rename_i heq
    exact not_not.1 heq

/-! ## Agreement -/

/-- Two daemons agree on blocks. For the hash of a block they return one block, and one block with its transactions; for ranges, the
blocks of one are the last ones of the other, if the hashes of the last blocks are equal. Otherwise blocks or transactions have one hash
and differ. -/
theorem blocks_agree (Γ : Ctx) (serde serde' : SerdeJson) (json json' : JsonAnswers) (daemon : MoneroDaemon σ)
    (daemon' : MoneroDaemon σ') :
    (∀ hash, Call.Related (fun block block' => block = block' ∨ Block.Differ Γ block block')
      ((daemon.providesBlockchain Γ serde json).block hash) ((daemon'.providesBlockchain Γ serde' json').block hash)) ∧
    (∀ hash, Call.Related (fun block block' => block.covered = block'.covered ∨ CoveredDiffer Γ block.covered block'.covered)
      ((daemon.providesScannableBlocks Γ serde json).scannableBlock hash)
      ((daemon'.providesScannableBlocks Γ serde' json').scannableBlock hash)) ∧
    (∀ range range', Call.Related
      (fun blocks blocks' => blocks.getLast?.map (Block.hash Γ) = blocks'.getLast?.map (Block.hash Γ) →
        (blocks <:+ blocks' ∨ blocks' <:+ blocks) ∨ ∃ block ∈ blocks, ∃ block' ∈ blocks', Block.Differ Γ block block')
      ((daemon.providesBlockchain Γ serde json).contiguousBlocks range)
      ((daemon'.providesBlockchain Γ serde' json').contiguousBlocks range')) ∧
    ∀ range range', Call.Related
      (fun blocks blocks' =>
        (blocks.map ScannableBlock.covered).getLast?.map (fun x => x.1.hash Γ) =
          (blocks'.map ScannableBlock.covered).getLast?.map (fun x => x.1.hash Γ) →
        (blocks.map ScannableBlock.covered <:+ blocks'.map ScannableBlock.covered ∨
          blocks'.map ScannableBlock.covered <:+ blocks.map ScannableBlock.covered) ∨
        ∃ block ∈ blocks.map ScannableBlock.covered, ∃ block' ∈ blocks'.map ScannableBlock.covered, CoveredDiffer Γ block block')
      ((daemon.providesScannableBlocks Γ serde json).contiguousScannableBlocks range)
      ((daemon'.providesScannableBlocks Γ serde' json').contiguousScannableBlocks range') := by
  refine ⟨fun hash => ?_, fun hash => ?_, fun range range' => ?_, fun range range' => ?_⟩
  · exact (returns_block hash).related (returns_block hash) fun block block' h h' =>
      Block.eq_or_differ h.1 h'.1 (h.2.trans h'.2.symm)
  · exact (returns_scannableBlock hash).related (returns_scannableBlock hash) fun block block' h h' =>
      h.1.eq_or_differ h'.1 (h.2.trans h'.2.symm)
  · exact (returns_contiguousBlocks range).related (returns_contiguousBlocks range') fun blocks blocks' h h' hlast =>
      suffix_of_last (fun _ _ => Block.eq_or_differ) h.1 h'.1 h.2 h'.2 hlast
  · exact (returns_contiguousScannableBlocks range).related (returns_contiguousScannableBlocks range') fun blocks blocks' h h' hlast =>
      suffix_of_last (fun _ _ => CoveredReturned.eq_or_differ) h.1 h'.1 h.2 h'.2 hlast

/-- Two daemons agree on transactions: for the same hashes they return the same transactions, and the same pruned ones. Otherwise two
transactions have one hash and differ. -/
theorem transactions_agree (Γ : Ctx) (json json' : JsonAnswers) (daemon : MoneroDaemon σ) (daemon' : MoneroDaemon σ')
    (hashes : List (Bytes 32)) :
    Call.Related (fun txs txs' => txs = txs' ∨ ∃ tx ∈ txs, ∃ tx' ∈ txs', Transaction.Differ Γ tx tx')
      ((daemon.providesTransactions Γ json).transactions hashes) ((daemon'.providesTransactions Γ json').transactions hashes) ∧
    Call.Related (fun txs txs' => txs = txs' ∨ ∃ tx ∈ txs, ∃ tx' ∈ txs', PrunedDiffer Γ tx tx')
      ((daemon.providesTransactions Γ json).prunedTransactions hashes)
      ((daemon'.providesTransactions Γ json').prunedTransactions hashes) := by
  constructor
  · refine (returns_transactions hashes).related (returns_transactions hashes) fun txs txs' =>
      Lists.eq_or_exists_of_forall₂ fun tx tx' hash h h' => ?_
    exact Transaction.eq_or_differ h.1 h'.1 (h.2.trans h'.2.symm)
  · exact (returns_prunedTransactions hashes).related (returns_prunedTransactions hashes) fun txs txs' =>
      Lists.eq_or_exists_of_forall₂ (R := PrunedReturned Γ) fun _ _ _ => PrunedReturned.eq_or_differ

end MoneroDaemon

end MoneroOxide
