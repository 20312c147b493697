import MoneroOxide.Interface
import MoneroOxide.Lib.Lists

/-!
# What the checks of the interfaces accept

One statement for each loop of `Interface.lean`. The first loop over pruned transactions keeps the invariant `Verified.Inv`:
each transaction collected is checked against its hash as far as its version allows, and the indexes and hashes collected beside
them are those of the transactions of version 1. The checks of blocks meet the rest of the development at `MatchesRange`.
-/

namespace MoneroOxide

/-! ## Transactions -/

/-- What is known of a pruned transaction returned for a hash: of version 2, the hash is its own for some prunable hash, which is
zero without proofs; of version 1, it is the pruning of a full transaction with that hash. -/
def PrunedFor (Γ : Ctx) (tx : Transaction Pruned) (hash : Bytes 32) : Prop :=
  match tx with
  | .V1 .. => ∃ full : Transaction NotPruned, full.hash Γ = hash ∧ full.toPruned = tx
  | .V2 _ proofs => ∃ prunableHash, tx.hashWithPrunableHash Γ prunableHash = some hash ∧
      (proofs = none → prunableHash = Bytes.replicate 32 0)

/-- A transaction which is verified as far as possible is, unless it is of version 1, what was asked for. -/
theorem verifyAsPossible_ok {Γ : Ctx} {tx : PrunedTransactionWithPrunableHash} {hash : Bytes 32} {verified : Transaction Pruned}
    (h : tx.verifyAsPossible Γ hash = .ok verified) : verified.isV1 = true ∨ PrunedFor Γ verified hash := by
  obtain ⟨transaction, prunableHash, ok⟩ := tx
  cases transaction with
  | V1 txPrefix signatures =>
    have hnone : prunableHash = none := ok
    subst hnone
    simp only [PrunedTransactionWithPrunableHash.verifyAsPossible, Except.ok.injEq] at h
    rw [← h]
    exact Or.inl rfl
  | V2 txPrefix proofs =>
    cases prunableHash with
    | none => exact absurd ok.1 Bool.false_ne_true
    | some prunableHash =>
      simp only [PrunedTransactionWithPrunableHash.verifyAsPossible] at h
      split at h
      · cases h
      · rename_i heq
        rw [Except.ok.injEq] at h
        rw [← h]
        refine Or.inr ⟨prunableHash, ?_, fun hnone => ?_⟩
        · rw [← not_not.1 heq]
          exact (Option.some_get _).symm
        · simpa using ok.2 hnone

/-- The loop over the transactions and the hashes they were requested by accepts those with these hashes. -/
theorem checkHashes_ok {Γ : Ctx} {txs : List (Transaction NotPruned × Bytes 32)} :
    checkHashes Γ txs = .ok () ↔ ∀ x ∈ txs, x.1.hash Γ = x.2 := by
  induction txs with
  | nil => simp [checkHashes]
  | cons x txs ih =>
    obtain ⟨tx, hash⟩ := x
    rw [checkHashes]
    by_cases h : tx.hash Γ = hash
    · rw [if_neg (not_not.2 h), ih]
      simp [h]
    · rw [if_pos h]
      simp [h]

/-- The second loop accepts the full transactions whose prunings are at the indexes collected. -/
theorem checkV1Loop_ok {txs : List (Transaction Pruned)} {v1 : List ((ℕ × Bytes 32) × Transaction NotPruned)} :
    checkV1Loop txs v1 = .ok () ↔ ∀ x ∈ v1, txs[x.1.1]? = some x.2.toPruned := by
  induction v1 with
  | nil => simp [checkV1Loop]
  | cons x v1 ih =>
    obtain ⟨⟨i, hash⟩, tx⟩ := x
    simp only [checkV1Loop, List.mem_cons, forall_eq_or_imp]
    cases hi : txs[i]? with
    | none => simp
    | some prunedTx =>
      by_cases h : tx.toPruned = prunedTx
      · simp [h, ih]
      · simp [h, Ne.symm h]

/-- What the first loop of `validate_pruned_transactions` keeps, over the hashes gone through. -/
structure Verified.Inv (Γ : Ctx) (hashes : List (Bytes 32)) (verified : Verified) : Prop where
  txs : List.Forall₂ (fun tx hash => tx.isV1 = true ∨ PrunedFor Γ tx hash) verified.txs hashes
  lengths : verified.v1Indexes.length = verified.v1Hashes.length
  collected : ∀ i tx hash, verified.txs[i]? = some tx → hashes[i]? = some hash → tx.isV1 = true →
    (i, hash) ∈ verified.v1Indexes.zip verified.v1Hashes
  present : ∀ i hash, (i, hash) ∈ verified.v1Indexes.zip verified.v1Hashes → hashes[i]? = some hash

/-- What one round of the first loop does to what was collected. -/
def Verified.push (verified : Verified) (tx : Transaction Pruned) (hash : Bytes 32) : Verified where
  txs := verified.txs ++ [tx]
  v1Indexes := if tx.isV1 then verified.v1Indexes ++ [verified.txs.length] else verified.v1Indexes
  v1Hashes := if tx.isV1 then verified.v1Hashes ++ [hash] else verified.v1Hashes

theorem Verified.zip_push {verified : Verified} (h : verified.v1Indexes.length = verified.v1Hashes.length)
    (tx : Transaction Pruned) (hash : Bytes 32) :
    (verified.push tx hash).v1Indexes.zip (verified.push tx hash).v1Hashes =
      verified.v1Indexes.zip verified.v1Hashes ++ if tx.isV1 then [(verified.txs.length, hash)] else [] := by
  unfold Verified.push
  by_cases hv : tx.isV1 = true
  · simp only [hv, if_true]
    exact List.zip_append h
  · simp only [hv, Bool.false_eq_true, if_false, List.append_nil]

theorem Verified.Inv.push {Γ : Ctx} {hashes : List (Bytes 32)} {verified : Verified} (hi : verified.Inv Γ hashes)
    {tx : Transaction Pruned} {hash : Bytes 32} (ht : tx.isV1 = true ∨ PrunedFor Γ tx hash) :
    (verified.push tx hash).Inv Γ (hashes ++ [hash]) where
  txs := List.rel_append hi.txs (.cons ht .nil)
  lengths := by
    unfold Verified.push
    by_cases hv : tx.isV1 = true <;> simp [hv, hi.lengths]
  collected := by
    intro i tx' hash' htx hhash hv1
    have hlen := hi.txs.length_eq
    rw [Verified.zip_push hi.lengths, List.mem_append]
    rcases lt_or_ge i verified.txs.length with h | h
    · left
      refine hi.collected i tx' hash' ?_ ?_ hv1
      · rwa [Verified.push, List.getElem?_append_left h] at htx
      · rwa [List.getElem?_append_left (by omega)] at hhash
    · right
      rw [Verified.push, List.getElem?_append_right h, List.getElem?_singleton] at htx
      rw [List.getElem?_append_right (by omega), List.getElem?_singleton] at hhash
      have hi' : i = verified.txs.length := by
        by_contra hne
        rw [if_neg (by omega)] at htx
        cases htx
      rw [if_pos (by omega), Option.some.injEq] at htx hhash
      rw [htx, hv1, if_pos rfl, hi', hhash]
      exact List.mem_singleton_self _
  present := by
    intro i hash' h
    have hlen := hi.txs.length_eq
    rw [Verified.zip_push hi.lengths, List.mem_append] at h
    rcases h with h | h
    · have := hi.present i hash' h
      rw [List.getElem?_append_left]
      · exact this
      · exact (List.getElem?_eq_some_iff.1 this).1
    · by_cases hv : tx.isV1 = true
      · rw [if_pos hv, List.mem_singleton, Prod.mk.injEq] at h
        obtain ⟨rfl, rfl⟩ := h
        rw [hlen, List.getElem?_concat_length]
      · rw [if_neg hv] at h
        cases h

theorem verifyLoop_cons (Γ : Ctx) (acc : Verified) (tx : PrunedTransactionWithPrunableHash) (hash : Bytes 32)
    (rest : List (PrunedTransactionWithPrunableHash × Bytes 32)) :
    verifyLoop Γ acc ((tx, hash) :: rest) =
      match tx.verifyAsPossible Γ hash with
      | .ok tx => verifyLoop Γ (acc.push tx hash) rest
      | .error actual => .error (wrongTransaction actual hash) := rfl

/-- The first loop keeps its invariant. -/
theorem verifyLoop_inv {Γ : Ctx} {pairs : List (PrunedTransactionWithPrunableHash × Bytes 32)} {hashes : List (Bytes 32)}
    {acc verified : Verified} (hi : acc.Inv Γ hashes) (h : verifyLoop Γ acc pairs = .ok verified) :
    verified.Inv Γ (hashes ++ pairs.map Prod.snd) := by
  induction pairs generalizing acc hashes with
  | nil =>
    rw [verifyLoop, Except.ok.injEq] at h
    rw [← h]
    simpa using hi
  | cons x pairs ih =>
    obtain ⟨tx, hash⟩ := x
    rw [verifyLoop_cons] at h
    cases hv : tx.verifyAsPossible Γ hash with
    | error actual =>
      rw [hv] at h
      cases h
    | ok verifiedTx =>
      rw [hv] at h
      have := ih (hi.push (verifyAsPossible_ok hv)) h
      simpa using this

/-- A loop over transactions which are all verified returns them. -/
theorem verifyLoop_of_forall {Γ : Ctx} {pairs : List (PrunedTransactionWithPrunableHash × Bytes 32)}
    {txs : List (Transaction Pruned)}
    (h : List.Forall₂ (fun x tx => x.1.verifyAsPossible Γ x.2 = .ok tx) pairs txs) (acc : Verified) :
    ∃ verified, verifyLoop Γ acc pairs = .ok verified ∧ verified.txs = acc.txs ++ txs := by
  induction h generalizing acc with
  | nil => exact ⟨acc, rfl, by simp⟩
  | @cons x tx pairs txs hx _ ih =>
    obtain ⟨tx', hash⟩ := x
    obtain ⟨verified, he, ht⟩ := ih (acc.push tx hash)
    refine ⟨verified, ?_, ?_⟩
    · rw [verifyLoop_cons, hx]
      exact he
    · rw [ht, Verified.push, List.append_assoc]
      rfl

theorem Verified.inv_nil (Γ : Ctx) : Verified.Inv Γ [] { txs := [], v1Indexes := [], v1Hashes := [] } where
  txs := .nil
  lengths := rfl
  collected := nofun
  present := nofun

/-- The invariant of what the first loop collects from lists of one length. -/
theorem verifyLoop_zip_inv {Γ : Ctx} {unvalidated : List PrunedTransactionWithPrunableHash} {hashes : List (Bytes 32)}
    {verified : Verified} (hlen : unvalidated.length = hashes.length)
    (h : verifyLoop Γ { txs := [], v1Indexes := [], v1Hashes := [] } (unvalidated.zip hashes) = .ok verified) :
    verified.Inv Γ hashes := by
  have := verifyLoop_inv (Verified.inv_nil Γ) h
  rwa [List.map_snd_zip (by omega), List.nil_append] at this

/-- With full transactions of the hashes collected, which the second loop accepts, each transaction is what was asked for. -/
theorem Verified.Inv.prunedFor {Γ : Ctx} {hashes : List (Bytes 32)} {verified : Verified} (hi : verified.Inv Γ hashes)
    {fullTxs : List (Transaction NotPruned)} (hfull : List.Forall₂ (fun tx hash => tx.hash Γ = hash) fullTxs verified.v1Hashes)
    (hcheck : checkV1Loop verified.txs ((verified.v1Indexes.zip verified.v1Hashes).zip fullTxs) = .ok ()) :
    List.Forall₂ (PrunedFor Γ) verified.txs hashes := by
  refine List.forall₂_iff_get.2 ⟨hi.txs.length_eq, fun i h1 h2 => ?_⟩
  have htx : verified.txs[i]? = some (verified.txs.get ⟨i, h1⟩) := List.getElem?_eq_getElem h1
  have hhash : hashes[i]? = some (hashes.get ⟨i, h2⟩) := List.getElem?_eq_getElem h2
  rcases Lists.forall₂_getElem? hi.txs htx hhash with hv1 | hfor
  · -- The entry collected for this index is checked against the full transaction at its position.
    obtain ⟨k, hk, hentry⟩ := List.getElem_of_mem (hi.collected i _ _ htx hhash hv1)
    have hlen := hi.lengths
    have hlen' := hfull.length_eq
    have hk' : k < fullTxs.length := by
      rw [List.length_zip] at hk
      omega
    rw [List.getElem_zip, Prod.mk.injEq] at hentry
    have hchecked := checkV1Loop_ok.1 hcheck ((i, hashes.get ⟨i, h2⟩), fullTxs[k]) (by
      refine List.mem_iff_getElem.2 ⟨k, by rw [List.length_zip]; omega, ?_⟩
      rw [List.getElem_zip, List.getElem_zip, hentry.1, hentry.2])
    rw [htx, Option.some.injEq] at hchecked
    have hfullHash : fullTxs[k].hash Γ = hashes.get ⟨i, h2⟩ := by
      rw [← hentry.2]
      exact hfull.get hk' (by omega)
    rw [hchecked] at hv1 ⊢
    unfold PrunedFor
    split
    · exact ⟨fullTxs[k], hfullHash, rfl⟩
    · rename_i heq
      rw [heq] at hv1
      cases hv1
  · exact hfor

/-! ## Blocks -/

/-- The blocks of a range: as many as it has integers, with these numbers, each built on the one before it, and the first block of
the blockchain on nothing. -/
structure MatchesRange (Γ : Ctx) (range : RangeInclusive) (blocks : List Block) : Prop where
  numbers : blocks.map (fun block => block.number.toNat) = range.toList
  previous : blocks.IsChain fun parent block => block.header.previous = parent.hash Γ
  genesis : ∀ block ∈ blocks, block.number.toNat = 0 → block.header.previous = Bytes.replicate 32 0

/-- What the loop of `sanity_check_contiguous_blocks` accepts, with a parent given or none. -/
theorem sanityCheckLoop_ok {Γ : Ctx} {parent : Option (Bytes 32)} {number : ℕ} {blocks : List Block} :
    sanityCheckLoop Γ parent ((List.range' number blocks.length).zip blocks) = .ok () ↔
      blocks.map (fun block => block.number.toNat) = List.range' number blocks.length ∧
      (∀ block ∈ blocks.head?, ∀ hash ∈ parent.or (if number = 0 then some (Bytes.replicate 32 0) else none),
        block.header.previous = hash) ∧
      blocks.IsChain fun parent block => block.header.previous = parent.hash Γ := by
  induction blocks generalizing parent number with
  | nil => simp [sanityCheckLoop]
  | cons block blocks ih =>
    simp only [List.length_cons, List.range'_succ, List.zip_cons_cons, sanityCheckLoop, List.map_cons, List.cons.injEq,
      List.head?_cons, Option.mem_def, Option.some.injEq, forall_eq', List.isChain_cons]
    by_cases hnumber : block.number.toNat = number
    · rw [if_neg (not_not.2 hnumber)]
      cases hparent : parent.or (if number = 0 then some (Bytes.replicate 32 0) else none) with
      | none =>
        simp only [ih, Option.some_or, Option.mem_def, Option.some.injEq, forall_eq', reduceCtorEq, false_implies, implies_true,
          true_and, hnumber]
      | some hash =>
        by_cases heq : hash = block.header.previous
        · simp only [heq, ne_eq, not_true_eq_false, if_false, ih, Option.some_or, Option.mem_def, Option.some.injEq, forall_eq',
            true_and, hnumber]
        · have heq' : ¬block.header.previous = hash := fun h => heq h.symm
          simp [heq, heq']
    · simp [hnumber]

theorem RangeInclusive.length_toList (range : RangeInclusive) :
    range.toList.length = range.stop.toNat + 1 - range.start.toNat := List.length_range'

/-- Blocks which pass the check, as many as the range has integers, are the blocks of the range, and the other way around. -/
theorem sanityCheckContiguousBlocks_ok {Γ : Ctx} {range : RangeInclusive} {blocks : List Block} :
    blocks.length = range.toList.length ∧ sanityCheckContiguousBlocks Γ range blocks = .ok () ↔ MatchesRange Γ range blocks := by
  have hrange : blocks.length = range.toList.length → range.toList = List.range' range.start.toNat blocks.length := by
    intro h
    rw [h, RangeInclusive.length_toList]
    rfl
  constructor
  · intro ⟨hlen, hcheck⟩
    rw [sanityCheckContiguousBlocks, hrange hlen, sanityCheckLoop_ok] at hcheck
    obtain ⟨hnumbers, hhead, hchain⟩ := hcheck
    refine ⟨by rw [hnumbers, hrange hlen], hchain, fun block hblock hzero => ?_⟩
    -- The numbers grow from the start of the range, so that only the first block can have number zero.
    obtain ⟨i, hi, rfl⟩ := List.getElem_of_mem hblock
    have hnumber : blocks[i].number.toNat = range.start.toNat + i := by
      have := congrArg (·[i]?) hnumbers
      simpa [List.getElem?_range', hi] using this
    have hi0 : i = 0 := by omega
    have hs0 : range.start.toNat = 0 := by omega
    subst hi0
    refine hhead blocks[0] (by simp [List.head?_eq_getElem?, hi]) _ ?_
    simp [hs0]
  · intro h
    have hlen : blocks.length = range.toList.length := by rw [← h.numbers, List.length_map]
    refine ⟨hlen, ?_⟩
    rw [sanityCheckContiguousBlocks, hrange hlen, sanityCheckLoop_ok]
    refine ⟨by rw [h.numbers, hrange hlen], fun block hblock hash hhash => ?_, h.previous⟩
    have hmem := List.mem_of_mem_head? hblock
    rw [Option.none_or] at hhash
    by_cases hs0 : range.start.toNat = 0
    · rw [if_pos hs0, Option.mem_def, Option.some.injEq] at hhash
      rw [← hhash]
      refine h.genesis block hmem ?_
      have hfirst := congrArg List.head? h.numbers
      rw [List.head?_map, Option.mem_def.1 hblock, hrange hlen] at hfirst
      cases blocks with
      | nil => cases hblock
      | cons b blocks =>
        rw [List.length_cons, List.range'_succ] at hfirst
        simpa [hs0] using hfirst
    · rw [if_neg hs0] at hhash
      cases hhash

/-- For a range which is not empty and whose integers can be counted, as many blocks are expected as it has integers. -/
theorem RangeInclusive.expectedBlocks_eq {range : RangeInclusive} (hle : range.start ≤ range.stop)
    (hlen : range.toList.length < 2 ^ 64) : range.expectedBlocks = .ok range.toList.length := by
  have hle' : range.start.toNat ≤ range.stop.toNat := UInt64.le_iff_toNat_le.1 hle
  have heq : range.stop.toNat - range.start.toNat + 1 = range.toList.length := by
    rw [RangeInclusive.length_toList]
    omega
  rw [RangeInclusive.expectedBlocks]
  simp only [heq]
  rw [if_pos hlen]

/-- For an empty range one block is expected. -/
theorem RangeInclusive.expectedBlocks_of_lt {range : RangeInclusive} (hlt : range.stop < range.start) :
    range.expectedBlocks = .ok 1 := by
  have hlt' : range.stop.toNat < range.start.toNat := UInt64.lt_iff_toNat_lt.1 hlt
  have heq : range.stop.toNat - range.start.toNat + 1 = 1 := by omega
  rw [RangeInclusive.expectedBlocks]
  simp [heq]

end MoneroOxide
