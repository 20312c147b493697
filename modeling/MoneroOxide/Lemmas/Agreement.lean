import MoneroOxide.Lemmas.DaemonReads
import MoneroOxide.Lemmas.HashBinding
import MoneroOxide.Theorems.Interface

/-!
# What is returned for a hash

Two blocks, or two transactions, which were returned for one hash are equal, or they differ in one of the ways which a hash leaves open
(`Block.Differ`, `Transaction.Differ`, `PrunedDiffer`): the strings hashed for them collide, or they are among the few which are hashed
as one string. For a pruned transaction these strings are known up to what was pruned (`HashedAs`).
-/

namespace MoneroOxide

open Digest

variable {σ : Type}

/-- Two blocks have one hash, and differ. -/
def Block.Differ (Γ : Ctx) (block block' : Block) : Prop :=
  block.hash Γ = block'.hash Γ ∧ block ≠ block' ∧ (Collide Γ.keccak256 (block.hashed Γ) (block'.hashed Γ) ∨
    Transaction.Confused Γ block.minerTransaction block'.minerTransaction ∨ Swapped202612 Γ block block' ∨ Swapped202612 Γ block' block)

theorem Block.eq_or_differ {Γ : Ctx} {block block' : Block} (hblock : block.Readable) (hblock' : block'.Readable)
    (h : block.hash Γ = block'.hash Γ) : block = block' ∨ Differ Γ block block' := by
  by_cases he : block = block'
  · exact Or.inl he
  · rcases binding_hash Γ block block' hblock hblock' h with (he' | hopen) | hc
    · exact absurd he' he
    · exact Or.inr ⟨h, he, Or.inr hopen⟩
    · exact Or.inr ⟨h, he, Or.inl hc⟩

/-- Two transactions have one hash, and differ. -/
def Transaction.Differ (Γ : Ctx) (tx tx' : Transaction NotPruned) : Prop :=
  tx.hash Γ = tx'.hash Γ ∧ tx ≠ tx' ∧ (Collide Γ.keccak256 (tx.hashed Γ) (tx'.hashed Γ) ∨ Confused Γ tx tx')

theorem Transaction.eq_or_differ {Γ : Ctx} {tx tx' : Transaction NotPruned} (htx : tx.Readable NotPruned.codec)
    (htx' : tx'.Readable NotPruned.codec) (h : tx.hash Γ = tx'.hash Γ) : tx = tx' ∨ Differ Γ tx tx' := by
  by_cases he : tx = tx'
  · exact Or.inl he
  · rcases binding_hash Γ tx tx' htx htx' h with (he' | hconfused) | hc
    · exact absurd he' he
    · exact Or.inr ⟨h, he, Or.inr hconfused⟩
    · exact Or.inr ⟨h, he, Or.inl hc⟩

/-! ## Pruned transactions -/

/-- A pruned transaction is hashed as a string, with these strings on the way: of version 1, as one it is the pruning of; of version 2,
with some hash of what was pruned. -/
def HashedAs (Γ : Ctx) (tx : Transaction Pruned) (input : List UInt8) (strings : List (List UInt8)) : Prop :=
  match tx with
  | .V1 .. => ∃ full : Transaction NotPruned, full.Readable NotPruned.codec ∧ full.toPruned = tx ∧ input = full.hashInput Γ ∧
      strings = full.hashed Γ
  | .V2 txPrefix (proofs : Option PrunedRctProofs) => tx.Readable Pruned.codec ∧ ∃ prunableHash,
      input = Transaction.hashInputV2 Γ txPrefix (Transaction.baseWrite proofs) prunableHash ∧
      strings = Transaction.hashedV2 Γ txPrefix (Transaction.baseWrite proofs) prunableHash

theorem HashedAs.mem {Γ : Ctx} {tx : Transaction Pruned} {input : List UInt8} {strings : List (List UInt8)}
    (h : HashedAs Γ tx input strings) : input ∈ strings := by
  cases tx with
  | V1 txPrefix signatures =>
    obtain ⟨full, -, -, rfl, rfl⟩ := h
    exact Transaction.hashInput_mem_hashed Γ full
  | V2 txPrefix proofs =>
    obtain ⟨-, prunableHash, rfl, rfl⟩ := h
    exact List.mem_cons_self

/-- Two pruned transactions have one hash, and differ. -/
def PrunedDiffer (Γ : Ctx) (tx tx' : Transaction Pruned) : Prop :=
  ∃ input strings input' strings', HashedAs Γ tx input strings ∧ HashedAs Γ tx' input' strings' ∧
    Γ.keccak256 input = Γ.keccak256 input' ∧ tx ≠ tx' ∧
      (Collide Γ.keccak256 strings strings' ∨ tx.version ≠ tx'.version ∧ input = input')

/-- A pruned transaction was returned for a hash. -/
def PrunedReturned (Γ : Ctx) (tx : Transaction Pruned) (hash : Bytes 32) : Prop :=
  ∃ input strings, HashedAs Γ tx input strings ∧ Γ.keccak256 input = hash

/-- Pruned transactions which are hashed as strings with one hash are equal, or these strings collide, or the versions differ. -/
theorem HashedAs.binding {Γ : Ctx} {tx tx' : Transaction Pruned} {input input' : List UInt8} {strings strings' : List (List UInt8)}
    (h : HashedAs Γ tx input strings) (h' : HashedAs Γ tx' input' strings') (heq : Γ.keccak256 input = Γ.keccak256 input') :
    tx = tx' ∨ Collide Γ.keccak256 strings strings' ∨ tx.version ≠ tx'.version ∧ input = input' := by
  rcases eq_or_collide h.mem h'.mem heq with hinput | hc
  · by_cases hversion : tx.version = tx'.version
    · cases tx with
      | V1 txPrefix signatures =>
        cases tx' with
        | V2 txPrefix' proofs' => exact absurd hversion (by decide : (1 : UInt8) ≠ 2)
        | V1 txPrefix' signatures' =>
          obtain ⟨full, hfull, htoPruned, rfl, rfl⟩ := h
          obtain ⟨full', hfull', htoPruned', rfl, rfl⟩ := h'
          rw [← Transaction.hash_eq, ← Transaction.hash_eq] at heq
          rcases Transaction.binding_hash Γ full full' hfull hfull' heq with (rfl | hconfused) | hc
          · exact Or.inl (htoPruned.symm.trans htoPruned')
          · cases full <;> cases htoPruned
            cases full' <;> cases htoPruned'
            exact absurd rfl hconfused.1
          · exact Or.inr (Or.inl hc)
      | V2 txPrefix proofs =>
        cases tx' with
        | V1 txPrefix' signatures' => exact absurd hversion (by decide : (2 : UInt8) ≠ 1)
        | V2 txPrefix' proofs' =>
          obtain ⟨hreadable, prunableHash, rfl, rfl⟩ := h
          obtain ⟨hreadable', prunableHash', rfl, rfl⟩ := h'
          rcases Transaction.binding_prunedHash Γ ((txPrefix, proofs), prunableHash) ((txPrefix', proofs'), prunableHash') hreadable
            hreadable' heq with he | hc
          · simp only [Prod.mk.injEq] at he
            obtain ⟨⟨rfl, rfl⟩, -⟩ := he
            exact Or.inl rfl
          · exact Or.inr (Or.inl hc)
    · exact Or.inr (Or.inr ⟨hversion, hinput⟩)
  · exact Or.inr (Or.inl hc)

theorem PrunedReturned.eq_or_differ {Γ : Ctx} {tx tx' : Transaction Pruned} {hash : Bytes 32} (h : PrunedReturned Γ tx hash)
    (h' : PrunedReturned Γ tx' hash) : tx = tx' ∨ PrunedDiffer Γ tx tx' := by
  obtain ⟨input, strings, hashedAs, heq⟩ := h
  obtain ⟨input', strings', hashedAs', heq'⟩ := h'
  by_cases he : tx = tx'
  · exact Or.inl he
  · rcases hashedAs.binding hashedAs' (heq.trans heq'.symm) with he' | hopen
    · exact absurd he' he
    · exact Or.inr ⟨input, strings, input', strings', hashedAs, hashedAs', heq.trans heq'.symm, he, hopen⟩

/-! ## What the checks leave -/

/-- The transactions returned by the first loop are the ones it was given. -/
theorem verifyLoop_txs {Γ : Ctx} {pairs : List (PrunedTransactionWithPrunableHash × Bytes 32)} {acc verified : Verified}
    (h : verifyLoop Γ acc pairs = .ok verified) : verified.txs = acc.txs ++ pairs.map fun pair => pair.1.transaction := by
  induction pairs generalizing acc with
  | nil =>
    cases h
    exact (List.append_nil _).symm
  | cons pair pairs ih =>
    obtain ⟨tx, hash⟩ := pair
    rw [verifyLoop_cons] at h
    cases hv : tx.verifyAsPossible Γ hash with
    | error actual =>
      rw [hv] at h
      cases h
    | ok verifiedTx =>
      rw [hv] at h
      have htx : verifiedTx = tx.transaction := by
        obtain ⟨transaction, _ | prunableHash, ok⟩ := tx
        · cases hv
          rfl
        · simp only [PrunedTransactionWithPrunableHash.verifyAsPossible] at hv
          split at hv <;> cases hv
          rfl
      rw [ih h, Verified.push, htx, List.append_assoc]
      rfl

/-- A transaction of version 1 which passed both loops is the pruning of one of the full transactions, which has its hash. -/
theorem Verified.Inv.exists_full {Γ : Ctx} {hashes : List (Bytes 32)} {verified : Verified} (hi : verified.Inv Γ hashes)
    {fullTxs : List (Transaction NotPruned)} {P : Transaction NotPruned → Prop}
    (hfull : List.Forall₂ (fun tx hash => P tx ∧ tx.hash Γ = hash) fullTxs verified.v1Hashes)
    (hcheck : checkV1Loop verified.txs ((verified.v1Indexes.zip verified.v1Hashes).zip fullTxs) = .ok ()) {i : ℕ}
    {tx : Transaction Pruned} {hash : Bytes 32} (htx : verified.txs[i]? = some tx) (hhash : hashes[i]? = some hash)
    (hv1 : tx.isV1 = true) : ∃ full, P full ∧ full.hash Γ = hash ∧ full.toPruned = tx := by
  obtain ⟨k, hk⟩ := List.getElem?_of_mem (hi.collected i tx hash htx hhash hv1)
  obtain ⟨hk1, hk2⟩ := List.getElem?_zip_eq_some.1 hk
  obtain ⟨hlt, -⟩ := List.getElem?_eq_some_iff.1 hk2
  have hlt' : k < fullTxs.length := by
    rw [hfull.length_eq]
    exact hlt
  have hget : fullTxs[k]? = some fullTxs[k] := List.getElem?_eq_getElem hlt'
  obtain ⟨hP, hfullHash⟩ := Lists.forall₂_getElem? hfull hget hk2
  have hchecked := checkV1Loop_ok.1 hcheck ((i, hash), fullTxs[k])
    (List.mem_of_getElem? (List.getElem?_zip_eq_some.2 ⟨hk, hget⟩))
  rw [htx, Option.some.injEq] at hchecked
  exact ⟨fullTxs[k], hP, hfullHash, hchecked.symm⟩

section Validated

variable {Γ : Ctx} {P : ProvidesUnvalidatedTransactions σ}

/-- The transactions which an interface provides can be read. -/
def ReadsTransactions (P : ProvidesUnvalidatedTransactions σ) : Prop :=
  ∀ hashes, Call.Returns (fun txs => ∀ tx ∈ txs, Transaction.Readable NotPruned.codec tx) (P.transactions hashes)

theorem returns_validTransactions (hP : ReadsTransactions P) (hashes : List (Bytes 32)) :
    Call.Returns (fun txs => List.Forall₂ (fun tx hash => Transaction.Readable NotPruned.codec tx ∧ tx.hash Γ = hash) txs hashes)
      (P.validTransactions Γ hashes) := by
  intro s txs t h
  have hhashes := validTransactions_sound h
  unfold ProvidesUnvalidatedTransactions.validTransactions at h
  simp only [Call.bind_ok, Call.ite_ok, Call.throw_ok, and_false, false_or, Call.ofExcept_ok, Call.pure_ok] at h
  obtain ⟨txs', u, htxs, -, -, v, -, rfl, -⟩ := h
  exact (List.forall₂_and_left txs' hashes).2 ⟨hP hashes s txs' u htxs, hhashes⟩

/-- Pruned transactions which passed the checks were returned for their hashes. -/
theorem returns_validatePrunedTransactions (hP : ReadsTransactions P) {unvalidated : List PrunedTransactionWithPrunableHash}
    (hunvalidated : ∀ tx ∈ unvalidated, tx.Readable) (hashes : List (Bytes 32)) :
    Call.Returns (fun txs => List.Forall₂ (PrunedReturned Γ) txs hashes)
      (validatePrunedTransactions Γ (P.validTransactions Γ) unvalidated hashes) := by
  intro s txs t h
  have hsound := validatePrunedTransactions_sound h
  unfold validatePrunedTransactions at h
  simp only [Call.bind_ok, Call.ite_ok, Call.throw_ok, and_false, false_or, Call.ofExcept_ok, Call.pure_ok, not_not] at h
  obtain ⟨hlen, verified, u, ⟨hloop, -⟩, hrest⟩ := h
  have hinv := verifyLoop_zip_inv hlen hloop
  have hreadable : ∀ tx ∈ verified.txs, tx.Readable Pruned.codec := by
    intro tx htx
    rw [verifyLoop_txs hloop, List.nil_append, List.mem_map] at htx
    obtain ⟨pair, hpair, rfl⟩ := htx
    exact hunvalidated pair.1 (List.of_mem_zip hpair).1
  obtain ⟨fullTxs, hfull, hcheck⟩ : ∃ fullTxs, List.Forall₂
      (fun (tx : Transaction NotPruned) hash => tx.Readable NotPruned.codec ∧ tx.hash Γ = hash) fullTxs verified.v1Hashes ∧
      checkV1Loop verified.txs ((verified.v1Indexes.zip verified.v1Hashes).zip fullTxs) = .ok () := by
    rcases hrest with ⟨-, fullTxs, v, hfull, ⟨⟩, w, ⟨hcheck, -⟩, -⟩ | ⟨hempty, -⟩
    · exact ⟨fullTxs, returns_validTransactions hP verified.v1Hashes u fullTxs v hfull, hcheck⟩
    · have hhashes : verified.v1Hashes = [] := by
        rw [← List.length_eq_zero_iff, ← hinv.lengths, hempty, List.length_nil]
      refine ⟨[], ?_, ?_⟩
      · rw [hhashes]
        exact .nil
      · rw [hempty]
        rfl
  obtain rfl : verified.txs = txs := by
    rcases hrest with ⟨-, _, _, -, ⟨⟩, _, -, rfl, -⟩ | ⟨-, rfl, -⟩ <;> rfl
  refine List.forall₂_iff_get.2 ⟨hsound.length_eq, fun i h1 h2 => ?_⟩
  have htx : verified.txs[i]? = some (verified.txs.get ⟨i, h1⟩) := List.getElem?_eq_getElem h1
  have hhash : hashes[i]? = some (hashes.get ⟨i, h2⟩) := List.getElem?_eq_getElem h2
  have hfor := hsound.get h1 h2
  have hread := hreadable _ (List.get_mem verified.txs ⟨i, h1⟩)
  cases hcase : verified.txs.get ⟨i, h1⟩ with
  | V1 txPrefix signatures =>
    rw [hcase] at htx
    obtain ⟨full, hfullReadable, hfullHash, htoPruned⟩ := hinv.exists_full hfull hcheck htx hhash rfl
    exact ⟨_, _, ⟨full, hfullReadable, htoPruned, rfl, rfl⟩, by rw [← Transaction.hash_eq, hfullHash]⟩
  | V2 txPrefix proofs =>
    rw [hcase] at hfor hread
    obtain ⟨prunableHash, hhashed, -⟩ := hfor
    have hkeccak := (Transaction.hashWithPrunableHash_V2 Γ txPrefix proofs prunableHash).symm.trans hhashed
    exact ⟨_, _, ⟨hread, prunableHash, rfl, rfl⟩, Option.some.inj hkeccak⟩

end Validated

end MoneroOxide
