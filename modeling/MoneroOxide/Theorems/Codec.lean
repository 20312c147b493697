import MoneroOxide.Transaction

/-!
# The encoding of transactions, and pruning

The codec is byte-exact for transactions with and without the prunable data. A pruned transaction is the transaction it was
pruned from up to the data that was dropped: the two encodings, the hashes and the two ways to prune agree.
-/

namespace MoneroOxide

/-- Reading a transaction takes off the input exactly what writing it gives, and a transaction that was ever read is read back
from what it is written as, whatever follows. -/
theorem transaction_byteExact :
    Reader.ByteExact (Transaction.read NotPruned) Transaction.write ∧
    Reader.ByteExact (Transaction.read Pruned) Transaction.write :=
  ⟨(Transaction.reads_read NotPruned.codec).byteExact, (Transaction.reads_read Pruned.codec).byteExact⟩

namespace PruningAux

open Transaction

/-- The encoding of a transaction is that of the pruned one followed by the data pruned. -/
theorem write_eq_pruned_append (tx : Transaction NotPruned) :
    tx.write = tx.prunedWithPrunable.1.write ++ tx.prunedWithPrunable.2 := by
  cases tx with
  | V1 txPrefix signatures =>
    show VarInt.write 1 ++ (txPrefix.write ++ writeRawVec RingSignature.write signatures) =
      VarInt.write 1 ++ (txPrefix.write ++ []) ++ writeRawVec RingSignature.write signatures
    simp only [List.append_nil, List.append_assoc]
  | V2 txPrefix proofs =>
    cases proofs with
    | none => exact (List.append_nil _).symm
    | some proofs =>
      show VarInt.write 2 ++ (txPrefix.write ++ RctProofs.write proofs) =
        VarInt.write 2 ++ (txPrefix.write ++ RctBase.write (RctProofs.base proofs) (RctProofs.rctType proofs)) ++
          RctPrunable.write (RctProofs.prunable proofs) (RctProofs.rctType proofs)
      simp only [RctProofs.write, List.append_assoc]

/-- The two ways to prune a transaction agree. -/
theorem prunedWithPrunable_fst (tx : Transaction NotPruned) : tx.prunedWithPrunable.1 = tx.toPruned := by
  cases tx <;> rfl

/-- Pruning a transaction that can be read gives one that can be read. -/
theorem readable_toPruned {tx : Transaction NotPruned} (h : tx.Readable NotPruned.codec) :
    tx.toPruned.Readable Pruned.codec := by
  cases tx with
  | V1 txPrefix signatures =>
    refine ⟨h.1, ?_⟩
    split
    · rfl
    · trivial
  | V2 txPrefix proofs =>
    refine ⟨h.1, ?_⟩
    intro p hp
    obtain ⟨proofs', hproofs, rfl⟩ := Option.map_eq_some_iff.1 hp
    exact (h.2 proofs' hproofs).1

/-- The hash of a version 2 transaction is that of the pruned one with the hash of the data pruned. -/
theorem hash_eq_pruned (Γ : Ctx) (txPrefix : TransactionPrefix) (proofs : Option RctProofs) {h : Bytes 32}
    (hh : (V2 txPrefix proofs : Transaction NotPruned).prunableHash Γ = some h) :
    (V2 txPrefix proofs : Transaction NotPruned).toPruned.hashWithPrunableHash Γ h =
      some ((V2 txPrefix proofs : Transaction NotPruned).hash Γ) := by
  cases proofs with
  | none =>
    cases hh
    rfl
  | some proofs =>
    cases hh
    rfl

end PruningAux

open PruningAux in
/-- Pruning a transaction loses nothing but the data it returns. -/
theorem pruning_coherent (Γ : Ctx) (tx : Transaction NotPruned) :
    tx.write = tx.prunedWithPrunable.1.write ++ tx.prunedWithPrunable.2 ∧
    tx.prunedWithPrunable.1 = tx.toPruned ∧
    (∀ txPrefix proofs, tx = .V2 txPrefix proofs → ∃ h, tx.prunableHash Γ = some h ∧
      h = (if proofs.isSome then Γ.keccak256 tx.prunedWithPrunable.2 else Bytes.replicate 32 0) ∧
      tx.prunedWithPrunable.1.hashWithPrunableHash Γ h = some (tx.hash Γ)) ∧
    ((∃ s rest, Transaction.read NotPruned s = .ok tx rest) →
      Transaction.read Pruned tx.prunedWithPrunable.1.write = .ok tx.prunedWithPrunable.1 []) := by
  refine ⟨write_eq_pruned_append tx, prunedWithPrunable_fst tx, ?_, ?_⟩
  · rintro txPrefix proofs rfl
    obtain ⟨h, hh⟩ := Option.isSome_iff_exists.1 (Transaction.isSome_prunableHash Γ txPrefix proofs)
    refine ⟨h, hh, ?_, ?_⟩
    · cases proofs with
      | none =>
        cases hh
        rfl
      | some proofs =>
        cases hh
        rfl
    · rw [prunedWithPrunable_fst]
      exact hash_eq_pruned Γ txPrefix proofs hh
  · rintro ⟨s, rest, hread⟩
    have hreadable := readable_toPruned ((Transaction.reads_read NotPruned.codec).valid hread)
    rw [prunedWithPrunable_fst]
    simpa using (Transaction.reads_read Pruned.codec).read_back hreadable []

end MoneroOxide
