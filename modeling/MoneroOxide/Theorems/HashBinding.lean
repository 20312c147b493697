import MoneroOxide.Lemmas.HashBinding
import MoneroOxide.Lemmas.Instance

/-!
# What the hashes bind

A transaction, a block and what is signed are known by a hash. Two that have one hash are equal, unless two different strings among
those which were hashed for them, a handful for a transaction and one for each pair of branches of a block, have one hash: whoever
is told a hash can only be shown one preimage of it, or a collision of the hash function. What the hashes leave open beside that is
stated: the amount of leaves of a Merkle tree, the version of a transaction, and the block whose hash is not its own.
-/

namespace MoneroOxide

open Digest PerfectTree

/-- The perfect tree over the branches of the unbalanced level has the root of the tree. -/
theorem merkleRoot_merkleRound (Γ : Ctx) {leaves : List (Bytes 32)} (h : 2 < leaves.length) :
    let round := merkleRound (fun left right : Bytes 32 => Γ.keccak256 (left.toList ++ right.toList)) (leaves.length - 1).log2 leaves
    round.length < leaves.length ∧ merkleRoot Γ round = merkleRoot Γ leaves := by
  intro round
  set pair := fun left right : Bytes 32 => Γ.keccak256 (left.toList ++ right.toList) with hpair
  set k := (leaves.length - 1).log2 with hk
  obtain ⟨hroot, hlen⟩ := merkleRoot_eq_root Γ (List.ne_nil_of_length_pos (by omega : 0 < leaves.length))
  obtain ⟨hlow, -⟩ := log2_pred_spec (show 1 < leaves.length by omega)
  have hround : round.length = 2 ^ k := hlen
  refine ⟨by rw [hround]; exact hlow, ?_⟩
  -- There is more than one branch, so that the level above is perfect again.
  obtain ⟨j, hj⟩ : ∃ j, k = j + 1 := by
    refine Nat.exists_eq_add_one_of_ne_zero fun h0 => ?_
    have := Nat.lt_log2_self (n := leaves.length - 1)
    rw [← hk, h0] at this
    omega
  have hpos := Nat.two_pow_pos j
  have hlog : (round.length - 1).log2 = j := by
    rw [hround, hj, Nat.pow_succ']
    refine (Nat.log2_eq_iff (by omega)).2 ⟨by omega, by rw [Nat.pow_succ']; omega⟩
  obtain ⟨hroot', -⟩ := merkleRoot_eq_root Γ (List.ne_nil_of_length_pos (by rw [hround]; exact Nat.two_pow_pos k : 0 < round.length))
  have hperfect : merkleRound pair j round = pairUp pair round := by
    rw [merkleRound, hround, hj, Nat.pow_succ', Nat.sub_self, List.take_zero, List.drop_zero, List.nil_append]
  rw [hroot', hroot, hlog, ← hk, hperfect, ← root_succ, ← hj]

/-- A Merkle root binds as many leaves as there are, and not how many: over more than two leaves, a tree over fewer has the root. -/
theorem merkleRoot_binds (Γ : Ctx) :
    (∀ leaves leaves' : List (Bytes 32), leaves.length = leaves'.length → merkleRoot Γ leaves = merkleRoot Γ leaves' →
      leaves = leaves' ∨ Collide Γ.keccak256 (merkleHashed Γ leaves) (merkleHashed Γ leaves')) ∧
    ∀ leaves : List (Bytes 32), 2 < leaves.length →
      ∃ branches : List (Bytes 32), branches.length < leaves.length ∧ merkleRoot Γ branches = merkleRoot Γ leaves :=
  ⟨fun leaves leaves' hlen h => binding_merkleRoot Γ leaves.length leaves leaves' rfl hlen.symm h,
    fun _ h => ⟨_, merkleRoot_merkleRound Γ h⟩⟩

/-- Two transactions which were read and have one hash are equal, or their versions differ while they are hashed as one string, or
the hash function collides on the strings hashed for them. -/
theorem transaction_hash_binds (Γ : Ctx) {tx tx' : Transaction NotPruned} {s s' rest rest' : List UInt8}
    (htx : Transaction.read NotPruned s = .ok tx rest) (htx' : Transaction.read NotPruned s' = .ok tx' rest')
    (h : tx.hash Γ = tx'.hash Γ) :
    tx = tx' ∨ Transaction.Confused Γ tx tx' ∨ Collide Γ.keccak256 (tx.hashed Γ) (tx'.hashed Γ) := by
  have hreads := Transaction.reads_read NotPruned.codec
  rcases Transaction.binding_hash Γ tx tx' (hreads.valid htx) (hreads.valid htx') h with (he | hconfused) | hc
  · exact Or.inl he
  · exact Or.inr (Or.inl hconfused)
  · exact Or.inr (Or.inr hc)

/-- Two miner transactions, of blocks 5 and 6, in a context in which every hash is the same: the strings they are hashed as collide. -/
theorem transaction_hash_binds_miner : ∃ tx tx' : Transaction NotPruned,
    Transaction.read NotPruned [1, 0, 1, 255, 5, 0, 0] = .ok tx [] ∧ Transaction.read NotPruned [1, 0, 1, 255, 6, 0, 0] = .ok tx' [] ∧
      (tx = tx' ∨ Transaction.Confused instanceCtx tx tx' ∨
        Collide instanceCtx.keccak256 (tx.hashed instanceCtx) (tx'.hashed instanceCtx)) :=
  ⟨.V1 ⟨.None, [.Gen 5], [], []⟩ [], .V1 ⟨.None, [.Gen 6], [], []⟩ [], rfl, rfl,
    transaction_hash_binds instanceCtx (show Transaction.read NotPruned [1, 0, 1, 255, 5, 0, 0] = .ok _ [] from rfl)
      (show Transaction.read NotPruned [1, 0, 1, 255, 6, 0, 0] = .ok _ [] from rfl) rfl⟩

/-- The hash which is signed is that of two transactions exactly when they are equal up to their signatures, with the exceptions of
the hash itself: their prefixes, bases and range proofs are. -/
theorem signatureHash_binds (Γ : Ctx) {tx tx' : Transaction NotPruned} (hreadable : tx.Readable NotPruned.codec)
    (hreadable' : tx'.Readable NotPruned.codec) (hbalanced : tx.LRBalanced) (hbalanced' : tx'.LRBalanced)
    (hsigned : tx.signatureHash Γ ≠ none) (hsigned' : tx'.signatureHash Γ ≠ none)
    (hcollide : ¬Collide Γ.keccak256 (tx.signatureHashed Γ) (tx'.signatureHashed Γ))
    (hconfused : ¬Transaction.SignatureConfused Γ tx tx') :
    tx.signatureHash Γ = tx'.signatureHash Γ ↔ tx.toPruned = tx'.toPruned ∧ tx.rangeProofs = tx'.rangeProofs := by
  have hinput : ∀ tx : Transaction NotPruned, tx.signatureHash Γ ≠ none → tx.signatureInput Γ ≠ none := by
    intro tx h hnone
    rw [Transaction.signatureHash_eq, hnone] at h
    exact h rfl
  constructor
  · intro h
    rcases Transaction.binding_signatureHash Γ tx tx' ⟨hreadable, hbalanced, hinput tx hsigned⟩
        ⟨hreadable', hbalanced', hinput tx' hsigned'⟩ h with (he | hc) | hc
    · exact he
    · exact absurd hc hconfused
    · exact absurd hc hcollide
  · rintro ⟨hpruned, hproofs⟩
    exact Transaction.signatureHash_congr Γ hpruned hproofs

/-- A spend of version 1 with a ring of one member, and the signature for it. -/
def spendV1 (sig : Signature) : Transaction NotPruned :=
  .V1 ⟨.None, [.ToKey (some 1) [1] (Bytes.replicate 32 0)], [], []⟩ [⟨[sig]⟩]

theorem readable_spendV1 (sig : Signature) : (spendV1 sig).Readable NotPruned.codec := by
  refine ⟨⟨trivial, List.cons_ne_nil _ _, by decide, ?_, ?_, nofun, ?_⟩, ?_⟩
  · intro input h
    rw [List.mem_singleton.1 h]
    exact ⟨by decide, by decide⟩
  · exact (lengthOk_some (by decide)).2 (Nat.zero_le TransactionPrefix.NON_MINER_OUTPUTS_UPPER_BOUND)
  · exact (lengthOk_some (by decide)).2 (Nat.zero_le NON_MINER_SIZE_UPPER_BOUND)
  · exact .cons rfl .nil

/-- Two spends which differ in their signatures are signed as one. -/
theorem signatureHash_binds_spend :
    (spendV1 ⟨0, 0⟩).signatureHash instanceCtx = (spendV1 ⟨0, 1⟩).signatureHash instanceCtx ↔
      (spendV1 ⟨0, 0⟩).toPruned = (spendV1 ⟨0, 1⟩).toPruned ∧ (spendV1 ⟨0, 0⟩).rangeProofs = (spendV1 ⟨0, 1⟩).rangeProofs := by
  refine signatureHash_binds instanceCtx (readable_spendV1 _) (readable_spendV1 _) nofun nofun nofun nofun ?_ ?_
  · rintro ⟨p, hp, q, hq, hne, -⟩
    exact hne ((List.mem_singleton.1 hp).trans (List.mem_singleton.1 hq).symm)
  · exact fun h => h.1 rfl

/-- Two blocks which were read and have one hash are equal, or the hash function collides on the strings hashed for them, or it is
one of what the hash leaves open: the version of the miner transaction, and block 202612. -/
theorem block_hash_binds (Γ : Ctx) {block block' : Block} {s s' rest rest' : List UInt8}
    (hblock : Block.read s = .ok block rest) (hblock' : Block.read s' = .ok block' rest') (h : block.hash Γ = block'.hash Γ) :
    block = block' ∨ Collide Γ.keccak256 (block.hashed Γ) (block'.hashed Γ) ∨
      Transaction.Confused Γ block.minerTransaction block'.minerTransaction ∨
      Block.Swapped202612 Γ block block' ∨ Block.Swapped202612 Γ block' block := by
  rcases Block.binding_hash Γ block block' (Block.reads_read.valid hblock) (Block.reads_read.valid hblock') h with
    (he | hopen) | hc
  · exact Or.inl he
  · exact Or.inr (Or.inr hopen)
  · exact Or.inr (Or.inl hc)

/-- An empty block, with a timestamp. -/
def emptyBlock (timestamp : UInt64) : Block where
  header := { hardforkVersion := 1, hardforkSignal := 0, timestamp, previous := Bytes.replicate 32 0, nonce := 0 }
  minerTransaction := .V1 ⟨.None, [.Gen 5], [], []⟩ []
  transactions := []
  isMiner := rfl

theorem readable_emptyBlock (timestamp : UInt64) : (emptyBlock timestamp).Readable := by
  refine ⟨(Transaction.reads_read NotPruned.codec).valid
    (show Transaction.read NotPruned [1, 0, 1, 255, 5, 0, 0] = .ok _ [] from rfl), (by decide : 0 < Block.MAX_TRANSACTIONS)⟩

/-- Two empty blocks, in a context in which every hash is the same. -/
theorem block_hash_binds_empty :
    emptyBlock 1 = emptyBlock 2 ∨ Collide instanceCtx.keccak256 ((emptyBlock 1).hashed instanceCtx) ((emptyBlock 2).hashed instanceCtx) ∨
      Transaction.Confused instanceCtx (emptyBlock 1).minerTransaction (emptyBlock 2).minerTransaction ∨
      Block.Swapped202612 instanceCtx (emptyBlock 1) (emptyBlock 2) ∨ Block.Swapped202612 instanceCtx (emptyBlock 2) (emptyBlock 1) :=
  block_hash_binds instanceCtx (Block.reads_read.read_back (readable_emptyBlock 1) [])
    (Block.reads_read.read_back (readable_emptyBlock 2) []) rfl

end MoneroOxide
