import MoneroOxide.Block

/-!
# The encoding of blocks

The codec of blocks is byte-exact, with the transaction of the miner in the middle of it, and nothing of a block panics.
-/

namespace MoneroOxide

theorem BlockHeader.reads_read : Reader.Reads BlockHeader.read (fun _ => True) BlockHeader.write := by
  intro s header rest
  obtain ⟨hardforkVersion, hardforkSignal, timestamp, previous, nonce⟩ := header
  simp [BlockHeader.read, BlockHeader.write, reads_readU32.iff]

namespace Block

/-- The blocks that can be read. -/
structure Readable (block : Block) : Prop where
  minerTransaction : block.minerTransaction.Readable NotPruned.codec
  transactions : block.transactions.length < MAX_TRANSACTIONS

theorem new_eq_some_iff {header : BlockHeader} {minerTransaction : Transaction NotPruned} {transactions : List (Bytes 32)}
    {block : Block} : new header minerTransaction transactions = some block ↔
      block.header = header ∧ block.minerTransaction = minerTransaction ∧ block.transactions = transactions := by
  rw [new]
  constructor
  · intro h
    split at h
    case isTrue hminer =>
      obtain rfl := Option.some.inj h
      exact ⟨rfl, rfl, rfl⟩
    case isFalse => cases h
  · rintro ⟨rfl, rfl, rfl⟩
    exact dif_pos block.isMiner

/-- `Block::read` reads exactly these, each from what `Block::write` writes for it. -/
theorem reads_read : Reader.Reads Block.read Readable write := by
  intro s block rest
  have hhashes := fun len => reads_readRawVec (reads_bytes 32) len
  simp only [Block.read, Reader.bind_ok, BlockHeader.reads_read.iff, (Transaction.reads_read NotPruned.codec).iff,
    VarInt.readU64_ok,
    Reader.ite_ok, Reader.throw_ok, and_false, false_or, (hhashes _).iff, true_and]
  constructor
  · rintro ⟨header, _, rfl, minerTransaction, _, ⟨hminer, rfl⟩, length, _, rfl, hlt, transactions, _, ⟨⟨hlen, -⟩, rfl⟩, h⟩
    cases hnew : new header minerTransaction transactions with
    | none =>
      rw [hnew] at h
      cases h
    | some block' =>
      rw [hnew] at h
      obtain ⟨rfl, rfl⟩ := Reader.pure_ok.1 h
      obtain ⟨rfl, rfl, rfl⟩ := new_eq_some_iff.1 hnew
      refine ⟨⟨hminer, by omega⟩, ?_⟩
      rw [write, hlen]
      simp only [List.append_assoc]
      rfl
  · rintro ⟨hreadable, rfl⟩
    have hlt := hreadable.transactions
    have hmax : MAX_TRANSACTIONS = 2 ^ 28 := rfl
    have hlength : (UInt64.ofNat block.transactions.length).toNat = block.transactions.length := by
      rw [UInt64.toNat_ofNat', Nat.mod_eq_of_lt (by omega)]
    refine ⟨block.header, _, ?_, block.minerTransaction, _, ⟨hreadable.minerTransaction, rfl⟩,
      UInt64.ofNat block.transactions.length, _, rfl, ?_, block.transactions, rest, ⟨⟨hlength.symm, by simp⟩, rfl⟩, ?_⟩
    · rw [write, hlength]
      simp only [List.append_assoc]
      rfl
    · rw [hlength]
      omega
    · rw [new_eq_some_iff.2 ⟨rfl, rfl, rfl⟩]
      rfl

/-- The first input of the miner transaction is the one with the number. -/
theorem head_inputs (block : Block) : block.minerTransaction.txPrefix.inputs.head? = some (.Gen block.number) := by
  have hminer := block.isMiner
  unfold number
  split
  case h_1 number inputs h => rw [h, List.head?_cons]
  case h_2 h =>
    rw [TransactionPrefix.isMiner, h] at hminer
    cases hminer
  case h_3 amount keyOffsets keyImage inputs h =>
    rw [TransactionPrefix.isMiner, h] at hminer
    cases inputs <;> cases hminer

end Block

/-- The codec of blocks is byte-exact, and of a block which was made or read the number and the Merkle root do not panic. -/
theorem block_byteExact (Γ : Ctx) :
    (∀ s block rest, Block.read s = .ok block rest → block.write ++ rest = s ∧
      ∀ rest', Block.read (block.write ++ rest') = .ok block rest') ∧
    ∀ block, ((∃ header minerTransaction transactions, Block.new header minerTransaction transactions = some block) ∨
        ∃ s rest, Block.read s = .ok block rest) →
      block.minerTransaction.txPrefix.inputs.head? = some (.Gen block.number) ∧
        (merkleRoot Γ (block.minerTransaction.hash Γ :: block.transactions)).isSome := by
  refine ⟨fun s block rest h => ⟨Block.reads_read.written h, fun rest' => ?_⟩, fun block _ => ⟨block.head_inputs, ?_⟩⟩
  · exact Block.reads_read.read_back (Block.reads_read.valid h) rest'
  · exact isSome_merkleRoot Γ _ _

end MoneroOxide
