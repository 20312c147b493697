import MoneroOxide.Lib.Results
import MoneroOxide.Lemmas.OutputIndexes
import MoneroOxide.Lemmas.Instance
import MoneroOxide.Theorems.Block

/-!
# The three ways to build a scannable block agree on the index of its first RingCT output

Whether the indexes of an answer to `get_blocks.bin` are walked by the amounts of outputs, are fetched once and then counted on from, or
are fetched only for the first RingCT transaction with outputs, the index is `firstRingctIndex`. The one which counts on from it fails
where the index after the last RingCT output is not representable.
-/

namespace MoneroOxide

namespace BinRpc

/-! ## Walking the indexes of an answer -/

/-- The amount of outputs of a transaction is that of its indexes. -/
def AmountIs (transaction : Transaction Pruned) (indexes : List UInt64) : Prop :=
    transaction.txPrefix.outputs.length = indexes.length

theorem handleTransaction_eq {transaction : Transaction Pruned} {indexes : List UInt64} (h : AmountIs transaction indexes)
    (index : Option UInt64) (more : List UInt64) :
    handleTransaction index (indexes ++ more) transaction =
      .ok (if transaction.isV1 = true ∨ transaction.txPrefix.outputs = [] then index else index.or indexes.head?, more) := by
  unfold AmountIs at h
  unfold handleTransaction
  dsimp only
  rw [if_neg (by rw [List.length_append]; omega), h, List.drop_left]
  by_cases hskip : transaction.isV1 = true ∨ transaction.txPrefix.outputs = []
  · rw [if_pos hskip, if_neg]
    rintro ⟨hv2, hne⟩
    rcases hskip with hv1 | hnil
    · rw [hv1] at hv2
      exact Bool.false_ne_true hv2
    · rw [hnil, List.length_nil] at h
      exact hne h.symm
  · obtain ⟨hv2, hne⟩ := not_or.1 hskip
    have hpos : indexes.length ≠ 0 := by
      rw [← h]
      exact fun hzero => hne (List.length_eq_zero_iff.1 hzero)
    rw [if_neg hskip, if_pos ⟨by simpa using hv2, hpos⟩]
    cases indexes with
    | nil => exact absurd rfl hpos
    | cons first indexes => rfl

/-- The index kept is the first one there is. -/
theorem handleTransactions_eq {transactions : List (Transaction Pruned)} {indexes : List (List UInt64)}
    (h : List.Forall₂ AmountIs transactions indexes) (index : Option UInt64) (more : List UInt64) :
    handleTransactions index (indexes.flatten ++ more) transactions =
      .ok (index.or (firstRingctIndex (transactions.zip indexes)), more) := by
  induction h generalizing index with
  | nil => exact congrArg (fun index => Except.ok (index, more)) (Option.or_none).symm
  | @cons transaction indexes transactions rest hamount _ ih =>
    rw [handleTransactions, List.flatten_cons, List.append_assoc, handleTransaction_eq hamount, Results.ok_bind, ih,
      List.zip_cons_cons,
      firstRingctIndex]
    by_cases hskip : transaction.isV1 = true ∨ transaction.txPrefix.outputs = []
    · rw [if_pos hskip, if_pos hskip]
    · obtain ⟨-, hne⟩ := not_or.1 hskip
      rw [if_neg hskip, if_neg hskip]
      cases indexes with
      | nil =>
        have hzero : transaction.txPrefix.outputs.length = 0 := hamount
        exact absurd (List.length_eq_zero_iff.1 hzero) hne
      | cons first indexes =>
        rw [List.head?_cons, Option.or_assoc]
        rfl

theorem handleBlocks_eq {blocks : List IndexedBlock} (h : ∀ b ∈ blocks, b.Consistent) (more : List UInt64) :
    handleBlocks ((blocks.flatMap fun b => b.indexes.flatten) ++ more) (blocks.map fun b => (b.block, b.transactions)) =
      .ok (blocks.map IndexedBlock.scannable, more) := by
  induction blocks with
  | nil => rfl
  | cons b blocks ih =>
    have hb := h b List.mem_cons_self
    rw [List.map_cons, List.flatMap_cons, List.append_assoc, handleBlocks, handleTransactions_eq hb.amounts, Results.ok_bind,
      ih fun b' hmem => h b' (List.mem_cons_of_mem _ hmem)]
    rfl

theorem extractBlocksFromBlocksBin_eq {root : Epee.Item} {blocks : List IndexedBlock} (hok : root.Ok .Object Epee.MAX_LEVEL)
    (hanswer : AnswerIs root blocks) (hblocks : ∀ b ∈ blocks, b.Consistent) (rest : List UInt8) :
    extractBlocksFromBlocksBin (Epee.HEADER ++ Epee.VERSION :: (root.encode .Object ++ rest)) =
      .ok (some (blocks.map IndexedBlock.scannable)) := by
  unfold extractBlocksFromBlocksBin
  rw [decode_answer hok hanswer rest, Results.ok_bind]
  dsimp only
  have hhandled := handleBlocks_eq hblocks []
  rw [List.append_nil] at hhandled
  rw [hhandled, Results.ok_bind, if_neg (not_not.2 rfl)]
  rfl

/-! ## Fetching the first index, and counting on from it -/

/-- The daemon answers with the indexes of each transaction of the block. -/
def Serves {σ : Type} (Γ : Ctx) (outputIndexes : Bytes 32 → Call σ InterfaceError (List UInt64)) (b : IndexedBlock) : Prop :=
  List.Forall₂ (fun hash indexes => Call.Answers (outputIndexes hash) indexes)
    (b.block.minerTransaction.hash Γ :: b.block.transactions) b.indexes

/-- What `expand` keeps after the RingCT outputs with these indexes. -/
def keptFor (indexes : List UInt64) : OutputIndexes where
  next := indexes.head?.map fun first => UInt64.ofNat (first.toNat + indexes.length)
  first := indexes.head?

/-- The index after the last of the RingCT outputs is representable. -/
def Representable (indexes : List UInt64) : Prop := ∀ first ∈ indexes.head?, first.toNat + indexes.length < 2 ^ 64

theorem Representable.left {indexes more : List UInt64} (h : Representable (indexes ++ more)) : Representable indexes := by
  intro first hfirst
  have hlt := h first (by rw [List.head?_append, hfirst]; rfl)
  rw [List.length_append] at hlt
  omega

theorem toNat_ofNat_of_lt {n : ℕ} (h : n < 2 ^ 64) : (UInt64.ofNat n).toNat = n := by
  rw [UInt64.toNat_ofNat']
  exact Nat.mod_eq_of_lt h

/-- A RingCT transaction counts on by its outputs. -/
theorem updateOutputIndex_eq {before indexes : List UInt64} {transaction : Transaction Pruned} (hv2 : ¬transaction.isV1 = true)
    (hamount : AmountIs transaction indexes) (hne : before ≠ []) (hrep : Representable (before ++ indexes)) :
    updateOutputIndex (keptFor before) transaction = .ok (keptFor (before ++ indexes)) := by
  obtain ⟨first, before, rfl⟩ := List.exists_cons_of_ne_nil hne
  have hlt := hrep first rfl
  have hlt' := hrep.left first rfl
  rw [List.length_append] at hlt
  have hnext : (keptFor (first :: before)).next = some (UInt64.ofNat (first.toNat + (first :: before).length)) := rfl
  unfold updateOutputIndex
  rw [if_neg hv2, if_neg (fun hc => by rw [hnext] at hc; exact nomatch hc.1), hnext]
  dsimp only
  unfold AmountIs at hamount
  rw [toNat_ofNat_of_lt hlt', hamount, if_pos (by omega)]
  unfold keptFor
  rw [List.cons_append, List.head?_cons, List.head?_cons, ← List.cons_append, List.length_append, Nat.add_assoc]
  rfl

section Expand

variable {σ : Type} {daemon : MoneroDaemon σ}

/-- One transaction, with the indexes of its outputs. -/
theorem answers_updateOutputIndexWithFetch (before : List UInt64) {hash : Bytes 32} {transaction : Transaction Pruned}
    {indexes : List UInt64} (hamount : AmountIs transaction indexes) (hserved : Call.Answers (outputIndexes daemon hash) indexes)
    (hrep : Representable (before ++ ringctIndexes [(transaction, indexes)])) :
    Call.Answers (updateOutputIndexWithFetch daemon (keptFor before) hash transaction)
      (keptFor (before ++ ringctIndexes [(transaction, indexes)])) := by
  unfold updateOutputIndexWithFetch
  by_cases hv1 : transaction.isV1 = true
  · rw [if_neg (fun hc => by rw [hv1] at hc; exact Bool.false_ne_true hc.1)]
    rw [ringctIndexes, if_pos hv1, ringctIndexes, List.append_nil]
    refine Call.Answers.ofExcept ?_
    rw [updateOutputIndex, if_pos hv1]
  rw [ringctIndexes, if_neg hv1, ringctIndexes, List.append_nil] at hrep ⊢
  by_cases hbefore : before = []
  · subst hbefore
    by_cases hnone : transaction.txPrefix.outputs = []
    · -- Nothing is known yet, and there is nothing to fetch.
      obtain rfl : indexes = [] := by
        unfold AmountIs at hamount
        rw [hnone] at hamount
        exact List.length_eq_zero_iff.1 hamount.symm
      rw [if_neg (fun hc => hc.2.2 hnone)]
      refine Call.Answers.ofExcept ?_
      rw [updateOutputIndex, if_neg hv1, if_neg (fun hc => hc.2 hnone)]
      rfl
    · rw [if_pos ⟨by simpa using hv1, rfl, hnone⟩]
      refine hserved.bind ?_
      cases indexes with
      | nil => exact absurd (List.length_eq_zero_iff.1 hamount) hnone
      | cons first indexes =>
        unfold AmountIs at hamount
        have hfirst : firstOfFetched transaction.txPrefix.outputs.length (first :: indexes) = .ok first := by
          unfold firstOfFetched
          rw [if_neg (not_not.2 hamount)]
        refine (Call.Answers.ofExcept hfirst).bind (Call.Answers.ofExcept ?_)
        have hlt : first.toNat + (first :: indexes).length < 2 ^ 64 := hrep first rfl
        rw [updateOutputIndex, if_neg hv1, if_neg (fun hc => nomatch hc.1)]
        dsimp only
        rw [hamount, if_pos hlt]
        rfl
  · have hnext : (keptFor before).next ≠ none := by
      obtain ⟨first, rest, rfl⟩ := List.exists_cons_of_ne_nil hbefore
      exact nofun
    rw [if_neg (fun hc => hnext hc.2.1)]
    exact Call.Answers.ofExcept (updateOutputIndex_eq hv1 hamount hbefore hrep)

theorem ringctIndexes_cons (output : Transaction Pruned × List UInt64) (rest : List (Transaction Pruned × List UInt64)) :
    ringctIndexes (output :: rest) = ringctIndexes [output] ++ ringctIndexes rest := by
  obtain ⟨transaction, indexes⟩ := output
  simp only [ringctIndexes]
  split
  · rfl
  · rw [List.append_nil]

/-- The transactions of a block one after another. -/
theorem answers_updateOutputIndexes {hashes : List (Bytes 32)} {transactions : List PrunedTransactionWithPrunableHash}
    {indexes : List (List UInt64)} (hlen : hashes.length = transactions.length)
    (hamounts : List.Forall₂ AmountIs (transactions.map fun transaction => transaction.transaction) indexes)
    (hserved : List.Forall₂ (fun hash indexes => Call.Answers (outputIndexes daemon hash) indexes) hashes indexes)
    (before : List UInt64)
    (hrep : Representable (before ++ ringctIndexes ((transactions.map fun transaction => transaction.transaction).zip indexes))) :
    Call.Answers (updateOutputIndexes daemon (keptFor before) (hashes.zip transactions))
      (keptFor (before ++ ringctIndexes ((transactions.map fun transaction => transaction.transaction).zip indexes))) := by
  induction hserved generalizing transactions before with
  | nil =>
    obtain rfl := List.length_eq_zero_iff.1 hlen.symm
    change Call.Answers (pure (keptFor before)) (keptFor (before ++ []))
    rw [List.append_nil]
    exact Call.Answers.pure _
  | @cons hash first hashes indexes hhash _ ih =>
    cases transactions with
    | nil => cases hlen
    | cons transaction transactions =>
      obtain ⟨hamount, hamounts⟩ := List.forall₂_cons.1 hamounts
      rw [List.map_cons, List.zip_cons_cons, ringctIndexes_cons, ← List.append_assoc] at hrep
      rw [List.map_cons, List.zip_cons_cons, List.zip_cons_cons, ringctIndexes_cons, ← List.append_assoc]
      refine (answers_updateOutputIndexWithFetch before hamount hhash hrep.left).bind ?_
      exact ih (Nat.succ.inj hlen) hamounts _ hrep

/-- The miner transaction counts as its pruned form does. -/
theorem updateOutputIndexWithFetch_toPruned (indexes : OutputIndexes) (hash : Bytes 32) (transaction : Transaction NotPruned) :
    updateOutputIndexWithFetch daemon indexes hash transaction =
    updateOutputIndexWithFetch daemon indexes hash transaction.toPruned := by
  cases transaction with
  | V1 txPrefix signatures => rfl
  | V2 txPrefix proofs => rfl

theorem answers_mapErr {ε ε' α : Type} {x : Call σ ε α} {a : α} (h : Call.Answers x a) (f : ε → ε') :
    Call.Answers (x.mapErr f) a := by
  intro s
  obtain ⟨t, ht⟩ := h s
  refine ⟨t, ?_⟩
  unfold Call.mapErr
  rw [ht]

theorem firstRingctIndex_eq_head {transactions : List (Transaction Pruned)} {indexes : List (List UInt64)}
    (h : List.Forall₂ AmountIs transactions indexes) :
    firstRingctIndex (transactions.zip indexes) = (ringctIndexes (transactions.zip indexes)).head? := by
  induction h with
  | nil => rfl
  | @cons transaction first transactions indexes hamount _ ih =>
    rw [List.zip_cons_cons, firstRingctIndex, ringctIndexes]
    by_cases hv1 : transaction.isV1 = true
    · rw [if_pos (Or.inl hv1), if_pos hv1, ih]
    · rw [if_neg hv1, List.head?_append]
      unfold AmountIs at hamount
      cases first with
      | nil => rw [if_pos (Or.inr (List.length_eq_zero_iff.1 hamount)), ih, List.head?_nil, Option.none_or]
      | cons index first =>
        have hne : transaction.txPrefix.outputs ≠ [] := by
          intro hnil
          rw [hnil] at hamount
          cases hamount
        rw [if_neg (not_or.2 ⟨hv1, hne⟩), List.head?_cons, Option.some_or]

theorem answers_expand {Γ : Ctx} {methods : JsonMethods σ} {b : IndexedBlock} (hconsistent : b.Consistent)
    (htransactions : Call.Answers (methods.prunedTransactions b.block.transactions) b.transactions)
    (hserves : Serves Γ (outputIndexes daemon) b) (hrep : Representable (ringctIndexes b.outputs)) :
    Call.Answers (expand Γ methods daemon b.block) b.scannable := by
  obtain ⟨block, transactions, indexes⟩ := b
  obtain ⟨hpresent, hamounts, -⟩ := hconsistent
  cases hserves with
  | @cons _ miner _ rest hminer hrest =>
    have hfirst : firstRingctIndex (IndexedBlock.outputs ⟨block, transactions, miner :: rest⟩) = _ :=
      firstRingctIndex_eq_head hamounts
    have hall : ringctIndexes ((blockTransactions block transactions).zip (miner :: rest)) =
        ringctIndexes [(block.minerTransaction.toPruned, miner)] ++
          ringctIndexes ((transactions.map fun transaction => transaction.transaction).zip rest) := ringctIndexes_cons _ _
    obtain ⟨hamount, hamounts⟩ := List.forall₂_cons.1 hamounts
    unfold IndexedBlock.outputs at hrep
    rw [hall] at hfirst hrep
    unfold IndexedBlock.scannable
    rw [hfirst]
    unfold expand
    refine (answers_mapErr htransactions expandError).bind ?_
    rw [updateOutputIndexWithFetch_toPruned]
    refine (answers_updateOutputIndexWithFetch [] hamount hminer hrep.left).bind ?_
    refine (answers_updateOutputIndexes hpresent.symm hamounts hrest _ hrep).bind ?_
    exact Call.Answers.pure _

/-! ## Fetching only the first index -/

theorem answers_firstRingctOutputIndex {outputIndexes : Bytes 32 → Call σ InterfaceError (List UInt64)} {hashes : List (Bytes 32)}
    {transactions : List (Transaction Pruned)} {indexes : List (List UInt64)}
    (hamounts : List.Forall₂ AmountIs transactions indexes)
    (hserved : List.Forall₂ (fun hash indexes => Call.Answers (outputIndexes hash) indexes) hashes indexes) :
    Call.Answers (firstRingctOutputIndex outputIndexes (hashes.zip transactions))
    (firstRingctIndex (transactions.zip indexes)) := by
  induction hamounts generalizing hashes with
  | nil =>
    rw [List.zip_nil_right]
    exact Call.Answers.pure none
  | @cons transaction first transactions indexes hamount _ ih =>
    cases hserved with
    | @cons hash _ hashes _ hhash hserved =>
      rw [List.zip_cons_cons, List.zip_cons_cons, firstRingctOutputIndex, firstRingctIndex]
      by_cases hskip : transaction.isV1 = true ∨ transaction.txPrefix.outputs = []
      · rw [if_pos hskip, if_pos hskip]
        exact ih hserved
      · rw [if_neg hskip, if_neg hskip]
        refine (answers_mapErr hhash _).bind ?_
        cases first with
        | nil => exact absurd (Or.inr (List.length_eq_zero_iff.1 hamount)) hskip
        | cons index first => exact Call.Answers.pure _

end Expand

/-- No RingCT output of a consistent block has the last index, so that the index after them is representable. -/
theorem IndexedBlock.Consistent.representable {b : IndexedBlock} (h : b.Consistent)
    (hmax : ∀ index ∈ ringctIndexes b.outputs, index.toNat ≠ 2 ^ 64 - 1) : Representable (ringctIndexes b.outputs) := by
  obtain ⟨first, hconsecutive⟩ := h.consecutive
  intro index hindex
  obtain ⟨rest, hcons⟩ : ∃ rest, ringctIndexes b.outputs = index :: rest := by
    cases houtputs : ringctIndexes b.outputs with
    | nil =>
      rw [houtputs] at hindex
      cases hindex
    | cons index' rest =>
      rw [houtputs] at hindex
      obtain rfl : index' = index := Option.some.inj hindex
      exact ⟨rest, rfl⟩
  rw [hcons] at hconsecutive hmax ⊢
  -- The last index is the first one and as many more as there are outputs after it.
  have hlast : (index :: rest).getLast (List.cons_ne_nil _ _) ∈ index :: rest := List.getLast_mem _
  have hne := hmax _ hlast
  have hlt := ((index :: rest).getLast (List.cons_ne_nil _ _)).toNat_lt
  have hfirst : index.toNat = first := by
    have hhead := congrArg List.head? hconsecutive
    exact Option.some.inj hhead
  have hlength : (index :: rest).length = rest.length + 1 := List.length_cons
  have hvalue : ((index :: rest).getLast (List.cons_ne_nil _ _)).toNat = first + rest.length := by
    have hget := congrArg (fun l => l[rest.length]?) hconsecutive
    simp only [List.getElem?_map, hlength, List.getElem?_range' (show rest.length < rest.length + 1 by omega)] at hget
    rw [List.getLast_eq_getElem]
    simpa using hget
  omega

/-- The three ways to build a scannable block agree. For any blocks with a consistent assignment of indexes, `extract_blocks_from_blocks_bin`
returns the scannable blocks from any answer which holds them; `expand` returns each from a daemon with its transactions and indexes,
unless a RingCT output has the index `u64::MAX`; and so does `expand_to_scannable_block` from any interface. The index is that of the
first output of the first RingCT transaction with outputs, or nothing. -/
theorem outputIndexes_agree (Γ : Ctx) (blocks : List IndexedBlock) (hblocks : ∀ b ∈ blocks, b.Consistent) :
    (∀ root rest, root.Ok .Object 51 → AnswerIs root blocks →
      extractBlocksFromBlocksBin (Epee.HEADER ++ Epee.VERSION :: (root.encode .Object ++ rest)) =
        .ok (some (blocks.map IndexedBlock.scannable))) ∧
    (∀ b ∈ blocks, (∀ index ∈ ringctIndexes b.outputs, index.toNat ≠ 2 ^ 64 - 1) →
      ∀ (σ : Type) (methods : JsonMethods σ) (daemon : MoneroDaemon σ),
        Call.Answers (methods.prunedTransactions b.block.transactions) b.transactions → Serves Γ (outputIndexes daemon) b →
        Call.Answers (expand Γ methods daemon b.block) b.scannable) ∧
    (∀ b ∈ blocks, ∀ (σ : Type) (prunedTransactions : List (Bytes 32) → Call σ TransactionsError (List (Transaction Pruned)))
        (outputIndexes : Bytes 32 → Call σ InterfaceError (List UInt64)),
      Call.Answers (prunedTransactions b.block.transactions) (b.transactions.map fun transaction => transaction.transaction) →
      Serves Γ outputIndexes b →
      Call.Answers (expandToScannableBlock Γ prunedTransactions outputIndexes b.block)
        { block := b.block, transactions := b.transactions.map fun transaction => transaction.transaction,
          outputIndexForFirstRingctOutput := b.scannable.outputIndexForFirstRingctOutput }) := by
  refine ⟨fun root rest hok hanswer => extractBlocksFromBlocksBin_eq hok hanswer hblocks rest, ?_, ?_⟩
  · intro b hb hmax σ methods daemon htransactions hserves
    exact answers_expand (hblocks b hb) htransactions hserves ((hblocks b hb).representable hmax)
  · intro b hb σ prunedTransactions outputIndexes htransactions hserves
    unfold expandToScannableBlock
    refine htransactions.bind ?_
    exact (answers_firstRingctOutputIndex (hblocks b hb).amounts hserves).bind (Call.Answers.pure _)

/-! ## A block with one RingCT output -/

/-- A block whose miner transaction has one output. -/
def oneOutput : Block where
  header := { hardforkVersion := 16, hardforkSignal := 16, timestamp := 0, previous := Bytes.replicate 32 0, nonce := 0 }
  minerTransaction := .V2 { additionalTimelock := .None, inputs := [.Gen 5],
                            outputs := [{ amount := some 1, key := Bytes.replicate 32 0, viewTag := none }], extra := [] } none
  transactions := []
  isMiner := rfl

/-- The encoding of the block. -/
def oneOutputBlob : List UInt8 :=
  [16, 16, 0] ++ List.replicate 36 0 ++ [2, 0, 1, 255, 5, 1, 1, 2] ++ List.replicate 32 0 ++ [0, 0, 0]

/-- The block with an index for its output. -/
def oneIndexed (index : UInt64) : IndexedBlock where
  block := oneOutput
  transactions := []
  indexes := [[index]]

theorem oneIndexed_consistent (index : UInt64) : (oneIndexed index).Consistent where
  present := rfl
  amounts := .cons rfl .nil
  consecutive := ⟨index.toNat, rfl⟩

/-- An answer to `get_blocks.bin` with the block, and the index before it. -/
def oneAnswer (index : UInt64) : Epee.Item :=
  .object .one [
    .mk (ascii "output_indices") .Object (some .one) [.object .one [.mk (ascii "indices") .Object (some .one)
      [.object .one [.mk (ascii "indices") .Uint64 (some .one) [.int (index.toNat : ℤ)]]]]],
    .mk (ascii "status") .String none [.string .one (ascii "OK")],
    .mk (ascii "blocks") .Object (some .one) [.object .one [.mk (ascii "block") .String none [.string .two oneOutputBlob]]]]

theorem oneAnswer_ok (index : UInt64) : (oneAnswer index).Ok .Object 51 := by
  have hlt := index.toNat_lt
  have hblob : oneOutputBlob.length = 82 := rfl
  have hkeys : (ascii "output_indices").length = 14 ∧ (ascii "indices").length = 7 ∧ (ascii "status").length = 6 ∧
      (ascii "OK").length = 2 ∧ (ascii "blocks").length = 6 ∧ (ascii "block").length = 5 := by decide
  obtain ⟨h1, h2, h3, h4, h5, h6⟩ := hkeys
  have hne : ∀ key : List UInt8, key.length ≠ 0 → key ≠ [] := by
    rintro key hlen rfl
    exact hlen rfl
  simp [oneAnswer, Epee.Item.Ok, Epee.fieldsOk, Epee.Field.Ok, Epee.itemsOk, Epee.LengthOk, Epee.Width.Holds, Epee.Width.bytes,
    Epee.Kind.HasInt, hblob, h1, h2, h3, h4, h5, h6, hne]
  omega

theorem oneAnswer_is (index : UInt64) : AnswerIs (oneAnswer index) [oneIndexed index] := by
  refine ⟨_, _, _, _, rfl, Or.inl ⟨_, rfl⟩, .cons ?_ .nil, Or.inl ⟨_, rfl⟩, .cons ?_ .nil⟩
  · exact ⟨_, _, _, [], rfl, ⟨_, _, rfl⟩, rfl, Or.inr ⟨rfl, rfl⟩, .nil⟩
  · exact ⟨_, _, _, rfl, Or.inl ⟨_, rfl⟩, .cons ⟨_, _, rfl, Or.inl ⟨_, rfl⟩⟩ .nil⟩

/-- The fields of an answer to `get_o_indexes.bin` with the index. -/
def oneIndexFields (index : UInt64) : List Epee.Field :=
  [.mk (ascii "status") .String none [.string .one (ascii "OK")],
    .mk (ascii "o_indexes") .Uint64 (some .one) [.int (index.toNat : ℤ)]]

/-- A daemon which gives every transaction one output, with the index. -/
def oneDaemon (index : UInt64) : MoneroDaemon Unit where
  transport := fun _ _ _ => pure (Epee.HEADER ++ Epee.VERSION :: ((Epee.Item.object .one (oneIndexFields index)).encode .Object ++ []))
  responseSizeLimits := true
  supportsJsonRpcBatchRequests := true

/-- JSON methods without any transactions. -/
def noTransactions : JsonMethods Unit where
  block := fun _ => pure oneOutput
  blockHash := fun _ => pure (Bytes.replicate 32 0)
  prunedTransactions := fun _ => pure []

theorem oneIndexFields_ok (index : UInt64) : (Epee.Item.object .one (oneIndexFields index)).Ok .Object 51 := by
  have hlt := index.toNat_lt
  have hkeys : (ascii "status").length = 6 ∧ (ascii "OK").length = 2 ∧ (ascii "o_indexes").length = 9 := by decide
  obtain ⟨h1, h2, h3⟩ := hkeys
  have hne : ∀ key : List UInt8, key.length ≠ 0 → key ≠ [] := by
    rintro key hlen rfl
    exact hlen rfl
  simp [oneIndexFields, Epee.Item.Ok, Epee.fieldsOk, Epee.Field.Ok, Epee.itemsOk, Epee.LengthOk, Epee.Width.Holds, Epee.Width.bytes,
    Epee.Kind.HasInt, h1, h2, h3, hne]
  omega

theorem oneDaemon_serves (index : UInt64) : Serves instanceCtx (outputIndexes (oneDaemon index)) (oneIndexed index) := by
  refine .cons ?_ .nil
  refine answers_outputIndexes (oneIndexFields_ok index) ⟨.one, none, rfl⟩ ⟨some .one, rfl⟩ ?_ (fun _ _ => Call.Answers.pure _) _
  have hint : (Epee.encodeInt 8 index.toNat).length = 8 := length_leList _ _
  have hheader : Epee.HEADER.length = 8 := rfl
  have hwidth : ∀ n, (Epee.Width.one.encode n).length = 1 := fun n => length_leList _ _
  have hkeys : (ascii "status").length = 6 ∧ (ascii "OK").length = 2 ∧ (ascii "o_indexes").length = 9 := by decide
  obtain ⟨h1, h2, h3⟩ := hkeys
  simp [oneIndexFields, Epee.Item.encode, Epee.encodeFields, Epee.Field.encode, Epee.encodeItems, Epee.encodeKind, Epee.Kind.size?,
    hint, hheader, hwidth, h1, h2, h3, MIN_RESPONSE_SIZE_IN_BYTES_ESTIMATE]

/-- With the index 7 all three agree on it. -/
theorem outputIndexes_agree_seven :
    extractBlocksFromBlocksBin (Epee.HEADER ++ Epee.VERSION :: ((oneAnswer 7).encode .Object ++ [])) =
      .ok (some [(oneIndexed 7).scannable]) ∧
    Call.Answers (expand instanceCtx noTransactions (oneDaemon 7) oneOutput) (oneIndexed 7).scannable ∧
    (oneIndexed 7).scannable.outputIndexForFirstRingctOutput = some 7 := by
  obtain ⟨hanswer, hexpand, -⟩ := outputIndexes_agree instanceCtx [oneIndexed 7] (by
    intro b hb
    obtain rfl := List.mem_singleton.1 hb
    exact oneIndexed_consistent 7)
  refine ⟨hanswer (oneAnswer 7) [] (oneAnswer_ok 7) (oneAnswer_is 7), ?_, rfl⟩
  refine hexpand _ List.mem_cons_self (fun index hindex => ?_) Unit noTransactions (oneDaemon 7) (Call.Answers.pure _)
    (oneDaemon_serves 7)
  obtain rfl : index = 7 := List.mem_singleton.1 hindex
  decide

/-- With the index `u64::MAX` the answer to `get_blocks.bin` has it, but `expand` fails, as the index after it is not representable. -/
theorem expand_index_exceeded :
    (oneIndexed 18446744073709551615).Consistent ∧
    Call.Answers (noTransactions.prunedTransactions oneOutput.transactions) [] ∧
    Serves instanceCtx (outputIndexes (oneDaemon 18446744073709551615)) (oneIndexed 18446744073709551615) ∧
    extractBlocksFromBlocksBin (Epee.HEADER ++ Epee.VERSION :: ((oneAnswer 18446744073709551615).encode .Object ++ [])) =
      .ok (some [(oneIndexed 18446744073709551615).scannable]) ∧
    expand instanceCtx noTransactions (oneDaemon 18446744073709551615) oneOutput () =
      .error (.error (.InvalidInterface "output index exceeded `u64::MAX`")) () := by
  have hserves := oneDaemon_serves 18446744073709551615
  refine ⟨oneIndexed_consistent _, Call.Answers.pure _, hserves, ?_, ?_⟩
  · refine extractBlocksFromBlocksBin_eq (oneAnswer_ok _) (oneAnswer_is _) (fun b hb => ?_) []
    obtain rfl := List.mem_singleton.1 hb
    exact oneIndexed_consistent _
  · obtain ⟨hfetched, -⟩ := List.forall₂_cons.1 hserves
    obtain ⟨_, hfetched⟩ := hfetched ()
    have hminer : updateOutputIndexWithFetch (oneDaemon 18446744073709551615) { next := none, first := none }
        (oneOutput.minerTransaction.hash instanceCtx) oneOutput.minerTransaction () =
          .error (.error (.InvalidInterface "output index exceeded `u64::MAX`")) () := Call.bind_of_ok hfetched
    have htransactions : (noTransactions.prunedTransactions oneOutput.transactions).mapErr expandError () = .ok [] () := rfl
    unfold expand
    rw [Call.bind_of_ok htransactions]
    exact Call.bind_of_error hminer

end BinRpc

end MoneroOxide
