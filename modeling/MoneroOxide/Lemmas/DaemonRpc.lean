import MoneroOxide.DaemonRpc
import MoneroOxide.Lemmas.Requests
import MoneroOxide.Lib.Results
import MoneroOxide.Theorems.Block

/-!
# What a daemon answers with

The loop of `transactions` and `pruned_transactions` is a request for each chunk of the hashes (`transactionsLoop_eq`), so that what
it returns and what it asks for are those of the chunks. Everything that is returned was read from the whole of its encoding.
-/

namespace MoneroOxide

namespace Call

variable {σ ε α : Type}

@[simp]
theorem propagate_ok {from' : InterfaceError → ε} {x : EStateM InterfaceError σ α} {a : α} {s t : σ} :
    Call.propagate from' x s = .ok a t ↔ x s = .ok a t := by
  unfold Call.propagate
  cases x s <;> simp

theorem Answers.propagate {from' : InterfaceError → ε} {x : EStateM InterfaceError σ α} {a : α} (h : Call.Answers x a) :
    Call.Answers (Call.propagate from' x) a := by
  intro s
  obtain ⟨t, ht⟩ := h s
  exact ⟨t, propagate_ok.2 ht⟩

end Call

namespace MoneroDaemon

variable {σ : Type} {json : JsonAnswers} {daemon : MoneroDaemon σ}

theorem transactionsLimit_pos : 0 < TRANSACTIONS_LIMIT := by decide

/-! ## The loop -/

/-- The loop requests the chunks of the hashes in order and collects what it receives. -/
theorem transactionsLoop_eq (prune : Bool) (hashesHex : List String) (allTxs : List TransactionResponse) :
    transactionsLoop json daemon prune hashesHex allTxs =
      ((Lists.chunks TRANSACTIONS_LIMIT hashesHex).mapM (requestTransactions json daemon prune) >>= fun received =>
        pure (allTxs ++ received.flatten)) := by
  fun_induction transactionsLoop json daemon prune hashesHex allTxs with
  | case1 allTxs =>
    rw [show Lists.chunks TRANSACTIONS_LIMIT ([] : List String) = [] from rfl, List.mapM_nil, pure_bind, List.flatten_nil,
      List.append_nil]
  | case2 hashesHex allTxs hne thisCount ih =>
    have htake : hashesHex.take thisCount = hashesHex.take TRANSACTIONS_LIMIT := by
      rw [← List.take_take, List.take_length]
    have hdrop : hashesHex.drop thisCount = hashesHex.drop TRANSACTIONS_LIMIT := by
      rcases Nat.le_total TRANSACTIONS_LIMIT hashesHex.length with h | h
      · rw [show thisCount = TRANSACTIONS_LIMIT from Nat.min_eq_left h]
      · rw [show thisCount = hashesHex.length from Nat.min_eq_right h, List.drop_length, List.drop_eq_nil_of_le h]
    rw [Lists.chunks_of_ne_nil transactionsLimit_pos hne, List.mapM_cons]
    simp only [hdrop, List.append_assoc] at ih
    simp only [htake, hdrop, ih, bind_assoc, pure_bind, List.flatten_cons]

/-- A round returns as many transactions as it requests. -/
theorem requestTransactions_ok {prune : Bool} {hashesHex : List String} {txs : List TransactionResponse} {s t : σ}
    (h : requestTransactions json daemon prune hashesHex s = .ok txs t) : txs.length = hashesHex.length := by
  unfold requestTransactions at h
  simp only [Call.bind_ok, Call.ite_ok, Call.throw_ok, and_false, false_or, Call.pure_ok, not_not] at h
  obtain ⟨response, u, -, -, hlen, rfl, -⟩ := h
  exact hlen

/-- The loop returns as many transactions as it is given hashes. -/
theorem transactionsLoop_ok {prune : Bool} {hashesHex : List String} {txs : List TransactionResponse} {s t : σ}
    (h : transactionsLoop json daemon prune hashesHex [] s = .ok txs t) : txs.length = hashesHex.length := by
  rw [transactionsLoop_eq] at h
  simp only [Call.bind_ok, Call.pure_ok, List.nil_append] at h
  obtain ⟨received, u, hreceived, rfl, -⟩ := h
  have hlengths : received.map List.length = (Lists.chunks TRANSACTIONS_LIMIT hashesHex).map List.length :=
    (Lists.map_eq_map ((Call.forall₂_of_mapM_ok hreceived).imp fun chunk txs hround => by
      obtain ⟨v, w, hround⟩ := hround
      exact (requestTransactions_ok hround).symm)).symm
  rw [List.length_flatten, hlengths, ← List.length_flatten, Lists.flatten_chunks transactionsLimit_pos]

/-! ## What is read -/

/-- A transaction returned is read from the whole of an encoding. -/
theorem readResponse_ok {res : TransactionResponse} {tx : Transaction NotPruned} :
    readResponse res = .ok tx ↔ rpcHex (if res.asHex ≠ "" then res.asHex else res.prunedAsHex) = .ok tx.write ∧
      tx.Readable NotPruned.codec ∧ (res.asHex = "" → tx.txPrefix.firstIsGen = true) := by
  unfold readResponse transactionHex
  cases hhex : rpcHex (if res.asHex ≠ "" then res.asHex else res.prunedAsHex) with
  | error e => simp [Except.mapError]
  | ok buf =>
    have hreads := Transaction.reads_read NotPruned.codec
    simp only [Except.mapError, Results.ok_bind, Except.ok.injEq]
    constructor
    · intro h
      split at h
      · cases h
      · cases h
      · rename_i tx' hread
        obtain ⟨hreadable, hbuf⟩ := hreads.iff.1 hread
        split at h
        · cases h
        · rename_i hfirst
          obtain rfl := Except.ok.inj h
          refine ⟨by simpa using hbuf, hreadable, fun hempty => ?_⟩
          by_contra hgen
          exact hfirst ⟨hempty, Bool.eq_false_iff.2 hgen⟩
    · rintro ⟨rfl, hreadable, hfirst⟩
      have hread := hreads.read_back hreadable []
      rw [List.append_nil] at hread
      rw [hread]
      simp only
      rw [if_neg]
      · rfl
      · rintro ⟨hempty, hgen⟩
        rw [hfirst hempty] at hgen
        cases hgen

/-- The prunable hash which is read with a pruned transaction. -/
def ReadsPrunableHash (res : TransactionResponse) (tx : Transaction Pruned) (prunableHash : Option (Bytes 32)) : Prop :=
  if tx.isV1 = true then prunableHash = none else ∃ hash, hashHex res.prunableHash = .ok hash ∧ prunableHash = some hash

/-- With a prunable hash exactly for the versions which have one, the transaction with it is made. -/
theorem isSome_new {res : TransactionResponse} {tx : Transaction Pruned} {prunableHash : Option (Bytes 32)}
    (h : ReadsPrunableHash res tx prunableHash) : ∃ pruned, PrunedTransactionWithPrunableHash.new tx prunableHash = some pruned ∧
      pruned.transaction = tx := by
  cases tx with
  | V1 txPrefix signatures =>
    obtain rfl : prunableHash = none := h
    exact ⟨_, rfl, rfl⟩
  | V2 txPrefix proofs =>
    obtain ⟨hash, -, rfl⟩ : ∃ hash, hashHex res.prunableHash = .ok hash ∧ prunableHash = some hash := h
    cases proofs with
    | none => exact ⟨_, rfl, rfl⟩
    | some proofs => exact ⟨_, rfl, rfl⟩

/-- The transaction with a prunable hash is the one which was read. -/
theorem transaction_of_new {res : TransactionResponse} {tx : Transaction Pruned} {prunableHash : Option (Bytes 32)}
    {pruned : PrunedTransactionWithPrunableHash} (h : ReadsPrunableHash res tx prunableHash)
    (hnew : PrunedTransactionWithPrunableHash.new tx prunableHash = some pruned) : pruned.transaction = tx := by
  obtain ⟨pruned', hnew', htx⟩ := isSome_new h
  rw [hnew, Option.some.injEq] at hnew'
  rw [hnew', htx]

/-- What is returned for a pruned transaction which was read from the whole of its encoding. -/
theorem readPrunedResponse_of_read {res : TransactionResponse} {buf : List UInt8} {tx : Transaction Pruned}
    (hhex : rpcHex res.prunedAsHex = .ok buf) (hread : Transaction.read Pruned buf = .ok tx []) :
    (∃ prunableHash pruned, ReadsPrunableHash res tx prunableHash ∧
      PrunedTransactionWithPrunableHash.new tx prunableHash = some pruned ∧ readPrunedResponse res = .ok pruned) ∨
    ∃ e, tx.isV1 = false ∧ hashHex res.prunableHash = .error e ∧ readPrunedResponse res = .error (.error (.InterfaceError e)) := by
  simp only [readPrunedResponse, transactionHex, hhex, Except.mapError, Results.ok_bind, hread]
  by_cases hv1 : tx.isV1 = true
  · have hreads : ReadsPrunableHash res tx none := by
      rw [ReadsPrunableHash, if_pos hv1]
    obtain ⟨pruned, hnew, -⟩ := isSome_new hreads
    refine Or.inl ⟨none, pruned, hreads, hnew, ?_⟩
    rw [if_pos hv1, Results.pure_eq, Results.ok_bind, hnew]
    rfl
  · rw [if_neg hv1]
    cases hhash : hashHex res.prunableHash with
    | error e => exact Or.inr ⟨e, Bool.eq_false_iff.2 hv1, rfl, rfl⟩
    | ok hash =>
      have hreads : ReadsPrunableHash res tx (some hash) := by
        rw [ReadsPrunableHash, if_neg hv1]
        exact ⟨hash, hhash, rfl⟩
      obtain ⟨pruned, hnew, -⟩ := isSome_new hreads
      refine Or.inl ⟨some hash, pruned, hreads, hnew, ?_⟩
      change ((Except.ok (some hash) : Except (Failure TransactionsError) _) >>= fun prunableHash => _) = _
      rw [Results.ok_bind, hnew]
      rfl

/-- Reading a pruned transaction returns one which was read from the whole of its encoding, or an error. -/
theorem readPrunedResponse_cases (res : TransactionResponse) :
    (∃ e, readPrunedResponse res = .error (.error e)) ∨
    ∃ (tx : Transaction Pruned) (prunableHash : Option (Bytes 32)) (pruned : PrunedTransactionWithPrunableHash),
      rpcHex res.prunedAsHex = .ok tx.write ∧ tx.Readable Pruned.codec ∧ ReadsPrunableHash res tx prunableHash ∧
        PrunedTransactionWithPrunableHash.new tx prunableHash = some pruned ∧ readPrunedResponse res = .ok pruned := by
  cases hhex : rpcHex res.prunedAsHex with
  | error e =>
    refine Or.inl ⟨.InterfaceError e, ?_⟩
    simp only [readPrunedResponse, transactionHex, hhex, Except.mapError, Results.error_bind]
  | ok buf =>
    cases hread : Transaction.read Pruned buf with
    | error e rest =>
      refine Or.inl ⟨invalidTransaction res, ?_⟩
      simp only [readPrunedResponse, transactionHex, hhex, Except.mapError, Results.ok_bind, hread, Results.throw_eq]
    | ok tx rest =>
      cases rest with
      | cons b rest =>
        refine Or.inl ⟨.InterfaceError (.InvalidInterface "pruned transaction had extra bytes after it"), ?_⟩
        simp only [readPrunedResponse, transactionHex, hhex, Except.mapError, Results.ok_bind, hread, Results.throw_eq]
      | nil =>
        obtain ⟨hreadable, hbuf⟩ := (Transaction.reads_read Pruned.codec).iff.1 hread
        rw [List.append_nil] at hbuf
        rcases readPrunedResponse_of_read hhex hread with ⟨prunableHash, pruned, hprunable, hnew, hres⟩ | ⟨e, -, -, hres⟩
        · exact Or.inr ⟨tx, prunableHash, pruned, by rw [hbuf], hreadable, hprunable, hnew, hres⟩
        · exact Or.inl ⟨_, hres⟩

/-- A pruned transaction returned is read from the whole of an encoding, with the hash of what was pruned. -/
theorem readPrunedResponse_ok {res : TransactionResponse} {pruned : PrunedTransactionWithPrunableHash} :
    readPrunedResponse res = .ok pruned ↔ ∃ (tx : Transaction Pruned) (prunableHash : Option (Bytes 32)),
      rpcHex res.prunedAsHex = .ok tx.write ∧ tx.Readable Pruned.codec ∧ ReadsPrunableHash res tx prunableHash ∧
        PrunedTransactionWithPrunableHash.new tx prunableHash = some pruned := by
  constructor
  · intro h
    rcases readPrunedResponse_cases res with ⟨e, hres⟩ | ⟨tx, prunableHash, pruned', hhex, hreadable, hprunable, hnew, hres⟩
    · rw [hres] at h
      cases h
    · rw [hres] at h
      obtain rfl := Except.ok.inj h
      exact ⟨tx, prunableHash, hhex, hreadable, hprunable, hnew⟩
  · rintro ⟨tx, prunableHash, hhex, hreadable, hprunable, hnew⟩
    have hread := (Transaction.reads_read Pruned.codec).read_back hreadable []
    rw [List.append_nil] at hread
    rcases readPrunedResponse_of_read hhex hread with ⟨prunableHash', pruned', hprunable', hnew', hres⟩ | ⟨e, hv1, he, -⟩
    · have heq : prunableHash' = prunableHash := by
        unfold ReadsPrunableHash at hprunable hprunable'
        split at hprunable
        · rename_i hv1
          rw [if_pos hv1] at hprunable'
          rw [hprunable, hprunable']
        · rename_i hv1
          rw [if_neg hv1] at hprunable'
          obtain ⟨hash, hhash, rfl⟩ := hprunable
          obtain ⟨hash', hhash', rfl⟩ := hprunable'
          rw [hhash] at hhash'
          rw [Except.ok.inj hhash']
      rw [heq, hnew] at hnew'
      rw [hres, Option.some.inj hnew']
    · rw [ReadsPrunableHash, hv1, if_neg Bool.false_ne_true, he] at hprunable
      obtain ⟨hash, hhash, -⟩ := hprunable
      cases hhash

/-- What `transactions` returns: as many transactions as hashes, each read from the whole of an encoding. -/
theorem transactions_ok {hashes : List (Bytes 32)} {txs : List (Transaction NotPruned)} {s t : σ}
    (h : daemon.transactions json hashes s = .ok txs t) :
    txs.length = hashes.length ∧ ∀ tx ∈ txs, tx.Readable NotPruned.codec := by
  unfold transactions at h
  simp only [Call.bind_ok, Call.ofExcept_ok] at h
  obtain ⟨allTxs, u, hloop, hread, -⟩ := h
  have hall := Results.mapM_eq_ok.1 hread
  refine ⟨by rw [← hall.length_eq, transactionsLoop_ok hloop, List.length_map], fun tx htx => ?_⟩
  obtain ⟨res, -, hres⟩ := Lists.exists_mem_of_forall₂ hall htx
  cases hresponse : readResponse res with
  | error e =>
    rw [hresponse] at hres
    cases hres
  | ok tx' =>
    rw [hresponse] at hres
    obtain rfl := Except.ok.inj hres
    exact (readResponse_ok.1 hresponse).2.1

/-- What `pruned_transactions` returns: as many transactions as hashes, each read from the whole of an encoding. -/
theorem prunedTransactions_ok {hashes : List (Bytes 32)} {txs : List PrunedTransactionWithPrunableHash} {s t : σ}
    (h : daemon.prunedTransactions json hashes s = .ok txs t) :
    txs.length = hashes.length ∧ ∀ tx ∈ txs, tx.transaction.Readable Pruned.codec := by
  unfold prunedTransactions at h
  simp only [Call.bind_ok, Call.ofExcept_ok] at h
  obtain ⟨allTxs, u, hloop, hread, -⟩ := h
  have hall := Results.mapM_eq_ok.1 hread
  refine ⟨by rw [← hall.length_eq, transactionsLoop_ok hloop, List.length_map], fun pruned hpruned => ?_⟩
  obtain ⟨res, -, hres⟩ := Lists.exists_mem_of_forall₂ hall hpruned
  obtain ⟨tx, prunableHash, -, hreadable, hprunable, hnew⟩ := readPrunedResponse_ok.1 hres
  rw [transaction_of_new hprunable hnew]
  exact hreadable

end MoneroDaemon

end MoneroOxide
