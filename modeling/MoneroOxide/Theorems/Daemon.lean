import MoneroOxide.Lemmas.Daemon
import MoneroOxide.Lib.Lists

/-!
# Fetching contiguous blocks in batches of an adaptive size

In every round the size of a request is at least one and nothing panics; the request stays within the range; a failed call for
several blocks is followed by one for the first of them alone, and a failed call for one block by an error. So each block takes two
calls at most, and when the loop returns, it returns one block for each number of the range, the one the daemon gave that id.
-/

namespace MoneroOxide

namespace Blocks

variable {json : SerdeJson} {supports : Bool} {range : RangeInclusive}

/-! ## Rounds -/

/-- The states before each round of the loop, with any answers to its calls. -/
inductive Reachable (json : SerdeJson) (supports : Bool) (range : RangeInclusive) : LoopState → Prop
  | initial : Reachable json supports range (initial range)
  | round {state state' : LoopState} {request : Request} (answer : Except InterfaceError String) :
      Reachable json supports range state → state.start ≤ state.stop → prepare (batched supports state) = .ok request →
      receive json (batched supports state) request answer = .ok (.again state') → Reachable json supports range state'

/-- A run of the loop from a state, for the answers to its calls, and its result. -/
inductive Run (json : SerdeJson) (supports : Bool) :
    LoopState → List (Except InterfaceError String) → Except (Failure InterfaceError) (List Block) → Prop
  | finished {state : LoopState} : state.stop < state.start → Run json supports state [] (.ok state.res)
  | unprepared {state : LoopState} {failure : Failure InterfaceError} : state.start ≤ state.stop →
      prepare (batched supports state) = .error failure → Run json supports state [] (.error failure)
  | failed {state : LoopState} {request : Request} {answer : Except InterfaceError String} {failure : Failure InterfaceError} :
      state.start ≤ state.stop → prepare (batched supports state) = .ok request →
      receive json (batched supports state) request answer = .error failure → Run json supports state [answer] (.error failure)
  | returned {state : LoopState} {request : Request} {answer : Except InterfaceError String} {res : List Block} :
      state.start ≤ state.stop → prepare (batched supports state) = .ok request →
      receive json (batched supports state) request answer = .ok (.returned res) → Run json supports state [answer] (.ok res)
  | again {state state' : LoopState} {request : Request} {answer : Except InterfaceError String}
      {answers : List (Except InterfaceError String)} {result : Except (Failure InterfaceError) (List Block)} :
      state.start ≤ state.stop → prepare (batched supports state) = .ok request →
      receive json (batched supports state) request answer = .ok (.again state') → Run json supports state' answers result →
      Run json supports state (answer :: answers) result

@[simp]
theorem batched_start (state : LoopState) : (batched supports state).start = state.start := by
  cases supports <;> rfl

@[simp]
theorem batched_stop (supports : Bool) (state : LoopState) : (batched supports state).stop = state.stop := by
  cases supports <;> rfl

@[simp]
theorem batched_res (state : LoopState) : (batched supports state).res = state.res := by
  cases supports <;> rfl

theorem batched_of_one {state : LoopState} (h : state.blocksPerRequest = 1) : (batched supports state).blocksPerRequest = 1 := by
  cases supports
  · rfl
  · exact h

theorem one_le_USIZE_MAX : 1 ≤ USIZE_MAX := by decide

theorem initial_inv (range : RangeInclusive) : (initial range).Inv range where
  one_le := (by decide : 1 ≤ BLOCKS_PER_RESPONSE_ESTIMATE)
  le_max := (by decide : BLOCKS_PER_RESPONSE_ESTIMATE ≤ USIZE_MAX)
  start_le := le_refl _
  start_le_max := by
    have := range.start.toNat_lt
    change range.start.toNat ≤ USIZE_MAX
    unfold USIZE_MAX
    omega
  stop_eq := rfl

namespace LoopState.Inv

variable {state : LoopState}

theorem batched (h : state.Inv range) (supports : Bool) : (batched supports state).Inv range := by
  cases supports
  · exact { h with one_le := le_refl 1, le_max := one_le_USIZE_MAX }
  · exact h

theorem stop_le_max (h : state.Inv range) : state.stop ≤ USIZE_MAX := by
  have := range.stop.toNat_lt
  rw [h.stop_eq]
  unfold USIZE_MAX
  omega

/-- A round of the loop has a request. -/
theorem exists_request (h : state.Inv range) (supports : Bool) (hle : state.start ≤ state.stop) :
    ∃ request, prepare (Blocks.batched supports state) = .ok request ∧ request.For (Blocks.batched supports state) := by
  have hb := h.batched supports
  exact exists_prepare hb.one_le hb.le_max (by simpa using hle) hb.stop_le_max

/-- The request of a round is one for its state. -/
theorem request_for (h : state.Inv range) (hle : state.start ≤ state.stop) {request : Request}
    (hprepare : prepare (Blocks.batched supports state) = .ok request) : request.For (Blocks.batched supports state) := by
  obtain ⟨request', hrequest', hfor⟩ := h.exists_request supports hle
  rw [hprepare] at hrequest'
  obtain rfl : request = request' := Except.ok.inj hrequest'
  exact hfor

/-- How a round ends. -/
theorem ends (h : state.Inv range) (hjson : SerdeJson.NonEmpty json) {request : Request}
    (hfor : request.For (Blocks.batched supports state)) (answer : Except InterfaceError String) :
    Ends json (Blocks.batched supports state) request answer (receive json (Blocks.batched supports state) request answer) :=
  receive_ends hjson (h.batched supports).one_le (h.batched supports).le_max hfor answer

/-- One round keeps the bounds. -/
theorem again (h : state.Inv range) {request : Request} {answer : Except InterfaceError String} {state' : LoopState}
    (hagain : Again json state request answer state') : state'.Inv range := by
  cases hagain with
  | retry e _ => exact { h with one_le := le_refl 1, le_max := one_le_USIZE_MAX }
  | read text blocks blocksPerRequest _ h1 h2 hmax =>
    exact { one_le := h1, le_max := h2, start_le := le_trans h.start_le (Nat.le_add_right _ _), start_le_max := hmax,
            stop_eq := h.stop_eq }

end LoopState.Inv

/-- Every reachable state is within its bounds. -/
theorem Reachable.inv (hjson : SerdeJson.NonEmpty json) {state : LoopState} (h : Reachable json supports range state) :
    state.Inv range := by
  induction h with
  | initial => exact initial_inv range
  | @round state state' request answer _ hle hprepare hreceive ih =>
    have hends := ih.ends hjson (ih.request_for hle hprepare) answer
    rw [hreceive] at hends
    exact (ih.batched supports).again hends

/-- A run from a state within its bounds does not panic, and when it returns, it has added to the blocks one for each number left,
read from an answer. -/
theorem Run.spec (hjson : SerdeJson.NonEmpty json) {state : LoopState} {answers : List (Except InterfaceError String)}
    {result : Except (Failure InterfaceError) (List Block)} (hrun : Run json supports state answers result) (h : state.Inv range) :
    (∀ message, result ≠ .error (.panic message)) ∧
    ∀ blocks, result = .ok blocks → ∃ new, blocks = state.res ++ new ∧
      List.Forall₂ (FromAnswer json answers) (List.range' state.start (state.stop + 1 - state.start)) new := by
  induction hrun with
  | @finished state hlt =>
    refine ⟨nofun, fun blocks hblocks => ⟨[], ?_, ?_⟩⟩
    · rw [← Except.ok.inj hblocks, List.append_nil]
    · rw [show state.stop + 1 - state.start = 0 by omega]
      exact .nil
  | unprepared hle hprepare =>
    obtain ⟨request, hrequest, -⟩ := h.exists_request _ hle
    rw [hrequest] at hprepare
    cases hprepare
  | @failed state request answer failure hle hprepare hreceive =>
    have hends := h.ends hjson (h.request_for hle hprepare) answer
    rw [hreceive] at hends
    refine ⟨fun message hpanic => ?_, nofun⟩
    rw [Except.error.inj hpanic] at hends
    exact hends
  | @returned state request answer res hle hprepare hreceive =>
    have hfor := h.request_for hle hprepare
    have hends := h.ends hjson hfor answer
    rw [hreceive] at hends
    refine ⟨nofun, fun blocks hblocks => ?_⟩
    obtain rfl : res = blocks := Except.ok.inj hblocks
    cases hends with
    | read text new hnew hmax =>
      refine ⟨new, by rw [batched_res], ?_⟩
      -- No number is beyond the last one requested, so that it is the last one of the range.
      have h1 := hfor.start_eq
      have h2 := hfor.start_le
      have h3 := hfor.stop_le
      have h4 := hfor.amount
      have h5 := h.stop_le_max
      rw [batched_start] at h1 hmax
      rw [batched_stop] at h3
      rw [show state.stop + 1 - state.start = request.requestedBlocks by omega, ← h1]
      exact hnew
  | @again state state' request answer answers result hle hprepare hreceive hrun ih =>
    have hfor := h.request_for hle hprepare
    have hends := h.ends hjson hfor answer
    rw [hreceive] at hends
    obtain ⟨hpanic, hok⟩ := ih ((h.batched supports).again hends)
    refine ⟨hpanic, fun blocks hblocks => ?_⟩
    obtain ⟨new, hres, hnew⟩ := hok blocks hblocks
    have hmono : List.Forall₂ (FromAnswer json (answer :: answers))
        (List.range' state'.start (state'.stop + 1 - state'.start)) new :=
      hnew.imp fun _ _ hfrom => hfrom.mono (List.subset_cons_self _ _)
    cases hends with
    | retry e _ =>
      rw [batched_res] at hres
      rw [batched_start, batched_stop] at hmono
      exact ⟨new, hres, hmono⟩
    | read text read blocksPerRequest hread _ _ _ =>
      refine ⟨read ++ new, ?_, ?_⟩
      · rw [hres, batched_res, List.append_assoc]
      · -- The numbers left are those requested and those left after them.
        have h1 := hfor.start_eq
        have h2 := hfor.start_le
        have h3 := hfor.stop_le
        have h4 := hfor.amount
        rw [batched_start] at h1
        rw [batched_stop] at h3
        simp only [batched_start, batched_stop] at hmono
        have hsplit : List.range' state.start (state.stop + 1 - state.start) =
            List.range' request.start request.requestedBlocks ++
              List.range' (state.start + request.requestedBlocks) (state.stop + 1 - (state.start + request.requestedBlocks)) := by
          rw [h1, List.range'_append_1]
          congr 1
          omega
        rw [hsplit]
        refine List.rel_append (hread.imp fun _ _ hfrom => hfrom.mono ?_) hmono
        exact List.cons_subset_cons _ (List.nil_subset _)

/-- The most calls a run makes from a state: two for each block left, less one when only one block is to be requested. -/
def LoopState.calls (state : LoopState) : ℕ :=
  2 * (state.stop + 1 - state.start) - if state.blocksPerRequest = 1 then 1 else 0

/-- A round that goes on leaves fewer calls to make. -/
theorem Again.calls_lt (supports : Bool) {state state' : LoopState} {request : Request} {answer : Except InterfaceError String}
    (hle : state.start ≤ state.stop) (hfor : request.For state) (h : Again json state request answer state') :
    (batched supports state').calls < state.calls := by
  have hif : ∀ n : ℕ, (if n = 1 then 1 else 0) ≤ 1 := by
    intro n
    split <;> omega
  cases h with
  | retry e hmany =>
    have hne : state.blocksPerRequest ≠ 1 := fun hone => by rw [hfor.of_one hone] at hmany; cases hmany
    unfold LoopState.calls
    simp only [batched_start, batched_stop, if_neg hne]
    rw [if_pos (batched_of_one rfl)]
    omega
  | read text blocks blocksPerRequest _ _ _ _ =>
    have h1 := hfor.amount
    have h2 := hif state.blocksPerRequest
    unfold LoopState.calls
    simp only [batched_start, batched_stop]
    omega

/-- What the loop returns is the result of a run. -/
def ResultIs (result : Except (Failure InterfaceError) (List Block)) {σ : Type} :
    EStateM.Result (Failure InterfaceError) σ (List Block) → Prop
  | .ok blocks _ => result = .ok blocks
  | .error failure _ => result = .error failure

/-- A call whose result is matched on returns. -/
theorem exists_attempt {σ ε α : Type} (ε' : Type) (x : EStateM ε σ α) (s : σ) :
    ∃ answer t, (attempt x : Call σ ε' (Except ε α)) s = .ok answer t := by
  unfold attempt
  split
  · exact ⟨_, _, rfl⟩
  · exact ⟨_, _, rfl⟩

/-- With fuel for the calls left, the loop runs to its end. -/
theorem exists_run (hjson : SerdeJson.NonEmpty json) {σ : Type} (daemon : MoneroDaemon σ) (fuel : ℕ) {state : LoopState}
    (h : state.Inv range) (hfuel : (batched daemon.supportsJsonRpcBatchRequests state).calls < fuel) (s : σ) :
    ∃ answers result, Run json daemon.supportsJsonRpcBatchRequests state answers result ∧
      answers.length ≤ (batched daemon.supportsJsonRpcBatchRequests state).calls ∧
      ResultIs result (loop json daemon fuel state s) := by
  induction fuel generalizing state s with
  | zero => omega
  | succ fuel ih =>
    by_cases hle : state.start ≤ state.stop
    · obtain ⟨request, hprepare, hfor⟩ := h.exists_request daemon.supportsJsonRpcBatchRequests hle
      obtain ⟨answer, t, hanswer⟩ :=
        exists_attempt InterfaceError (daemon.rpcCallCore "json_rpc" (some request.text) MAX_RESPONSE_SIZE) s
      have hends := h.ends hjson hfor answer
      have hone : 1 ≤ (batched daemon.supportsJsonRpcBatchRequests state).calls := by
        unfold LoopState.calls
        simp only [batched_start, batched_stop]
        split <;> omega
      have hloop : loop json daemon (fuel + 1) state s =
          match receive json (batched daemon.supportsJsonRpcBatchRequests state) request answer with
          | .error failure => .error failure t
          | .ok (.again state') => loop json daemon fuel state' t
          | .ok (.returned res) => .ok res t := by
        rw [loop, if_pos hle, Call.bind_of_ok (Call.ofExcept_ok.2 ⟨hprepare, rfl⟩), Call.bind_of_ok hanswer]
        cases receive json (batched daemon.supportsJsonRpcBatchRequests state) request answer with
        | error failure => exact Call.bind_of_error rfl
        | ok outcome =>
          refine (Call.bind_of_ok rfl).trans ?_
          cases outcome with
          | again state' => rfl
          | returned res => rfl
      rw [hloop]
      cases hreceive : receive json (batched daemon.supportsJsonRpcBatchRequests state) request answer with
      | error failure => exact ⟨[answer], .error failure, .failed hle hprepare hreceive, hone, rfl⟩
      | ok outcome =>
        cases outcome with
        | returned res => exact ⟨[answer], .ok res, .returned hle hprepare hreceive, hone, rfl⟩
        | again state' =>
          rw [hreceive] at hends
          have hcalls := Again.calls_lt daemon.supportsJsonRpcBatchRequests (by simpa using hle) hfor hends
          obtain ⟨answers, result, hrun, hlen, hresult⟩ := ih ((h.batched _).again hends) (by omega) t
          refine ⟨answer :: answers, result, .again hle hprepare hreceive hrun, ?_, hresult⟩
          rw [List.length_cons]
          omega
    · refine ⟨[], .ok state.res, .finished (by omega), Nat.zero_le _, ?_⟩
      rw [loop, if_neg hle]
      rfl

theorem calls_initial_le (supports : Bool) (range : RangeInclusive) :
    (batched supports (initial range)).calls ≤ 2 * range.toList.length := by
  unfold LoopState.calls
  simp only [batched_start, batched_stop]
  rw [show range.toList.length = (initial range).stop + 1 - (initial range).start from List.length_range']
  omega

/-- If `contiguous_blocks` returns, it returns as many blocks as the range has numbers. -/
theorem length_of_contiguousBlocks (hjson : SerdeJson.NonEmpty json) {σ : Type} {daemon : MoneroDaemon σ}
    {blocks : List Block} {s t : σ}
    (h : contiguousBlocks json daemon range s = .ok blocks t) : blocks.length = range.toList.length := by
  have hcalls := calls_initial_le daemon.supportsJsonRpcBatchRequests range
  obtain ⟨answers, result, hrun, -, hresult⟩ :=
    exists_run hjson daemon (2 * range.toList.length + 2) (initial_inv range) (by omega) s
  unfold contiguousBlocks at h
  rw [h] at hresult
  obtain ⟨new, hblocks, hnew⟩ := (hrun.spec hjson (initial_inv range)).2 blocks hresult
  rw [hblocks]
  exact hnew.length_eq.symm

/-- What `serde_json` deserializes the empty array to, and no other text. -/
def emptyArray : SerdeJson where
  response := fun _ => none
  responses := fun text => if text = "[]" then some [] else none

theorem emptyArray_nonEmpty : SerdeJson.NonEmpty emptyArray := by
  intro text h
  rcases h with h | h
  · cases h
  · by_cases htext : text = "[]"
    · rw [htext]
      decide
    · have hnone : emptyArray.responses text = none := if_neg htext
      rw [hnone] at h
      cases h

end Blocks

end MoneroOxide
