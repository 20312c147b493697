import MoneroOxide.Lemmas.BinRpc
import MoneroOxide.Lemmas.Instance
import MoneroOxide.Theorems.Daemon

/-!
# Fetching contiguous blocks with `get_blocks.bin`, and with JSON from where that is not applicable on

At every request of the loop, `start + remaining_blocks = end + 1`. An answer, whatever its bytes are, leaves fewer blocks remaining, or
it ends the call. So what was pushed and what the fallback is asked for make up the range.
-/

namespace MoneroOxide

namespace BinRpc

/-! ## Rounds -/

/-- A round of the loop from the answer of the transport. -/
def round (state : FetchState) (answer : Except InterfaceError (List UInt8)) : Except (Failure InterfaceError) FetchOutcome := do
  let epee ← received MAX_RESPONSE_SIZE answer
  let blocks ← extractBlocksFromBlocksBin epee
  receiveBlocks state blocks

/-- The states before each round of the loop, for a range and what was in `res` before, with any answers to its calls. -/
inductive Reachable (range : RangeInclusive) (res : List UnvalidatedScannableBlock) : FetchState → Prop
  | initial {state : FetchState} : fetchInitial range res = .ok (.again state) → Reachable range res state
  | again {state state' : FetchState} (answer : Except InterfaceError (List UInt8)) :
      Reachable range res state → round state answer = .ok (.again state') → Reachable range res state'

/-- What holds before each round. -/
structure FetchState.Inv (range : RangeInclusive) (res : List UnvalidatedScannableBlock) (state : FetchState) : Prop where
  start_add : state.start + state.remainingBlocks = state.stop + 1
  one_le : 1 ≤ state.remainingBlocks
  one_le_start : 1 ≤ range.start.toNat
  stop_eq : state.stop = range.stop.toNat
  /-- There is a block for each number from the start of the range up to the next one to request. -/
  pushed : ∃ new, state.res = res ++ new ∧ state.start = range.start.toNat + new.length

namespace FetchState.Inv

variable {range : RangeInclusive} {res : List UnvalidatedScannableBlock} {state : FetchState}

theorem start_le (h : state.Inv range res) : state.start ≤ state.stop := by
  have h1 := h.start_add
  have h2 := h.one_le
  omega

theorem remaining_le (h : state.Inv range res) : state.remainingBlocks ≤ state.stop := by
  obtain ⟨new, -, hstart⟩ := h.pushed
  have h1 := h.start_add
  have h2 := h.one_le_start
  omega

theorem stop_le_max (h : state.Inv range res) : state.stop ≤ USIZE_MAX := by
  have hlt := range.stop.toNat_lt
  rw [h.stop_eq]
  unfold USIZE_MAX
  omega

/-- More blocks were pushed, one for each number. -/
theorem push (h : state.Inv range res) {blocks : List UnvalidatedScannableBlock} (hlt : blocks.length < state.remainingBlocks) :
    FetchState.Inv range res { state with start := state.stop - (state.remainingBlocks - blocks.length) + 1,
                                          remainingBlocks := state.remainingBlocks - blocks.length, res := state.res ++ blocks } := by
  have h1 := h.start_add
  have h2 := h.remaining_le
  refine ⟨?_, ?_, h.one_le_start, h.stop_eq, ?_⟩
  · dsimp only
    omega
  · dsimp only
    omega
  · obtain ⟨new, hres, hstart⟩ := h.pushed
    refine ⟨new ++ blocks, ?_, ?_⟩
    · dsimp only
      rw [hres, List.append_assoc]
    · dsimp only
      rw [List.length_append]
      omega

/-- `(end - remaining_blocks) + 1` neither underflows nor overflows. -/
theorem nextStart_eq (h : state.Inv range res) {blocks : List UnvalidatedScannableBlock}
    (hlt : blocks.length < state.remainingBlocks) :
    nextStart { state with remainingBlocks := state.remainingBlocks - blocks.length, res := state.res ++ blocks } =
      .ok (state.stop - (state.remainingBlocks - blocks.length) + 1) := by
  have h1 := h.remaining_le
  have h2 := h.stop_le_max
  unfold nextStart
  dsimp only
  rw [Blocks.checkedSub_eq (by omega), Results.ok_bind, Blocks.checkedAdd_eq (by omega)]

end FetchState.Inv

/-- The loop over the blocks of an answer takes as many as remain. -/
theorem pushBlocks_eq {state : FetchState} {blocksReceived : ℕ} {blocks : List UnvalidatedScannableBlock}
    (hcount : blocksReceived + blocks.length < 2 ^ 31) (hone : 1 ≤ state.remainingBlocks) :
    pushBlocks state blocksReceived blocks =
      if blocks.length < state.remainingBlocks then
        .ok ({ state with remainingBlocks := state.remainingBlocks - blocks.length, res := state.res ++ blocks },
          some (blocksReceived + blocks.length))
      else .ok ({ state with remainingBlocks := 0, res := state.res ++ blocks.take state.remainingBlocks }, none) := by
  induction blocks generalizing state blocksReceived with
  | nil =>
    rw [if_pos (by rw [List.length_nil]; omega)]
    simp [pushBlocks]
  | cons block blocks ih =>
    rw [List.length_cons] at hcount
    have hblock : countBlock blocksReceived = .ok (blocksReceived + 1) := if_pos (by omega)
    have hsub : Blocks.checkedSub state.remainingBlocks 1 = .ok (state.remainingBlocks - 1) := Blocks.checkedSub_eq hone
    rw [pushBlocks, hblock, Results.ok_bind, hsub, Results.ok_bind]
    by_cases hlast : state.remainingBlocks - 1 = 0
    · have heq : state.remainingBlocks = 1 := by omega
      rw [if_pos hlast, if_neg (by rw [List.length_cons]; omega), heq]
      simp
    · rw [if_neg hlast, ih (by omega) (by change 1 ≤ state.remainingBlocks - 1; omega)]
      obtain ⟨remaining, hremaining⟩ : ∃ remaining, state.remainingBlocks = remaining + 1 := ⟨_, (Nat.sub_add_cancel hone).symm⟩
      simp only [hremaining, Nat.add_sub_cancel, List.length_cons, Nat.add_lt_add_iff_right, List.append_assoc,
        List.singleton_append,
        List.take_succ_cons, Nat.add_sub_add_right]
      rw [show blocksReceived + 1 + blocks.length = blocksReceived + (blocks.length + 1) by omega]

/-- How a round ends which does not fail. -/
def RoundEnds (range : RangeInclusive) (res : List UnvalidatedScannableBlock) (state : FetchState) : FetchOutcome → Prop
  | .again state' => state'.Inv range res ∧ state'.remainingBlocks < state.remainingBlocks
  | .returned true fetched => fetched.length = state.res.length + state.remainingBlocks ∧ ∃ new, fetched = state.res ++ new
  | .returned false fetched => fetched = state.res

theorem receiveBlocks_ends {range : RangeInclusive} {res : List UnvalidatedScannableBlock} {state : FetchState}
    (h : state.Inv range res)
    {read : Option (List UnvalidatedScannableBlock)} (hcount : ∀ blocks, read = some blocks → blocks.length < 2 ^ 31) :
    Ends (RoundEnds range res state) (receiveBlocks state read) := by
  cases read with
  | none => exact rfl
  | some blocks =>
    have hlen := hcount blocks rfl
    rw [receiveBlocks, pushBlocks_eq (by omega) h.one_le]
    by_cases hlt : blocks.length < state.remainingBlocks
    · rw [if_pos hlt, Results.ok_bind, Nat.zero_add]
      have hnext := h.nextStart_eq hlt
      have hpush := h.push hlt
      cases hblocks : blocks.length with
      | zero => exact trivial
      | succ count =>
        rw [hblocks] at hnext hpush
        change Ends _ (nextStart _ >>= fun start => pure _)
        rw [hnext, Results.ok_bind]
        refine ⟨hpush, ?_⟩
        have hone := h.one_le
        dsimp only
        omega
    · rw [if_neg hlt, Results.ok_bind]
      refine ⟨?_, _, rfl⟩
      rw [List.length_append, List.length_take, Nat.min_eq_left (Nat.le_of_not_lt hlt)]

/-- An answer has fewer blocks than an `i32` can count, as it is truncated, also to a limit which is higher. -/
theorem ends_received (responseSizeLimit : ℕ) (answer : Except InterfaceError (List UInt8)) :
    Ends (fun epee => epee.length ≤ MAX_RESPONSE_SIZE) (received responseSizeLimit answer) := by
  cases answer with
  | error e => exact trivial
  | ok res =>
    refine (ends_checkStatus _).bind fun _ _ => ?_
    change (res.take (binResponseSizeLimit responseSizeLimit)).length ≤ MAX_RESPONSE_SIZE
    rw [List.length_take]
    exact (Nat.min_le_left _ _).trans (Nat.min_le_right _ _)

theorem round_ends {range : RangeInclusive} {res : List UnvalidatedScannableBlock} {state : FetchState} (h : state.Inv range res)
    (answer : Except InterfaceError (List UInt8)) : Ends (RoundEnds range res state) (round state answer) := by
  refine (ends_received MAX_RESPONSE_SIZE answer).bind fun epee hepee => ?_
  refine (ends_extractBlocksFromBlocksBin epee).bind fun read hread => ?_
  refine receiveBlocks_ends h fun blocks hblocks => ?_
  have hmax : MAX_RESPONSE_SIZE < 2 ^ 31 := by decide
  have hlen := hread blocks hblocks
  omega

/-- What is done before the loop: a range without numbers is done, and for any other there is a first request. -/
theorem fetchInitial_ends {range : RangeInclusive} (hstart : range.start ≠ 0) (res : List UnvalidatedScannableBlock) :
    (range.stop.toNat < range.start.toNat ∧ fetchInitial range res = .ok (.returned true res)) ∨
    ∃ state, fetchInitial range res = .ok (.again state) ∧ state.Inv range res ∧ state.res = res ∧
      state.remainingBlocks = range.toList.length := by
  have hne : range.start.toNat ≠ 0 := fun h => hstart (UInt64.toNat_inj.1 h)
  have hlt := range.stop.toNat_lt
  unfold fetchInitial
  dsimp only
  rw [if_neg hne]
  by_cases hempty : range.stop.toNat < range.start.toNat
  · exact Or.inl ⟨hempty, if_pos hempty⟩
  · rw [if_neg hempty, if_neg (by unfold USIZE_MAX; omega)]
    refine Or.inr ⟨_, rfl, ⟨?_, ?_, by omega, rfl, [], (List.append_nil _).symm, rfl⟩, rfl, ?_⟩
    · dsimp only
      omega
    · dsimp only
      omega
    · rw [RangeInclusive.toList, List.length_range']
      dsimp only
      omega

/-- Every reachable state satisfies the invariant. -/
theorem Reachable.inv {range : RangeInclusive} {res : List UnvalidatedScannableBlock} {state : FetchState}
    (h : Reachable range res state) : state.Inv range res := by
  induction h with
  | initial hinitial =>
    by_cases hstart : range.start = 0
    · rw [fetchInitial, hstart] at hinitial
      cases hinitial
    · rcases fetchInitial_ends hstart res with ⟨-, hdone⟩ | ⟨first, hfirst, hinv, -⟩
      · rw [hdone] at hinitial
        cases hinitial
      · rw [hfirst] at hinitial
        cases hinitial
        exact hinv
  | again answer _ hround ih =>
    have hends := round_ends ih answer
    rw [hround] at hends
    exact hends.1

/-! ## Runs -/

/-- A run of the loop from a state, for the answers to its calls, and its result. -/
inductive Run : FetchState → List (Except InterfaceError (List UInt8)) →
    Except (Failure InterfaceError) (Bool × List UnvalidatedScannableBlock) → Prop
  | finished {state : FetchState} : state.stop < state.start → Run state [] (.ok (true, state.res))
  | failed {state : FetchState} {answer : Except InterfaceError (List UInt8)} {failure : Failure InterfaceError} :
      state.start ≤ state.stop → round state answer = .error failure → Run state [answer] (.error failure)
  | returned {state : FetchState} {answer : Except InterfaceError (List UInt8)} {applicable : Bool}
      {res : List UnvalidatedScannableBlock} : state.start ≤ state.stop → round state answer = .ok (.returned applicable res) →
      Run state [answer] (.ok (applicable, res))
  | again {state state' : FetchState} {answer : Except InterfaceError (List UInt8)} {answers : List (Except InterfaceError (List UInt8))}
      {result : Except (Failure InterfaceError) (Bool × List UnvalidatedScannableBlock)} : state.start ≤ state.stop →
      round state answer = .ok (.again state') → Run state' answers result → Run state (answer :: answers) result

/-- What a call returned is the result. -/
def ResultIs {α σ : Type} (result : Except (Failure InterfaceError) α) : EStateM.Result (Failure InterfaceError) σ α → Prop
  | .ok a _ => result = .ok a
  | .error failure _ => result = .error failure

/-- A round of the loop is made with the answer to one call. -/
theorem fetchLoop_succ {σ : Type} (daemon : MoneroDaemon σ) (fuel : ℕ) {state : FetchState}
    (hle : state.start ≤ state.stop) (s : σ) :
    ∃ answer t, fetchLoop daemon (fuel + 1) state s =
      match round state answer with
      | .error failure => .error failure t
      | .ok (.again state') => fetchLoop daemon fuel state' t
      | .ok (.returned applicable res) => .ok (applicable, res) t := by
  obtain ⟨answer, t, hanswer⟩ := Blocks.exists_attempt InterfaceError (daemon.transport "get_blocks.bin" (fetchRequest state)
    (if daemon.responseSizeLimits then some (binResponseSizeLimit MAX_RESPONSE_SIZE) else none)) s
  refine ⟨answer, t, ?_⟩
  have hcall : binCall daemon "get_blocks.bin" (fetchRequest state) MAX_RESPONSE_SIZE s =
      Call.ofExcept (received MAX_RESPONSE_SIZE answer) t := Call.bind_of_ok hanswer
  rw [fetchLoop, if_pos hle, round]
  cases hreceived : received MAX_RESPONSE_SIZE answer with
  | error failure =>
    rw [hreceived] at hcall
    exact Call.bind_of_error hcall
  | ok epee =>
    rw [hreceived] at hcall
    rw [Call.bind_of_ok hcall, Results.ok_bind]
    cases extractBlocksFromBlocksBin epee with
    | error failure => exact Call.bind_of_error rfl
    | ok read =>
      rw [Call.bind_of_ok (Call.ofExcept_ok.2 ⟨rfl, rfl⟩), Results.ok_bind]
      cases receiveBlocks state read with
      | error failure => exact Call.bind_of_error rfl
      | ok outcome =>
        refine (Call.bind_of_ok rfl).trans ?_
        cases outcome with
        | again state' => rfl
        | returned applicable res => rfl

/-- With fuel for the blocks which remain, the loop runs to its end. -/
theorem exists_run {σ : Type} (daemon : MoneroDaemon σ) {range : RangeInclusive} {res : List UnvalidatedScannableBlock} (fuel : ℕ)
    {state : FetchState} (h : state.Inv range res) (hfuel : state.remainingBlocks < fuel) (s : σ) :
    ∃ answers result, Run state answers result ∧ answers.length ≤ state.remainingBlocks ∧
      ResultIs result (fetchLoop daemon fuel state s) := by
  induction fuel generalizing state s with
  | zero => omega
  | succ fuel ih =>
    obtain ⟨answer, t, hloop⟩ := fetchLoop_succ daemon fuel h.start_le s
    have hends := round_ends h answer
    have hone := h.one_le
    rw [hloop]
    cases hround : round state answer with
    | error failure => exact ⟨[answer], .error failure, .failed h.start_le hround, hone, rfl⟩
    | ok outcome =>
      cases outcome with
      | returned applicable fetched => exact ⟨[answer], .ok (applicable, fetched), .returned h.start_le hround, hone, rfl⟩
      | again state' =>
        rw [hround] at hends
        obtain ⟨hinv, hlt⟩ := hends
        obtain ⟨answers, result, hrun, hlen, hresult⟩ := ih hinv (by omega) t
        refine ⟨answer :: answers, result, .again h.start_le hround hrun, ?_, hresult⟩
        rw [List.length_cons]
        omega

/-- What was fetched in a range: a block for each of its numbers, or, if this methodology was not applicable, one for each of the first
of them. -/
def Fetched (range : RangeInclusive) (res : List UnvalidatedScannableBlock) : Bool × List UnvalidatedScannableBlock → Prop
  | (true, fetched) => fetched.length = res.length + range.toList.length
  | (false, fetched) => ∃ new, fetched = res ++ new ∧ new.length < range.toList.length

theorem FetchState.Inv.length_eq {range : RangeInclusive} {res : List UnvalidatedScannableBlock} {state : FetchState}
    (h : state.Inv range res) : ∃ new, state.res = res ++ new ∧ new.length + state.remainingBlocks = range.toList.length := by
  obtain ⟨new, hres, hstart⟩ := h.pushed
  refine ⟨new, hres, ?_⟩
  have h1 := h.start_add
  have h2 := h.stop_eq
  rw [RangeInclusive.toList, List.length_range']
  omega

theorem Run.fetched {range : RangeInclusive} {res : List UnvalidatedScannableBlock} {state : FetchState}
    {answers : List (Except InterfaceError (List UInt8))}
    {result : Except (Failure InterfaceError) (Bool × List UnvalidatedScannableBlock)}
    (hrun : Run state answers result) (h : state.Inv range res) : Ends (Fetched range res) result := by
  induction hrun with
  | finished hlt => exact absurd h.start_le (Nat.not_le_of_lt hlt)
  | @failed state answer failure _ hround =>
    have hends := round_ends h answer
    rw [hround] at hends
    cases failure with
    | error e => exact trivial
    | panic message => exact hends
  | @returned state answer applicable fetched _ hround =>
    have hends := round_ends h answer
    rw [hround] at hends
    obtain ⟨new, hres, hlen⟩ := h.length_eq
    cases applicable with
    | true =>
      have hfetched := hends.1
      rw [hres, List.length_append] at hfetched
      change fetched.length = res.length + range.toList.length
      omega
    | false =>
      have hone := h.one_le
      exact ⟨new, Eq.trans hends hres, by omega⟩
  | @again state state' answer answers result _ hround _ ih =>
    have hends := round_ends h answer
    rw [hround] at hends
    exact ih hends.1

/-- `fetch_contiguous_blocks` does not panic, and returns what it fetched. -/
theorem fetchContiguousBlocks_meets {σ : Type} (daemon : MoneroDaemon σ) {range : RangeInclusive} (hstart : range.start ≠ 0)
    (res : List UnvalidatedScannableBlock) (s : σ) :
    Call.Meets (fun fetched _ => Fetched range res fetched) (fun e _ => ∀ message, e ≠ .panic message)
      (fetchContiguousBlocks daemon range res s) := by
  unfold fetchContiguousBlocks
  rcases fetchInitial_ends hstart res with ⟨hempty, hdone⟩ | ⟨state, hfirst, hinv, -, hremaining⟩
  · rw [hdone, Call.bind_of_ok (Call.ofExcept_ok.2 ⟨rfl, rfl⟩)]
    change res.length = res.length + range.toList.length
    rw [RangeInclusive.toList, List.length_range']
    omega
  · rw [hfirst, Call.bind_of_ok (Call.ofExcept_ok.2 ⟨rfl, rfl⟩)]
    obtain ⟨answers, result, hrun, -, hresult⟩ := exists_run daemon (range.toList.length + 1) hinv (by omega) s
    have hfetched := hrun.fetched hinv
    dsimp only
    cases hloop : fetchLoop daemon (range.toList.length + 1) state s with
    | ok fetched t =>
      rw [hloop] at hresult
      rw [show result = .ok fetched from hresult] at hfetched
      exact hfetched
    | error failure t =>
      rw [hloop] at hresult
      rw [show result = .error failure from hresult] at hfetched
      exact fun message hpanic => hfetched.no_panic message (congrArg Except.error hpanic)

/-! ## The fallback -/

/-- After some of the numbers of a range, the fallback has those left. -/
theorem fallbackRange_eq {range : RangeInclusive} {fetched : ℕ} (hlt : fetched < range.toList.length) :
    ∃ left, fallbackRange range fetched = some left ∧ left.toList = range.toList.drop fetched := by
  rw [RangeInclusive.toList, List.length_range'] at hlt
  have hstop := range.stop.toNat_lt
  have hmax : range.start.toNat + fetched ≤ USIZE_MAX := by
    unfold USIZE_MAX
    omega
  refine ⟨_, if_pos hmax, ?_⟩
  have hstart : (UInt64.ofNat (range.start.toNat + fetched)).toNat = range.start.toNat + fetched := by
    rw [UInt64.toNat_ofNat']
    unfold USIZE_MAX at hmax
    omega
  simp only [RangeInclusive.toList, hstart, List.drop_range']
  congr 1
  · omega
  · omega

section Fallback

variable {σ : Type} {Γ : Ctx} {json : SerdeJson} {methods : JsonMethods σ} {daemon : MoneroDaemon σ} {range : RangeInclusive}
  {res fetched blocks : List UnvalidatedScannableBlock}

/-- From where the methodology is not applicable on, the fallback asks for the range left. -/
theorem fallBack_eq {new : List UnvalidatedScannableBlock} {left : RangeInclusive} (hnew : fetched = res ++ new)
    (hleft : fallbackRange range new.length = some left) :
    fallBack Γ json methods daemon range res.length fetched = (do
      let blocks ← Blocks.contiguousBlocks json daemon left
      let expanded ← blocks.mapM (expand Γ methods daemon)
      pure (fetched ++ expanded)) := by
  have hlen : fetched.length = res.length + new.length := by rw [hnew, List.length_append]
  unfold fallBack
  rw [if_neg (by omega), show fetched.length - res.length = new.length by omega, hleft]

theorem length_of_fallBack (hjson : Blocks.SerdeJson.NonEmpty json) {new : List UnvalidatedScannableBlock}
    (hnew : fetched = res ++ new)
    (hlt : new.length < range.toList.length) {s t : σ} (h : fallBack Γ json methods daemon range res.length fetched s =
    .ok blocks t) :
    blocks.length = res.length + range.toList.length := by
  obtain ⟨left, hleft, hnumbers⟩ := fallbackRange_eq hlt
  rw [fallBack_eq hnew hleft] at h
  simp only [Call.bind_ok, Call.pure_ok] at h
  obtain ⟨read, u, hread, expanded, v, hexpanded, rfl, -⟩ := h
  have h1 := Blocks.length_of_contiguousBlocks hjson hread
  have h2 := Call.length_of_mapM_ok hexpanded
  rw [hnumbers, List.length_drop] at h1
  rw [List.length_append, hnew, List.length_append]
  omega

theorem length_of_fetchOrFallBack (hjson : Blocks.SerdeJson.NonEmpty json) (hstart : range.start ≠ 0) {s t : σ}
    (h : fetchOrFallBack Γ json methods daemon range res s = .ok blocks t) : blocks.length = res.length + range.toList.length := by
  have hmeets := fetchContiguousBlocks_meets daemon hstart res s
  unfold fetchOrFallBack at h
  simp only [Call.bind_ok] at h
  obtain ⟨⟨applicable, fetched⟩, u, hfetch, h⟩ := h
  rw [hfetch] at hmeets
  cases applicable with
  | true =>
    obtain ⟨rfl, -⟩ := Call.pure_ok.1 h
    exact hmeets
  | false =>
    obtain ⟨new, hnew, hlt⟩ := hmeets
    exact length_of_fallBack hjson hnew hlt h

end Fallback

/-- What holds of a request of the loop, and of any answer to it. -/
structure Request (Γ : Ctx) (json : SerdeJson) (range : RangeInclusive) (res : List UnvalidatedScannableBlock)
    (state : FetchState) :
    Prop where
  start_add : state.start + state.remainingBlocks = state.stop + 1
  stop_eq : state.stop = range.stop.toNat
  one_le : 1 ≤ state.remainingBlocks
  /-- Nothing underflows or overflows. -/
  no_panic : ∀ answer message, round state answer ≠ .error (.panic message)
  /-- An answer which does not end the call makes progress. -/
  progress : ∀ answer state', round state answer = .ok (.again state') → state'.remainingBlocks < state.remainingBlocks
  complete : ∀ answer fetched, round state answer = .ok (.returned true fetched) →
    fetched.length = res.length + range.toList.length
  /-- If this methodology is not applicable, the fallback is asked for exactly the numbers for which no block has been pushed. -/
  fallback : ∀ answer fetched, round state answer = .ok (.returned false fetched) → ∃ new left, fetched = res ++ new ∧
    left.toList = range.toList.drop new.length ∧
    ∀ (σ : Type) (methods : JsonMethods σ) (daemon : MoneroDaemon σ),
      fallBack Γ json methods daemon range res.length fetched = (do
        let blocks ← Blocks.contiguousBlocks json daemon left
        let expanded ← blocks.mapM (expand Γ methods daemon)
        pure (fetched ++ expanded))

theorem FetchState.Inv.request {range : RangeInclusive} {res : List UnvalidatedScannableBlock} {state : FetchState}
    (h : state.Inv range res) (Γ : Ctx) (json : SerdeJson) : Request Γ json range res state := by
  obtain ⟨new, hres, hlen⟩ := h.length_eq
  refine ⟨h.start_add, h.stop_eq, h.one_le, fun answer => (round_ends h answer).no_panic, fun answer state' hround => ?_,
    fun answer fetched hround => ?_, fun answer fetched hround => ?_⟩
  · have hends := round_ends h answer
    rw [hround] at hends
    exact hends.2
  · have hends := round_ends h answer
    rw [hround] at hends
    rw [hends.1, hres, List.length_append]
    omega
  · have hends := round_ends h answer
    rw [hround] at hends
    have hone := h.one_le
    have hfetched : fetched = res ++ new := Eq.trans hends hres
    obtain ⟨left, hleft, hnumbers⟩ := fallbackRange_eq (show new.length < range.toList.length by omega)
    exact ⟨new, left, hfetched, hnumbers, fun σ methods daemon => fallBack_eq hfetched hleft⟩

/-- Fetching contiguous scannable blocks is exact. Whatever the answers before it were, a request of `fetch_contiguous_blocks` is as
`Request` says, with any answer to it. For every daemon and range from a block which is not the genesis block, the loop makes such
requests, no more than there are numbers, until it ends. For every daemon and range, if `contiguous_scannable_blocks` returns, it
returns as many blocks as the range has numbers. -/
theorem contiguousScannableBlocks_exact (Γ : Ctx) (json : SerdeJson) (hjson : Blocks.SerdeJson.NonEmpty json)
    (range : RangeInclusive) :
    (∀ res state, Reachable range res state → Request Γ json range res state) ∧
    (∀ (σ : Type) (daemon : MoneroDaemon σ) (res : List UnvalidatedScannableBlock) (s : σ), range.start ≠ 0 → range.toList ≠ [] →
      ∃ state answers result, fetchInitial range res = .ok (.again state) ∧ Run state answers result ∧
        answers.length ≤ range.toList.length ∧ ResultIs result (fetchContiguousBlocks daemon range res s)) ∧
    (∀ (σ : Type) (methods : JsonMethods σ) (daemon : MoneroDaemon σ) (s t : σ) (blocks : List UnvalidatedScannableBlock),
      contiguousScannableBlocks Γ json methods daemon range s = .ok blocks t → blocks.length = range.toList.length) := by
  refine ⟨fun res state hreachable => hreachable.inv.request Γ json, ?_, ?_⟩
  · intro σ daemon res s hstart hne
    rcases fetchInitial_ends hstart res with ⟨hempty, -⟩ | ⟨state, hfirst, hinv, -, hremaining⟩
    · refine absurd ?_ hne
      rw [RangeInclusive.toList, show range.stop.toNat + 1 - range.start.toNat = 0 by omega]
      rfl
    · obtain ⟨answers, result, hrun, hlen, hresult⟩ := exists_run daemon (range.toList.length + 1) hinv (by omega) s
      refine ⟨state, answers, result, hfirst, hrun, by omega, ?_⟩
      unfold fetchContiguousBlocks
      rw [hfirst, Call.bind_of_ok (Call.ofExcept_ok.2 ⟨rfl, rfl⟩)]
      exact hresult
  · intro σ methods daemon s t blocks h
    unfold contiguousScannableBlocks at h
    by_cases hstart : range.start = 0
    · -- The genesis block is the first number of the range, and the others are fetched.
      rw [if_pos hstart] at h
      simp only [Call.bind_ok] at h
      obtain ⟨genesis, u, -, h⟩ := h
      have hlen := length_of_fetchOrFallBack hjson (show (1 : UInt64) ≠ 0 by decide) h
      rw [hlen, List.length_singleton]
      simp only [RangeInclusive.toList, List.length_range', hstart]
      change 1 + (range.stop.toNat + 1 - 1) = range.stop.toNat + 1 - 0
      omega
    · rw [if_neg hstart] at h
      have hlen := length_of_fetchOrFallBack hjson hstart h
      rw [hlen, List.length_nil, Nat.zero_add]

/-- At each request for the blocks from 5 to 7, the numbers before the next one and those which remain are these. -/
theorem contiguousScannableBlocks_exact_five :
    Blocks.SerdeJson.NonEmpty Blocks.emptyArray ∧
      ∀ state, Reachable ⟨5, 7⟩ [] state → state.start + state.remainingBlocks = 8 := by
  refine ⟨Blocks.emptyArray_nonEmpty, fun state hreachable => ?_⟩
  have hrequest := (contiguousScannableBlocks_exact instanceCtx Blocks.emptyArray Blocks.emptyArray_nonEmpty ⟨5, 7⟩).1 [] state hreachable
  rw [hrequest.start_add, hrequest.stop_eq]
  rfl

end BinRpc

end MoneroOxide
