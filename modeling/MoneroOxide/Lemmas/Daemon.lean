import MoneroOxide.Daemon
import MoneroOxide.Lib.Results

/-!
# One round of the loop that fetches blocks

`prepare` and `receive` have one statement each for what they do from a state within its bounds (`LoopState.Inv`); these do not
mention how the request or the new size is computed. A run of the loop is a sequence of answers to its calls, of which nothing is
assumed.
-/

namespace MoneroOxide

namespace Blocks

/-- A text that deserializes is not empty. -/
def SerdeJson.NonEmpty (json : SerdeJson) : Prop :=
  ∀ text, (json.response text).isSome ∨ (json.responses text).isSome → 0 < text.utf8ByteSize

/-- The bounds the loop keeps to. -/
structure LoopState.Inv (range : RangeInclusive) (state : LoopState) : Prop where
  one_le : 1 ≤ state.blocksPerRequest
  le_max : state.blocksPerRequest ≤ USIZE_MAX
  start_le : range.start.toNat ≤ state.start
  start_le_max : state.start ≤ USIZE_MAX
  stop_eq : state.stop = range.stop.toNat

/-! ## The request -/

theorem checkedSub_eq {a b : ℕ} (h : b ≤ a) : checkedSub a b = .ok (a - b) := if_pos h

theorem checkedAdd_eq {a b : ℕ} (h : a + b ≤ USIZE_MAX) : checkedAdd a b = .ok (a + b) := if_pos h

theorem checkedDiv_eq {a b : ℕ} (h : b ≠ 0) : checkedDiv a b = .ok (a / b) := if_pos h

theorem amountRequested_eq {start stop : ℕ} (h : start ≤ stop) (hmax : stop - start + 1 ≤ USIZE_MAX) :
    amountRequested start stop = .ok (stop - start + 1) := by
  unfold amountRequested
  rw [checkedSub_eq h]
  exact checkedAdd_eq hmax

/-- The number a batch stops at is one of those it was to be extended by. -/
theorem extendRequest_mem {numbers : List ℕ} {request : String} {number : ℕ} (h : (extendRequest request numbers).2 = some number) :
    number ∈ numbers := by
  induction numbers generalizing request with
  | nil => cases h
  | cons n numbers ih =>
    rw [extendRequest] at h
    split at h
    · obtain rfl : n = number := Option.some.inj h
      exact List.mem_cons_self
    · exact List.mem_cons_of_mem _ (ih h)

/-- A request from a state: it starts where the state does, stays within its range, counts its blocks, and is for one block
exactly when it says so, which it does when one block is to be requested. -/
structure Request.For (state : LoopState) (request : Request) : Prop where
  start_eq : request.start = state.start
  start_le : request.start ≤ request.stop
  stop_le : request.stop ≤ state.stop
  amount : request.requestedBlocks = request.stop - request.start + 1
  single : request.singleBlock = true → request.stop = request.start
  of_one : state.blocksPerRequest = 1 → request.singleBlock = true

/-- A request can be prepared, without a panic, from a state within its bounds. -/
theorem exists_prepare {state : LoopState} (hone : 1 ≤ state.blocksPerRequest) (hmax : state.blocksPerRequest ≤ USIZE_MAX)
    (hle : state.start ≤ state.stop) (hstop : state.stop ≤ USIZE_MAX) :
    ∃ request, prepare state = .ok request ∧ request.For state := by
  obtain ⟨stop, hstop_eq⟩ : ∃ stop, stop = min (min (state.start + (state.blocksPerRequest - 1)) USIZE_MAX) state.stop := ⟨_, rfl⟩
  have h1 : state.start ≤ stop := by omega
  have h2 : stop ≤ state.stop := by omega
  have h3 : stop - state.start + 1 ≤ USIZE_MAX := by omega
  unfold prepare
  rw [checkedSub_eq hone]
  simp only [Results.ok_bind, ← hstop_eq, amountRequested_eq h1 h3, Results.pure_eq]
  by_cases hsingle : state.start = stop
  · rw [if_pos hsingle]
    exact ⟨_, rfl, rfl, h1, h2, rfl, fun _ => hsingle.symm, fun _ => rfl⟩
  · rw [if_neg hsingle]
    have hmany : state.blocksPerRequest ≠ 1 := by omega
    split
    · exact ⟨_, rfl, rfl, h1, h2, rfl, nofun, fun h => absurd h hmany⟩
    · rename_i request number heq
      have hmem := extendRequest_mem (congrArg Prod.snd heq)
      rw [List.mem_range'_1] at hmem
      have h4 : state.start ≤ number - 1 := by omega
      have h5 : number - 1 ≤ state.stop := by omega
      rw [checkedSub_eq (by omega)]
      simp only [Results.ok_bind, amountRequested_eq h4 (by omega)]
      exact ⟨_, rfl, rfl, h4, h5, rfl, nofun, fun h => absurd h hmany⟩

/-! ## The response -/

/-- The new size of a request is within its bounds, for a response that is not empty. -/
theorem exists_adapt {blocksPerRequest length : ℕ} (hone : 1 ≤ blocksPerRequest) (hmax : blocksPerRequest ≤ USIZE_MAX)
    (hlength : 0 < length) : ∃ adapted, adapt blocksPerRequest length = .ok adapted ∧ 1 ≤ adapted ∧ adapted ≤ USIZE_MAX := by
  have hUSIZE : 1 ≤ USIZE_MAX := by decide
  unfold adapt
  by_cases hlt : length < TARGET_RESPONSE_SIZE
  · have hpos : 0 < blocksPerRequest := hone
    -- A byte of the response is at least counted once, and the bytes of a block are not more than those of the response.
    have hdiv : (length + blocksPerRequest - 1) / blocksPerRequest ≠ 0 := by
      have : 1 ≤ (length + blocksPerRequest - 1) / blocksPerRequest := (Nat.one_le_div_iff hpos).2 (by omega)
      omega
    have hle : (length + blocksPerRequest - 1) / blocksPerRequest ≤ length := by
      refine Nat.le_of_lt_succ ((Nat.div_lt_iff_lt_mul hpos).2 ?_)
      have : length * 1 ≤ length * blocksPerRequest := Nat.mul_le_mul_left _ hone
      rw [Nat.succ_mul]
      omega
    have hlt' : (length + blocksPerRequest - 1) / blocksPerRequest ≤ TARGET_RESPONSE_SIZE := le_trans hle hlt.le
    have hproportional : 1 ≤ TARGET_RESPONSE_SIZE / ((length + blocksPerRequest - 1) / blocksPerRequest) :=
      (Nat.one_le_div_iff (Nat.pos_of_ne_zero hdiv)).2 hlt'
    rw [if_pos hlt, checkedDiv_eq (by omega)]
    simp only [Results.ok_bind]
    rw [checkedDiv_eq hdiv]
    simp only [Results.ok_bind, Results.pure_eq]
    rw [if_neg (by omega)]
    exact ⟨_, rfl, by omega, by omega⟩
  · rw [if_neg hlt]
    simp only [Results.ok_bind, Results.pure_eq]
    by_cases hgt : TARGET_RESPONSE_SIZE < length
    · rw [if_pos hgt]
      exact ⟨_, rfl, by omega, by omega⟩
    · rw [if_neg hgt]
      exact ⟨_, rfl, hone, hmax⟩

/-- What the loop over the responses reads: each response has the number in its position as its id, and holds a block. -/
theorem readBlocks_ok {responses : List (ℕ × JsonRpcResponse)} {blocks : List Block} (h : readBlocks responses = .ok blocks) :
    List.Forall₂ (fun x block => x.2.id.map UInt64.toNat = some x.1 ∧ readBlock x.2 = .ok block) responses blocks := by
  induction responses generalizing blocks with
  | nil =>
    obtain rfl : [] = blocks := Except.ok.inj h
    exact .nil
  | cons x responses ih =>
    obtain ⟨number, json⟩ := x
    rw [readBlocks] at h
    by_cases hid : json.id.map UInt64.toNat = some number
    · rw [if_neg (not_not.2 hid)] at h
      obtain ⟨block, hblock, h⟩ := Results.bind_eq_ok.1 h
      obtain ⟨rest, hrest, h⟩ := Results.bind_eq_ok.1 h
      obtain rfl : block :: rest = blocks := Except.ok.inj h
      exact .cons ⟨hid, hblock⟩ (ih hrest)
    · rw [if_pos hid] at h
      cases h

/-- A block which was read from one of the responses in an answer, the one whose id is the number of the block. -/
def FromAnswer (json : SerdeJson) (answers : List (Except InterfaceError String)) (number : ℕ) (block : Block) : Prop :=
  ∃ text, .ok text ∈ answers ∧ ∃ request responses, parseResponses json request text = some responses ∧
    ∃ response ∈ responses, response.id.map UInt64.toNat = some number ∧ readBlock response = .ok block

theorem FromAnswer.mono {json : SerdeJson} {answers answers' : List (Except InterfaceError String)} {number : ℕ} {block : Block}
    (h : FromAnswer json answers number block) (hsub : answers ⊆ answers') : FromAnswer json answers' number block := by
  obtain ⟨text, hmem, rest⟩ := h
  exact ⟨text, hsub hmem, rest⟩

/-- What a round that goes on does: after a failed call for several blocks it goes on from the same start with one block a
request; after an answer it goes on past the blocks requested, which it has read. -/
inductive Again (json : SerdeJson) (state : LoopState) (request : Request) : Except InterfaceError String → LoopState → Prop
  | retry (e : InterfaceError) : request.singleBlock = false → Again json state request (.error e) { state with blocksPerRequest := 1 }
  | read (text : String) (blocks : List Block) (blocksPerRequest : ℕ) :
      List.Forall₂ (FromAnswer json [.ok text]) (List.range' request.start request.requestedBlocks) blocks →
      1 ≤ blocksPerRequest → blocksPerRequest ≤ USIZE_MAX → state.start + request.requestedBlocks ≤ USIZE_MAX →
      Again json state request (.ok text)
        { start := state.start + request.requestedBlocks, stop := state.stop, blocksPerRequest, res := state.res ++ blocks }

/-- What a round that ends the loop does: it has read the blocks requested, beyond which no number is left. -/
inductive Returns (json : SerdeJson) (state : LoopState) (request : Request) : Except InterfaceError String → List Block → Prop
  | read (text : String) (blocks : List Block) :
      List.Forall₂ (FromAnswer json [.ok text]) (List.range' request.start request.requestedBlocks) blocks →
      USIZE_MAX < state.start + request.requestedBlocks → Returns json state request (.ok text) (state.res ++ blocks)

/-- How a round ends, for the answer to its call: it goes on, it ends the loop, or it fails with an error, never with a panic. -/
def Ends (json : SerdeJson) (state : LoopState) (request : Request) (answer : Except InterfaceError String) :
    Except (Failure InterfaceError) Outcome → Prop
  | .ok (.again state') => Again json state request answer state'
  | .ok (.returned res) => Returns json state request answer res
  | .error (.error _) => True
  | .error (.panic _) => False

/-- The blocks read from the responses to a request. -/
theorem fromAnswer_of_readBlocks {json : SerdeJson} {state : LoopState} {request : Request} (hfor : request.For state)
    {text : String}
    {responses : List JsonRpcResponse} (hparse : parseResponses json request text = some responses)
    (hlen : responses.length = request.requestedBlocks) {blocks : List Block}
    (hread : readBlocks ((List.range' request.start (request.stop + 1 - request.start)).zip
      (responses.mergeSort fun a b => idLe a.id b.id)) = .ok blocks) :
    List.Forall₂ (FromAnswer json [.ok text]) (List.range' request.start request.requestedBlocks) blocks := by
  have hamount : request.stop + 1 - request.start = request.requestedBlocks := by
    have := hfor.amount
    have := hfor.start_le
    omega
  rw [hamount] at hread
  have hall := readBlocks_ok hread
  have hsorted : (responses.mergeSort fun a b => idLe a.id b.id).length = request.requestedBlocks := by
    rw [List.length_mergeSort, hlen]
  have hzip : ((List.range' request.start request.requestedBlocks).zip
      (responses.mergeSort fun a b => idLe a.id b.id)).map Prod.fst = List.range' request.start request.requestedBlocks :=
    List.map_fst_zip (by rw [List.length_range', hsorted])
  rw [← hzip, List.forall₂_map_left_iff]
  refine List.forall₂_iff_zip.2 ⟨hall.length_eq, ?_⟩
  intro x block hx
  obtain ⟨hid, hblock⟩ := (List.forall₂_iff_zip.1 hall).2 hx
  have hmem : x.2 ∈ responses := by
    have := (List.of_mem_zip (List.of_mem_zip hx).1).2
    exact List.mem_mergeSort.1 this
  exact ⟨text, List.mem_singleton_self _, request, responses, hparse, x.2, hmem, hid, hblock⟩

/-- A round ends as described, whatever the answer to its call is. -/
theorem receive_ends {json : SerdeJson} (hjson : SerdeJson.NonEmpty json) {state : LoopState} (hone : 1 ≤ state.blocksPerRequest)
    (hmax : state.blocksPerRequest ≤ USIZE_MAX) {request : Request} (hfor : request.For state)
    (answer : Except InterfaceError String) : Ends json state request answer (receive json state request answer) := by
  cases answer with
  | error e =>
    rw [receive]
    by_cases hsingle : request.singleBlock = true
    · rw [if_pos hsingle]
      trivial
    · rw [if_neg hsingle]
      exact .retry e (Bool.not_eq_true _ ▸ hsingle)
  | ok text =>
    rw [receive]
    cases hparse : parseResponses json request text with
    | none => trivial
    | some responses =>
      by_cases hlen : responses.length = request.requestedBlocks
      · simp only [hlen, ne_eq, not_true_eq_false, if_false]
        cases hread : readBlocks ((List.range' request.start (request.stop + 1 - request.start)).zip
            (responses.mergeSort fun a b => idLe a.id b.id)) with
        | error e => trivial
        | ok blocks =>
          have hblocks := fromAnswer_of_readBlocks hfor hparse hlen hread
          have hlength : 0 < text.utf8ByteSize := by
            refine hjson text ?_
            unfold parseResponses at hparse
            split at hparse
            · obtain ⟨response, hresponse, -⟩ := Option.map_eq_some_iff.1 hparse
              exact Or.inl (by rw [hresponse]; rfl)
            · exact Or.inr (by rw [hparse]; rfl)
          by_cases hnext : state.start + request.requestedBlocks ≤ USIZE_MAX
          · obtain ⟨adapted, hadapt, h1, h2⟩ := exists_adapt hone hmax hlength
            simp only [hnext, if_true, hadapt]
            exact .read text blocks adapted hblocks h1 h2 hnext
          · simp only [hnext, if_false]
            exact .read text blocks hblocks (by omega)
      · simp only [hlen, ne_eq, not_false_eq_true, if_true]
        trivial

end Blocks

end MoneroOxide
