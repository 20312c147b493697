import MoneroOxide.Lemmas.Requests

/-!
# What a daemon is asked for

Whatever a daemon answers, the binary requests made to it are the encodings of what was asked for.
-/

namespace MoneroOxide

namespace BinRpc

variable {σ : Type}

/-! ## Outputs -/

theorem leaves_toBool {n : ℕ} {handles : List Epee.Handle} {s : Epee.State} {kind : Epee.Kind} {len : ℕ}
    (h : Standing n (.entry kind len :: handles) s) : Leaves (fun _ => Standing n handles) (toBool s) := by
  refine (leaves_read ((Epee.consumes_readBytes 1).mono (Nat.zero_le 1)) rfl h).bind fun response t ht => ?_
  obtain ⟨hstanding, ⟨bytes, rfl⟩, -⟩ := ht
  exact hstanding

theorem takes_outField (key : List UInt8) (acc : OutFields) : Takes free 0 (outField key acc) := by
  unfold outField
  split
  · exact takes_value leaves_toU64 _
  · split
    · exact takes_value leaves_epee32 _
    · split
      · exact takes_value leaves_epee32 _
      · split
        · exact takes_value leaves_epee32 _
        · split
          · exact takes_value leaves_toBool _
          · exact takes_dropInnermost free acc

theorem leaves_outOf (Γ : Ctx) (read : OutFields) {P : Epee.State → Prop} {s : Epee.State} (h : P s) :
    Leaves (fun _ => P) ((Call.ofExcept (outOf Γ read) : Walk _) s) := by
  cases hout : outOf Γ read with
  | ok out => exact h
  | error e =>
    unfold outOf at hout
    split at hout
    · split at hout
      · cases hout
        exact trivial
      · cases hout
    · cases hout
      exact trivial

theorem takes_outItem (Γ : Ctx) (res : List (RingCtOutputInformation Γ)) : Takes free 0 (outItem Γ res) := by
  intro n kind len handles s h
  refine (leaves_fields h).bind fun _ t ht => ?_
  obtain ⟨-, m, ht⟩ := ht
  refine (leaves_forFields takes_outField _ ht).bind fun read u hu => ?_
  obtain ⟨m', left, hm', hu⟩ := hu
  have hbytes : m' + 0 ≤ n - 1 + 0 := hm'
  refine (leaves_outOf Γ read hu).bind fun out v hv => ?_
  refine (leaves_dropInnermost hv).bind fun _ w hw => ?_
  refine ⟨m', ?_, hw⟩
  change m' + 0 ≤ n + 0
  omega

/-- Whatever the bytes of an answer, no output of it panics. -/
theorem ends_accumulateOuts (Γ : Ctx) (epee : List UInt8) (amount : ℕ) (res : List (RingCtOutputInformation Γ)) :
    Ends (fun _ => True) (accumulateOuts Γ epee amount res) := by
  unfold accumulateOuts
  refine (ends_decode epee (Q := fun _ => True) fun len s h => ?_).bind fun read _ => ?_
  · refine Leaves.bind (P := fun _ t => ∃ kind m left, Standing epee.length (.array kind m :: .fields left :: []) t) ?_ ?_
    · refine (leaves_optionalField (Q := fun left _ t => ∃ kind m, Standing epee.length (.array kind m :: .fields left :: []) t)
        (fun kind m left t ht => ?_) h).bind fun found t ht => ?_
      · exact (leaves_iterate ht).imp fun _ u hu => ⟨kind, m, hu⟩
      · cases found with
        | none => exact trivial
        | some _ =>
          obtain ⟨left, kind, m, ht⟩ := ht
          exact ⟨kind, m, left, ht⟩
    · intro _ t ht
      obtain ⟨kind, m, left, ht⟩ := ht
      exact (leaves_forItems (takes_outItem Γ) res ht).imp fun _ _ _ => trivial
  · dsimp only
    split
    · exact trivial
    · exact trivial

/-- The requests for chunks of the indexes, in order. -/
def OutsRequested (chunks : List (List UInt64)) (log : List (String × List UInt8)) : Prop :=
  List.Forall₂ (fun request chunk => request.1 = "get_outs.bin" ∧ chunk.length ≤ MAX_OUTS ∧
    Decodes request.2 (outsObject chunk)) log chunks

/-- The loop requests the chunks it is given, or the first of them if it fails. Its buffer starts with the header before each. -/
theorem meets_outsLoop (Γ : Ctx) (daemon : MoneroDaemon σ) (expectedRequestLen : ℕ) {chunks : List (List UInt64)}
    (hchunks : ∀ chunk ∈ chunks, chunk.length ≤ MAX_OUTS) {request : List UInt8}
    (hrequest : request.take OUTS_HEADER_LEN = outsHeader)
    {firstIter : Bool} (hfirst : firstIter = true → ∀ chunk later, chunks = chunk :: later →
      expectedRequestLen = OUTS_HEADER_LEN + 8 + chunk.length * 32)
    (res : List (RingCtOutputInformation Γ)) (s : σ × List (String × List UInt8)) :
    Call.Meets (fun _ t => ∃ log, t.2 = s.2 ++ log ∧ OutsRequested chunks log)
      (fun e t => NoPanic e ∧ ∃ log done, t.2 = s.2 ++ log ∧ done <+: chunks ∧ OutsRequested done log)
      (outsLoop Γ (recording daemon) expectedRequestLen chunks request firstIter res s) := by
  induction chunks generalizing request firstIter res s with
  | nil => exact ⟨[], (List.append_nil _).symm, .nil⟩
  | cons chunk chunks ih =>
    obtain ⟨hchunk, hlater⟩ := List.forall_mem_cons.1 hchunks
    have hdecodes := decodes_encode (ok_outsObject hchunk)
    have hbuild := outsRequest_eq hrequest hchunk fun hiter => hfirst hiter chunk chunks rfl
    set built := Epee.HEADER ++ Epee.VERSION :: (outsObject chunk).encode .Object with hbuilt
    have hone : ∀ t : σ × List (String × List UInt8), t.2 = s.2 ++ [("get_outs.bin", built)] →
        ∃ log done, t.2 = s.2 ++ log ∧ done <+: chunk :: chunks ∧ OutsRequested done log := by
      intro t ht
      exact ⟨_, [chunk], ht, ⟨chunks, rfl⟩, .cons ⟨rfl, hchunk, hdecodes⟩ .nil⟩
    rw [outsLoop, hbuild]
    refine Call.Meets.bind (P := fun a t => a = built ∧ t = s) ⟨rfl, rfl⟩ ?_
    rintro _ _ ⟨rfl, rfl⟩
    refine Call.Meets.bind ((meets_binCall daemon _ _ _ _).imp (fun _ _ ht => ht.2) fun e t ht => ⟨ht.1, hone t ht.2⟩) ?_
    intro outs t ht
    refine Call.Meets.bind ((meets_ofExcept (ends_accumulateOuts Γ outs chunk.length res) t).imp (fun _ _ hu => hu) ?_) ?_
    · rintro e u ⟨he, rfl⟩
      exact ⟨he, hone u ht⟩
    · rintro res' u ⟨-, rfl⟩
      refine (ih hlater (take_outsObject hchunk) (fun hiter : false = true => nomatch hiter) res' u).imp ?_ ?_
      · rintro _ v ⟨log, hv, hlog⟩
        refine ⟨("get_outs.bin", built) :: log, ?_, .cons ⟨rfl, hchunk, hdecodes⟩ hlog⟩
        rw [hv, ht, List.append_assoc]
        rfl
      · rintro e v ⟨he, log, done, hv, hdone, hlog⟩
        refine ⟨he, ("get_outs.bin", built) :: log, chunk :: done, ?_, List.cons_prefix_cons.2 ⟨rfl, hdone⟩,
          .cons ⟨rfl, hchunk, hdecodes⟩ hlog⟩
        rw [hv, ht, List.append_assoc]
        rfl

theorem meets_ringctOutputs (Γ : Ctx) (daemon : MoneroDaemon σ) (indexes : List UInt64) (s : σ) :
    Call.Meets (fun _ t => ∃ chunks, chunks.flatten = indexes ∧ OutsRequested chunks t.2)
      (fun e t => NoPanic e ∧ ∃ chunks, chunks.flatten <+: indexes ∧ OutsRequested chunks t.2)
      (ringctOutputs Γ (recording daemon) indexes (s, [])) := by
  have hflatten := Lists.flatten_chunks (show 0 < MAX_OUTS by decide) indexes
  rw [ringctOutputs, length_outsHeader, debugAssertEq_self]
  refine Call.Meets.bind (P := fun _ t => t = (s, [])) rfl ?_
  rintro _ _ rfl
  refine (meets_outsLoop Γ daemon _ (fun chunk hchunk => Lists.length_of_mem_chunks hchunk) ?_ ?_ [] (s, [])).imp ?_ ?_
  · rw [← length_outsHeader, List.take_length]
  · intro _ chunk later hcons
    rw [Lists.length_head_chunks hcons]
  · rintro _ t ⟨log, hlog, hrequested⟩
    exact ⟨_, hflatten, hlog ▸ hrequested⟩
  · rintro e t ⟨he, log, done, hlog, hdone, hrequested⟩
    refine ⟨he, done, ?_, hlog ▸ hrequested⟩
    obtain ⟨later, hlater⟩ := hdone
    exact ⟨later.flatten, by rw [← List.flatten_append, hlater, hflatten]⟩

/-! ## Blocks -/

/-- The loop with its buffer is the loop without: each request is made anew in it, and what is asserted holds. -/
theorem fetchLoopReusing_eq (daemon : MoneroDaemon σ) (fuel : ℕ) {request : List UInt8}
    (hrequest : request.take FETCH_HEADER_LEN = fetchHeader) (state : FetchState) :
    fetchLoopReusing daemon fuel request state = fetchLoop daemon fuel state := by
  induction fuel generalizing request state with
  | zero => rfl
  | succ fuel ih =>
    rw [fetchLoopReusing, fetchLoop, fetchRequestReusing_eq hrequest]
    split
    · change (binCall daemon "get_blocks.bin" (fetchRequest state) MAX_RESPONSE_SIZE >>= _) = _
      refine bind_congr fun epee => bind_congr fun blocks => bind_congr fun outcome => ?_
      cases outcome with
      | again state' => exact ih (take_fetchRequest state) state'
      | returned applicable res => rfl
    · rfl

theorem fetchContiguousBlocksReusing_eq (daemon : MoneroDaemon σ) (range : RangeInclusive) (res : List UnvalidatedScannableBlock) :
    fetchContiguousBlocksReusing daemon range res = fetchContiguousBlocks daemon range res := by
  refine bind_congr fun outcome => ?_
  cases outcome with
  | again state =>
    rw [length_fetchHeader, debugAssertEq_self]
    exact fetchLoopReusing_eq daemon _ (by rw [← length_fetchHeader, List.take_length]) state
  | returned applicable res => rfl

/-- What holds of the requests for blocks: they are for what remains of the range. -/
def BlocksRequested (range : RangeInclusive) (log : List (String × List UInt8)) : Prop :=
  ∀ request ∈ log, request.1 = "get_blocks.bin" ∧ ∃ start remainingBlocks : UInt64, range.start ≤ start ∧
    start.toNat + remainingBlocks.toNat = range.stop.toNat + 1 ∧ Decodes request.2 (blocksObject start remainingBlocks)

theorem FetchState.Inv.decodes {range : RangeInclusive} {res : List UnvalidatedScannableBlock} {state : FetchState}
    (h : state.Inv range res) : ∃ start remainingBlocks : UInt64, range.start ≤ start ∧
      start.toNat + remainingBlocks.toNat = range.stop.toNat + 1 ∧
      Decodes (fetchRequest state) (blocksObject start remainingBlocks) := by
  have hadd := h.start_add
  have hstop := h.stop_eq
  have hstart := h.start_le
  have hremaining := h.remaining_le
  have hlt := range.stop.toNat_lt
  obtain ⟨new, -, hpushed⟩ := h.pushed
  have hofNat : ∀ n : ℕ, n ≤ state.stop → (UInt64.ofNat n).toNat = n := by
    intro n hn
    exact UInt64.toNat_ofNat_of_lt' (show n < 2 ^ 64 by omega)
  refine ⟨UInt64.ofNat state.start, UInt64.ofNat state.remainingBlocks, ?_, ?_, ?_⟩
  · rw [UInt64.le_iff_toNat_le, hofNat _ hstart]
    omega
  · rw [hofNat _ hstart, hofNat _ hremaining]
    omega
  · rw [fetchRequest_eq (hofNat _ hstart).symm (hofNat _ hremaining).symm]
    exact decodes_encode (ok_blocksObject _ _)

theorem requests_fetchLoop (daemon : MoneroDaemon σ) {range : RangeInclusive} {res : List UnvalidatedScannableBlock} (fuel : ℕ)
    {state : FetchState} (h : state.Inv range res) {s : σ × List (String × List UInt8)} (hs : BlocksRequested range s.2) :
    Requests (BlocksRequested range) (fetchLoop (recording daemon) fuel state s) := by
  induction fuel generalizing state s with
  | zero => exact hs
  | succ fuel ih =>
    have hmore : ∀ log, log = s.2 ++ [("get_blocks.bin", fetchRequest state)] → BlocksRequested range log := by
      rintro _ rfl request hrequest
      rcases List.mem_append.1 hrequest with hrequest | hrequest
      · exact hs request hrequest
      · obtain rfl := List.mem_singleton.1 hrequest
        exact ⟨rfl, h.decodes⟩
    rw [fetchLoop, if_pos h.start_le]
    refine Call.Meets.bind ((meets_binCall daemon _ _ _ _).imp (fun _ _ ht => ht) fun _ _ ht => hmore _ ht.2) ?_
    rintro epee t ⟨hlen, hlog⟩
    have ht := hmore _ hlog
    refine Call.Meets.bind ((meets_ofExcept (ends_extractBlocksFromBlocksBin epee) t).imp (fun _ _ hu => hu) ?_) ?_
    · rintro e u ⟨-, rfl⟩
      exact ht
    rintro read u ⟨hread, rfl⟩
    have hcount : ∀ blocks, read = some blocks → blocks.length < 2 ^ 31 := by
      intro blocks hblocks
      have hmax : MAX_RESPONSE_SIZE < 2 ^ 31 := by decide
      have := hread blocks hblocks
      omega
    refine Call.Meets.bind ((meets_ofExcept (receiveBlocks_ends h hcount) u).imp (fun _ _ hv => hv) ?_) ?_
    · rintro e v ⟨-, rfl⟩
      exact ht
    rintro outcome v ⟨hends, rfl⟩
    cases outcome with
    | again state' => exact ih hends.1 ht
    | returned applicable fetched => exact ht

theorem requests_fetchContiguousBlocks (daemon : MoneroDaemon σ) (range : RangeInclusive)
    (res : List UnvalidatedScannableBlock) (s : σ) :
    Requests (BlocksRequested range) (fetchContiguousBlocks (recording daemon) range res (s, [])) := by
  have hnil : BlocksRequested range [] := by
    intro request hrequest
    cases hrequest
  cases hinitial : fetchInitial range res with
  | error e =>
    rw [fetchContiguousBlocks, hinitial]
    exact hnil
  | ok outcome =>
    rw [fetchContiguousBlocks, hinitial]
    cases outcome with
    | again state => exact requests_fetchLoop daemon _ (Reachable.initial hinitial).inv hnil
    | returned applicable res => exact hnil

/-! ## Output indexes, and the distribution of outputs -/

theorem requests_outputIndexes (daemon : MoneroDaemon σ) (hash : Bytes 32) (s : σ) :
    Requests (fun log => ∃ request, log = [("get_o_indexes.bin", request)] ∧ Decodes request (txidObject hash))
      (outputIndexes (recording daemon) hash (s, [])) := by
  have hdecodes := decodes_encode (ok_txidObject hash)
  rw [encode_txidObject] at hdecodes
  refine Requests.bind ((requests_binCall daemon _ _ _ _).imp ?_) fun epee t ht => requests_ofExcept _ ht
  rintro _ rfl
  exact ⟨_, rfl, hdecodes⟩

theorem requests_ringctOutputDistribution (daemon : MoneroDaemon σ) (latestBlockNumber : Call _ InterfaceError UInt64)
    (start stop : UInt64) (s : σ) :
    Requests (fun log => if stop < start then log = [] else ∃ request, log = [("get_output_distribution.bin", request)] ∧
        Decodes request (distributionObject start (if start = 0 ∧ stop = 0 then 1 else stop)))
      (ringctOutputDistribution (recording daemon) latestBlockNumber (.Included start) (.Included stop) (s, [])) := by
  have hdecodes := decodes_encode (ok_distributionObject start (if start = 0 ∧ stop = 0 then 1 else stop))
  rw [encode_distributionObject] at hdecodes
  have hrun : ringctOutputDistribution (recording daemon) latestBlockNumber (.Included start) (.Included stop) (s, []) =
      (if stop < start then
        throw (.error (.InternalError ("malformed range: inclusive start " ++ toString start ++ ", inclusive end " ++
          toString stop)))
      else do
        let distributions ← binCall (recording daemon) "get_output_distribution.bin" (distributionRequest start stop)
          (min (min (stop.toNat - start.toNat + 2) USIZE_MAX * 8) USIZE_MAX)
        Call.ofExcept (distributionOf start stop distributions) : Call _ InterfaceError (List UInt64)) (s, []) := rfl
  rw [hrun]
  by_cases hlt : stop < start
  · simp only [if_pos hlt]
    exact rfl
  · simp only [if_neg hlt]
    refine Requests.bind ((requests_binCall daemon _ _ _ _).imp ?_) fun epee t ht => requests_ofExcept _ ht
    rintro _ rfl
    exact ⟨_, rfl, hdecodes⟩

/-! ## All of them -/

/-- Whatever a daemon answers, what it was asked for decodes to what was to be asked. The outputs are asked for in chunks of the
indexes, in order, all of them unless the call fails, and what is asserted of the lengths of the requests does not panic. The indexes of
the outputs of a transaction are asked for with its hash; the distribution with the range, with an end of one for the range of the first
block; blocks with a start and how many remain, whatever the buffer the request is made in held after its header, so that the loop with
the buffer is the loop which makes each request anew. -/
theorem requests_decode (Γ : Ctx) (daemon : MoneroDaemon σ) (s : σ) :
    (∀ indexes : List UInt64, Call.Meets
      (fun _ t => ∃ chunks, chunks.flatten = indexes ∧ OutsRequested chunks t.2)
      (fun e t => NoPanic e ∧ ∃ chunks, chunks.flatten <+: indexes ∧ OutsRequested chunks t.2)
      (ringctOutputs Γ (recording daemon) indexes (s, []))) ∧
    (∀ hash : Bytes 32, Requests (fun log => ∃ request, log = [("get_o_indexes.bin", request)] ∧ Decodes request (txidObject hash))
      (outputIndexes (recording daemon) hash (s, []))) ∧
    (∀ (latestBlockNumber : Call _ InterfaceError UInt64) (start stop : UInt64), Requests
      (fun log => if stop < start then log = [] else ∃ request, log = [("get_output_distribution.bin", request)] ∧
        Decodes request (distributionObject start (if start = 0 ∧ stop = 0 then 1 else stop)))
      (ringctOutputDistribution (recording daemon) latestBlockNumber (.Included start) (.Included stop) (s, []))) ∧
    (∀ (before : List UInt8) (start remainingBlocks : UInt64), ∃ request,
      fetchRequestReusing (fetchHeader ++ before) start.toNat remainingBlocks.toNat = .ok request ∧
        Decodes request (blocksObject start remainingBlocks)) ∧
    ∀ (range : RangeInclusive) (res : List UnvalidatedScannableBlock),
      fetchContiguousBlocksReusing daemon range res = fetchContiguousBlocks daemon range res ∧
        Requests (BlocksRequested range) (fetchContiguousBlocksReusing (recording daemon) range res (s, [])) := by
  refine ⟨fun indexes => meets_ringctOutputs Γ daemon indexes s, fun hash => requests_outputIndexes daemon hash s,
    fun latestBlockNumber start stop => requests_ringctOutputDistribution daemon latestBlockNumber start stop s,
    fun before start remainingBlocks => ?_, fun range res => ⟨fetchContiguousBlocksReusing_eq daemon range res, ?_⟩⟩
  · let state : FetchState := { start := start.toNat, stop := 0, remainingBlocks := remainingBlocks.toNat, res := [] }
    refine ⟨_, fetchRequestReusing_eq ?_ state, ?_⟩
    · rw [← length_fetchHeader, List.take_left]
    · rw [fetchRequest_eq rfl rfl]
      exact decodes_encode (ok_blocksObject start remainingBlocks)
  · rw [fetchContiguousBlocksReusing_eq]
    exact requests_fetchContiguousBlocks daemon range res s

end BinRpc

end MoneroOxide
