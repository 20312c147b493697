import MoneroOxide.DecoySelection

/-!
# What each loop of the selection of decoys keeps

A step of the inner loop adds an output which was not to be selected before, and is below the bound. As there is room for what is
still needed before each step, the outputs which are not to be selected are never more than the bound. A round of the outer loop
adds some of the candidates of its own, none of which was a candidate before.
-/

namespace MoneroOxide

/-- A failure which is an error, not a panic. -/
def Failure.IsError {ε : Type} : Failure ε → Prop
  | .error _ => True
  | .panic _ => False

theorem atIndex_eq {ε α : Type} {xs : List α} {i : ℕ} {a : α} (h : xs[i]? = some a) :
    (atIndex xs i : Except (Failure ε) α) = .ok a := by
  rw [atIndex, h]

theorem subUsize_eq {ε : Type} {a b : ℕ} (h : b ≤ a) : (subUsize a b : Except (Failure ε) ℕ) = .ok (a - b) := if_pos h

theorem subU64_of_le {ε : Type} {a b : UInt64} (h : b.toNat ≤ a.toNat) : (subU64 a b : Except (Failure ε) UInt64) = .ok (a - b) :=
  if_pos (UInt64.le_iff_toNat_le.2 h)

theorem addU64_of_lt {ε : Type} {a b : UInt64} (h : a.toNat + b.toNat < 2 ^ 64) :
    (addU64 a b : Except (Failure ε) UInt64) = .ok (a + b) :=
  if_pos h

theorem toNat_add_of_lt {a b : UInt64} (h : a.toNat + b.toNat < 2 ^ 64) : (a + b).toNat = a.toNat + b.toNat := by
  rw [UInt64.toNat_add, Nat.mod_eq_of_lt h]

theorem toNat_sub_of_le {a b : UInt64} (h : b.toNat ≤ a.toNat) : (a - b).toNat = a.toNat - b.toNat :=
  UInt64.toNat_sub_of_le _ _ (UInt64.le_iff_toNat_le.2 h)

/-- The partition point is at most the index of an element for which the predicate does not hold. -/
theorem partitionPoint_le {α : Type} {p : α → Bool} {xs : List α} {i : ℕ} {a : α} (ha : xs[i]? = some a) (hp : p a = false) :
    partitionPoint p xs ≤ i := by
  unfold partitionPoint
  induction xs generalizing i with
  | nil => simp at ha
  | cons x xs ih =>
    rw [List.takeWhile_cons]
    cases hx : p x with
    | false => exact Nat.zero_le i
    | true =>
      cases i with
      | zero =>
        cases ha
        rw [hx] at hp
        cases hp
      | succ i => exact Nat.succ_le_succ (ih ha)

theorem getElem?_le_of_pairwise {xs : List UInt64} (h : xs.Pairwise (· ≤ ·)) {i j : ℕ} {a b : UInt64} (hij : i ≤ j)
    (ha : xs[i]? = some a) (hb : xs[j]? = some b) : a.toNat ≤ b.toNat := by
  rcases Nat.eq_or_lt_of_le hij with rfl | hlt
  · rw [ha] at hb
    cases hb
    exact le_refl _
  · obtain ⟨hi, rfl⟩ := List.getElem?_eq_some_iff.1 ha
    obtain ⟨hj, rfl⟩ := List.getElem?_eq_some_iff.1 hb
    exact UInt64.le_iff_toNat_le.1 (List.pairwise_iff_getElem.1 h i j hi hj hlt)

theorem checkMonotonic_ok {monotonic : UInt64} {distribution : List UInt64} (h : checkMonotonic monotonic distribution = .ok ()) :
    (monotonic :: distribution).Pairwise (· ≤ ·) := by
  induction distribution generalizing monotonic with
  | nil => exact List.pairwise_singleton _ _
  | cons d distribution ih =>
    unfold checkMonotonic at h
    split at h
    · cases h
    · rename_i hle
      have hrest := ih h
      have hle : monotonic ≤ d := UInt64.not_lt.1 hle
      refine List.pairwise_cons.2 ⟨fun x hx => ?_, hrest⟩
      rcases List.mem_cons.1 hx with rfl | hx
      · exact hle
      · exact UInt64.le_trans hle ((List.pairwise_cons.1 hrest).1 x hx)

/-! ## Drawing candidates -/

/-- A pool as `select_n` makes it: the distribution increases, and the bound is one of it. -/
structure Pool.Ok (pool : Pool) : Prop where
  sorted : pool.distribution.Pairwise (· ≤ ·)
  bound : ∃ i : ℕ, pool.distribution[i]? = some pool.highestOutputExclusiveBound

/-- A count of the candidates that were drawn: at most one more for each sample, and no other call draws one. -/
structure Counts {Γ : Ctx} {σ : Type} (P : ProvidesUnvalidatedDecoys Γ σ) (rng : Randomness σ) (draws : σ → ℕ) : Prop where
  candidate : ∀ outputs seconds s, draws (rng.candidate outputs seconds s).2 ≤ draws s + 1
  nextU64 : ∀ s, draws (rng.nextU64 s).2 ≤ draws s
  latestBlockNumber : ∀ s, Call.Meets (fun _ t => draws t ≤ draws s) (fun _ t => draws t ≤ draws s) (P.latestBlockNumber s)
  ringctOutputDistribution : ∀ stop s,
    Call.Meets (fun _ t => draws t ≤ draws s) (fun _ t => draws t ≤ draws s) (P.ringctOutputDistribution stop s)
  unlockedRingctOutputs : ∀ indexes evaluateUnlocked s,
    Call.Meets (fun _ t => draws t ≤ draws s) (fun _ t => draws t ≤ draws s) (P.unlockedRingctOutputs indexes evaluateUnlocked s)

namespace Decoys

/-- The outputs before a block are not more than those up to it. -/
theorem outputsBefore_eq {distribution : List UInt64} (hsorted : distribution.Pairwise (· ≤ ·)) {i : ℕ} {total : UInt64}
    (htotal : distribution[i]? = some total) :
    ∃ prevOutputs, outputsBefore distribution i = .ok prevOutputs ∧ prevOutputs.toNat ≤ total.toNat := by
  cases i with
  | zero => exact ⟨0, rfl, Nat.zero_le _⟩
  | succ prevBlock =>
    have hlt : prevBlock + 1 < distribution.length := (List.getElem?_eq_some_iff.1 htotal).1
    have hprev : distribution[prevBlock]? = some (distribution.get ⟨prevBlock, by omega⟩) := List.getElem?_eq_getElem _
    exact ⟨_, atIndex_eq hprev, getElem?_le_of_pairwise hsorted (Nat.le_succ _) hprev htotal⟩

/-- The block a candidate points to is one of the distribution, and it ends at most at the bound. -/
theorem blockOf_eq {pool : Pool} (hpool : pool.Ok) {o : UInt64} (ho : o < pool.highestOutputExclusiveBound) :
    ∃ prevOutputs n, blockOf pool o = .ok (prevOutputs, n) ∧
      prevOutputs.toNat + n.toNat ≤ pool.highestOutputExclusiveBound.toNat := by
  have hlt := UInt64.lt_iff_toNat_lt.1 ho
  obtain ⟨k, hk⟩ := hpool.bound
  unfold blockOf
  generalize pool.highestOutputExclusiveBound = bound at *
  have hone : (1 : UInt64).toNat ≤ bound.toNat := by
    change 1 ≤ _
    omega
  have hlast : (bound - 1).toNat = bound.toNat - 1 := toNat_sub_of_le hone
  have hle : o.toNat ≤ (bound - 1).toNat := by omega
  have htarget : (bound - 1 - o).toNat = bound.toNat - 1 - o.toNat := by rw [toNat_sub_of_le hle, hlast]
  have hp : decide (bound < bound - 1 - o) = false := by
    rw [decide_eq_false_iff_not, UInt64.lt_iff_toNat_lt, htarget]
    omega
  -- the bound is not before the target, so that the partition point is an index of the distribution
  have hik := partitionPoint_le (p := fun s => decide (s < bound - 1 - o)) hk hp
  generalize hi : partitionPoint (fun s => decide (s < bound - 1 - o)) pool.distribution = i at hik
  have hklt : k < pool.distribution.length := (List.getElem?_eq_some_iff.1 hk).1
  obtain ⟨total, htotal⟩ : ∃ total, pool.distribution[i]? = some total :=
    ⟨_, List.getElem?_eq_getElem (by omega : i < pool.distribution.length)⟩
  obtain ⟨prevOutputs, hprev, hprev_le⟩ := outputsBefore_eq hpool.sorted htotal
  have htotal_le := getElem?_le_of_pairwise hpool.sorted hik htotal hk
  refine ⟨prevOutputs, total - prevOutputs, ?_, ?_⟩
  · simp only [subU64_of_le hone, subU64_of_le hle, bind, Except.bind, hi, hprev, atIndex_eq htotal]
    rw [if_neg (UInt64.not_lt.2 (UInt64.le_iff_toNat_le.2 hprev_le))]
    rfl
  · rw [toNat_sub_of_le hprev_le]
    omega

/-- What one draw adds: an output below the bound which was not to be selected before, or nothing. -/
inductive Draws (pool : Pool) (drawn : Drawn) : Drawn → Prop
  | none : Draws pool drawn drawn
  | some (o : UInt64) : o ∉ drawn.doNotSelect → o < pool.highestOutputExclusiveBound →
      Draws pool drawn { drawn with candidates := drawn.candidates ++ [o], doNotSelect := insert o drawn.doNotSelect }

section

variable {Γ : Ctx} {σ : Type} {P : ProvidesUnvalidatedDecoys Γ σ} {rng : Randomness σ} {draws : σ → ℕ}

theorem ofExcept_of_ok {ε α : Type} {x : Except ε α} {a : α} (h : x = .ok a) (s : σ) :
    (Call.ofExcept x : EStateM ε σ α) s = .ok a s := by
  rw [h]
  rfl

theorem draw_meets (hcounts : Counts P rng draws) {pool : Pool} (hpool : pool.Ok) (drawn : Drawn) (s : σ) :
    Call.Meets (fun drawn' t => Draws pool drawn drawn' ∧ draws t ≤ draws s + 1) (fun _ _ => False) (draw rng pool drawn s) := by
  have hcandidate := hcounts.candidate pool.outputs pool.seconds s
  unfold draw
  rw [Call.bind_of_ok (rfl : Call.ofState (rng.candidate pool.outputs pool.seconds) s = .ok _ _)]
  generalize (rng.candidate pool.outputs pool.seconds s).1 = o
  generalize (rng.candidate pool.outputs pool.seconds s).2 = t at hcandidate
  by_cases ho : o < pool.highestOutputExclusiveBound
  · obtain ⟨prevOutputs, n, hblock, hle⟩ := blockOf_eq hpool ho
    rw [if_pos ho, Call.bind_of_ok (ofExcept_of_ok hblock t)]
    dsimp only
    by_cases hn : n = 0
    · rw [if_neg (not_not.2 hn)]
      exact ⟨.none, hcandidate⟩
    · have hnext := hcounts.nextU64 t
      rw [if_pos hn, Call.bind_of_ok (rfl : Call.ofState rng.nextU64 t = .ok _ _)]
      generalize (rng.nextU64 t).1 = r
      generalize (rng.nextU64 t).2 = u at hnext
      have hpos : 0 < n.toNat := by
        rw [Nat.pos_iff_ne_zero]
        intro hzero
        exact hn (UInt64.toNat_inj.1 hzero)
      have hmod : (r % n).toNat < n.toNat := by
        rw [UInt64.toNat_mod]
        exact Nat.mod_lt _ hpos
      have hsum : prevOutputs.toNat + (r % n).toNat < pool.highestOutputExclusiveBound.toNat := by omega
      have hlt : prevOutputs.toNat + (r % n).toNat < 2 ^ 64 := hsum.trans (UInt64.toNat_lt _)
      rw [Call.bind_of_ok (ofExcept_of_ok (addU64_of_lt hlt) u)]
      have hbelow : prevOutputs + r % n < pool.highestOutputExclusiveBound := by
        rw [UInt64.lt_iff_toNat_lt, toNat_add_of_lt hlt]
        exact hsum
      by_cases hmem : prevOutputs + r % n ∈ drawn.doNotSelect
      · rw [if_pos hmem]
        exact ⟨.none, by omega⟩
      · rw [if_neg hmem]
        exact ⟨.some _ hmem hbelow, by omega⟩
  · rw [if_neg ho]
    exact ⟨.none, hcandidate⟩

/-- What the inner loop keeps: the candidates are new since the loop was entered, and there is room for those not to be selected. -/
structure Drawing (pool : Pool) (before : Finset UInt64) (ringLen : UInt8) (remaining : ℕ) (drawn : Drawn) : Prop where
  subset : before ⊆ drawn.doNotSelect
  candidates : ∀ o ∈ drawn.candidates, o ∈ drawn.doNotSelect ∧ o ∉ before ∧ o < pool.highestOutputExclusiveBound
  nodup : drawn.candidates.Nodup
  card_le : drawn.doNotSelect.card ≤ pool.highestOutputExclusiveBound.toNat
  length_le : drawn.candidates.length ≤ remaining
  iters_lt : drawn.iters < maxIters ringLen

/-- A draw keeps it, if there was room for one more and one more was needed. -/
theorem Drawing.step {pool : Pool} {before : Finset UInt64} {ringLen : UInt8} {remaining : ℕ} {drawn drawn' : Drawn}
    (h : Drawing pool before ringLen remaining drawn) (hroom : drawn.doNotSelect.card < pool.highestOutputExclusiveBound.toNat)
    (hneeded : drawn.candidates.length < remaining) (hdraws : Draws pool drawn drawn') :
    Drawing pool before ringLen remaining drawn' ∧ drawn'.iters = drawn.iters ∧
      drawn'.candidates.length ≤ drawn.candidates.length + 1 := by
  cases hdraws with
  | none => exact ⟨h, rfl, Nat.le_succ _⟩
  | some o hnew hbelow =>
    refine ⟨⟨?_, ?_, ?_, ?_, ?_, h.iters_lt⟩, rfl, by simp⟩
    · exact h.subset.trans (Finset.subset_insert _ _)
    · intro o' ho'
      rcases List.mem_append.1 ho' with ho' | ho'
      · obtain ⟨hmem, hrest⟩ := h.candidates o' ho'
        exact ⟨Finset.mem_insert_of_mem hmem, hrest⟩
      · obtain rfl := List.mem_singleton.1 ho'
        exact ⟨Finset.mem_insert_self _ _, fun hbefore => hnew (h.subset hbefore), hbelow⟩
    · refine List.nodup_append.2 ⟨h.nodup, List.nodup_singleton o, ?_⟩
      intro a ha b hb hab
      obtain rfl := List.mem_singleton.1 hb
      exact hnew (hab ▸ (h.candidates a ha).1)
    · rw [Finset.card_insert_of_notMem hnew]
      exact hroom
    · rw [List.length_append, List.length_singleton]
      exact hneeded

/-- What the inner loop leaves when it ends. -/
structure Drew (pool : Pool) (before : Finset UInt64) (ringLen : UInt8) (remaining : ℕ) (drawn drawn' : Drawn) : Prop where
  drawing : Drawing pool before ringLen remaining drawn'
  length_eq : drawn'.candidates.length = remaining
  /-- An iteration adds at most one candidate. -/
  iters_le : drawn.iters + remaining ≤ drawn'.iters + drawn.candidates.length

/-- The inner loop ends before the last of its iterations, and draws one candidate in each of them. -/
theorem drawLoop_meets (hcounts : Counts P rng draws) {pool : Pool} (hpool : pool.Ok) {before : Finset UInt64} {ringLen : UInt8}
    {remaining fuel : ℕ} {drawn : Drawn} (h : Drawing pool before ringLen remaining drawn)
    (hfuel : maxIters ringLen ≤ drawn.iters + fuel) (s : σ) :
    Call.Meets (fun drawn' t => Drew pool before ringLen remaining drawn drawn' ∧ draws t + drawn.iters ≤ draws s + drawn'.iters)
      (fun e t => e.IsError ∧ draws t + drawn.iters ≤ draws s + maxIters ringLen)
      (drawLoop rng pool ringLen remaining fuel drawn s) := by
  induction fuel generalizing drawn s with
  | zero =>
    have := h.iters_lt
    omega
  | succ fuel ih =>
    unfold drawLoop
    by_cases hlength : drawn.candidates.length = remaining
    · rw [if_pos hlength]
      exact ⟨⟨h, hlength, by omega⟩, le_refl _⟩
    · rw [if_neg hlength]
      have hiters := h.iters_lt
      have hneeded : drawn.candidates.length < remaining := lt_of_le_of_ne h.length_le hlength
      have hend : Call.Meets
          (fun drawn' t => Drew pool before ringLen remaining drawn drawn' ∧ draws t + drawn.iters ≤ draws s + drawn'.iters)
          (fun e t => e.IsError ∧ draws t + drawn.iters ≤ draws s + maxIters ringLen)
          ((throw (internalError "hit decoy selection round limit") : Call σ TransactionsError Drawn) s) :=
        ⟨trivial, by omega⟩
      by_cases hlast : drawn.iters + 1 = maxIters ringLen
      · have hexhausted : exhausted pool ringLen remaining { drawn with iters := drawn.iters + 1 } = .ok true := if_pos hlast
        rw [Call.bind_of_ok (ofExcept_of_ok hexhausted s), if_pos rfl]
        exact hend
      · have hexhausted : exhausted pool ringLen remaining { drawn with iters := drawn.iters + 1 } =
            .ok (decide (pool.highestOutputExclusiveBound.toNat - drawn.doNotSelect.card < remaining - drawn.candidates.length)) := by
          unfold exhausted
          rw [if_neg hlast, subUsize_eq h.card_le]
          simp only [subUsize_eq h.length_le, bind, Except.bind]
          rfl
        rw [Call.bind_of_ok (ofExcept_of_ok hexhausted s)]
        by_cases hleft : pool.highestOutputExclusiveBound.toNat - drawn.doNotSelect.card < remaining - drawn.candidates.length
        · rw [if_pos (decide_eq_true hleft)]
          exact hend
        · rw [if_neg (by simpa using hleft)]
          -- there is room for as many as are needed, which is one at least
          have hroom : drawn.doNotSelect.card < pool.highestOutputExclusiveBound.toNat := by omega
          have hnext : Drawing pool before ringLen remaining { drawn with iters := drawn.iters + 1 } :=
            { h with iters_lt := by change drawn.iters + 1 < _; omega }
          refine Call.Meets.bind ((draw_meets hcounts hpool { drawn with iters := drawn.iters + 1 } s).imp (fun _ _ hr => hr)
            fun _ _ hfalse => hfalse.elim) ?_
          intro drawn' t hr
          obtain ⟨hdraws, hcount⟩ := hr
          obtain ⟨hdrawing, hsame, hgrown⟩ := hnext.step hroom hneeded hdraws
          have hsame : drawn'.iters = drawn.iters + 1 := hsame
          have hgrown : drawn'.candidates.length ≤ drawn.candidates.length + 1 := hgrown
          refine (ih hdrawing (by omega) t).imp ?_ ?_
          · intro drawn'' u hr
            obtain ⟨⟨hdrawing'', hlength'', hiters''⟩, hcount''⟩ := hr
            exact ⟨⟨hdrawing'', hlength'', by omega⟩, by omega⟩
          · intro e u hr
            exact ⟨hr.1, by omega⟩

/-! ## Asking for candidates -/

theorem linear_leU64 : Sorting.Linear leU64 where
  trans a b c hab hbc := decide_eq_true (UInt64.le_trans (of_decide_eq_true hab) (of_decide_eq_true hbc))
  total a b := by
    rcases UInt64.le_total a b with h | h
    · rw [Bool.or_eq_true]
      exact Or.inl (decide_eq_true h)
    · rw [Bool.or_eq_true]
      exact Or.inr (decide_eq_true h)
  antisymm a b hab hba := UInt64.le_antisymm (of_decide_eq_true hab) (of_decide_eq_true hba)

/-- The candidates that were asked for as decoys: all but the real output. -/
def asked (realIndex : Option ℕ) (candidates : List UInt64) (i : ℕ) : List UInt64 :=
  (candidates.zipIdx i).filterMap fun candidate => if realIndex = some candidate.2 then none else some candidate.1

theorem asked_cons (realIndex : Option ℕ) (candidate : UInt64) (candidates : List UInt64) (i : ℕ) :
    asked realIndex (candidate :: candidates) i =
      if realIndex = some i then asked realIndex candidates (i + 1) else candidate :: asked realIndex candidates (i + 1) := by
  unfold asked
  rw [List.zipIdx_cons, List.filterMap_cons]
  by_cases h : realIndex = some i
  · rw [if_pos h, if_pos h]
  · rw [if_neg h, if_neg h]

theorem asked_none (candidates : List UInt64) (i : ℕ) : asked none candidates i = candidates := by
  induction candidates generalizing i with
  | nil => rfl
  | cons candidate candidates ih => rw [asked_cons, if_neg nofun, ih]

/-- Past the real output, all are decoys. -/
theorem asked_of_lt {k i : ℕ} (h : k < i) (candidates : List UInt64) : asked (some k) candidates i = candidates := by
  induction candidates generalizing i with
  | nil => rfl
  | cons candidate candidates ih =>
    have hne : ¬some k = some i := by
      intro he
      cases he
      omega
    rw [asked_cons, if_neg hne, ih (by omega)]

theorem perm_asked {candidates : List UInt64} {real : UInt64} {k i : ℕ} (h : candidates[k]? = some real) :
    (real :: asked (some (i + k)) candidates i).Perm candidates := by
  induction candidates generalizing k i with
  | nil => simp at h
  | cons candidate candidates ih =>
    rw [asked_cons]
    cases k with
    | zero =>
      cases h
      rw [Nat.add_zero, if_pos rfl, asked_of_lt (Nat.lt_succ_self i)]
    | succ k =>
      have hne : ¬some (i + (k + 1)) = some i := by
        intro he
        have := Option.some.inj he
        omega
      rw [if_neg hne]
      refine (List.Perm.swap _ _ _).trans (List.Perm.cons _ ?_)
      have := ih (i := i + 1) h
      rwa [Nat.add_assoc, Nat.add_comm 1 k] at this

/-- The real output is found among the candidates it was sorted into, and the others are the candidates there were. -/
theorem includeReal_eq (real : UInt64) (candidates : List UInt64) :
    ∃ sorted i, includeReal real candidates = .ok (sorted, some i) ∧ (asked (some i) sorted 0).Perm candidates := by
  have hperm : (Sorting.sortBy leU64 id (candidates ++ [real])).Perm (real :: candidates) :=
    (Sorting.sortBy_perm _ _ _).trans (List.perm_append_singleton real candidates)
  unfold includeReal
  dsimp only
  generalize Sorting.sortBy leU64 id (candidates ++ [real]) = sorted at hperm
  have hmem : real ∈ sorted := hperm.mem_iff.2 List.mem_cons_self
  cases hfind : sorted.findIdx? (· == real) with
  | none =>
    rw [List.findIdx?_eq_none_iff] at hfind
    simpa using hfind real hmem
  | some i =>
    refine ⟨sorted, i, rfl, ?_⟩
    obtain ⟨hi, hreal, -⟩ := List.findIdx?_eq_some_iff_getElem.1 hfind
    have hget : sorted[i]? = some real := by
      rw [List.getElem?_eq_getElem hi, eq_of_beq hreal]
    have hasked := perm_asked (i := 0) hget
    rw [Nat.zero_add] at hasked
    exact (hasked.trans hperm).cons_inv

/-- A decoy that may be selected. -/
structure Selectable (Γ : Ctx) (decoy : UInt64 × Γ.Point × Γ.Point) : Prop where
  key : Γ.TorsionFree decoy.2.1
  commitment : Γ.TorsionFree decoy.2.2
  ne_zero : decoy.2.1 ≠ 0

/-- The loop over the outputs returned adds some of the decoys that were asked for, in their order. -/
theorem receiveLoop_eq (output : WalletOutput Γ) (realIndex : Option ℕ) (candidates : List UInt64) {i : ℕ}
    {received : List (Option (Γ.Point × Γ.Point))} {rest : List UInt64} (hrest : candidates.drop i = rest)
    (hlength : received.length = rest.length) (res : List (UInt64 × Γ.Point × Γ.Point)) :
    (∃ new, receiveLoop output realIndex candidates i received res = .ok (res ++ new) ∧
      (new.map Prod.fst).Sublist (asked realIndex rest i) ∧ ∀ decoy ∈ new, Selectable Γ decoy) ∨
    ∃ e, receiveLoop output realIndex candidates i received res = .error (.error e) := by
  induction received generalizing i rest res with
  | nil =>
    refine Or.inl ⟨[], ?_, List.nil_sublist _, nofun⟩
    rw [receiveLoop, List.append_nil]
  | cons first received ih =>
    cases rest with
    | nil => cases hlength
    | cons candidate rest =>
      have hrest' : candidates.drop (i + 1) = rest := by
        rw [← List.drop_drop, hrest]
        rfl
      have hget : candidates[i]? = some candidate := by
        rw [← List.head?_drop, hrest]
        rfl
      have hlength' : received.length = rest.length := Nat.succ.inj hlength
      -- what is passed over is asked for, or it is the real output
      have hpassed : ∀ res,
          (∃ new, receiveLoop output realIndex candidates (i + 1) received res = .ok (res ++ new) ∧
            (new.map Prod.fst).Sublist (asked realIndex (candidate :: rest) i) ∧ ∀ decoy ∈ new, Selectable Γ decoy) ∨
          ∃ e, receiveLoop output realIndex candidates (i + 1) received res = .error (.error e) := by
        intro res
        refine (ih hrest' hlength' res).imp ?_ id
        rintro ⟨new, hok, hsub, hnew⟩
        refine ⟨new, hok, hsub.trans ?_, hnew⟩
        rw [asked_cons]
        split
        · exact List.Sublist.refl _
        · exact List.sublist_cons_self _ _
      unfold receiveLoop
      by_cases hreal : realIndex = some i
      · rw [if_pos hreal]
        split
        · exact Or.inr ⟨_, rfl⟩
        · exact hpassed res
      · rw [if_neg hreal]
        cases first with
        | none => exact hpassed res
        | some pair =>
          obtain ⟨key, commitment⟩ := pair
          dsimp only
          split
          · exact hpassed res
          · rename_i htorsion
            split
            · exact hpassed res
            · rename_i hzero
              rw [atIndex_eq hget]
              refine (ih hrest' hlength' (res ++ [(candidate, key, commitment)])).imp ?_ id
              rintro ⟨new, hok, hsub, hnew⟩
              refine ⟨(candidate, key, commitment) :: new, ?_, ?_, ?_⟩
              · dsimp only
                rw [hok, List.append_assoc, List.singleton_append]
              · rw [asked_cons, if_neg hreal]
                exact hsub.cons_cons _
              · intro decoy hdecoy
                rcases List.mem_cons.1 hdecoy with rfl | hdecoy
                · obtain ⟨hkey, hcommitment⟩ := not_not.1 htorsion
                  exact ⟨hkey, hcommitment, hzero⟩
                · exact hnew decoy hdecoy

theorem toAsk_eq (firstIter : Bool) (real : UInt64) (drawn : List UInt64) :
    ∃ candidates realIndex, toAsk firstIter real drawn = .ok (candidates, realIndex) ∧
    (asked realIndex candidates 0).Perm drawn := by
  cases firstIter with
  | false =>
    refine ⟨drawn, none, rfl, ?_⟩
    rw [asked_none]
  | true =>
    obtain ⟨sorted, i, hinclude, hperm⟩ := includeReal_eq real drawn
    exact ⟨sorted, some i, hinclude, hperm⟩

theorem ofResult_meets {ε α : Type} {x : EStateM ε σ α} {Q : α → σ → Prop} {E : ε → σ → Prop} {s : σ} (h : Call.Meets Q E (x s)) :
    Call.Meets Q (fun e t => e.IsError ∧ ∃ error, e = .error error ∧ E error t) (Call.ofResult x s) := by
  unfold Call.ofResult
  generalize x s = result at h
  cases result with
  | ok a t => exact h
  | error e t => exact ⟨trivial, e, rfl, h⟩

/-- The outputs that are returned are as many as were asked for. -/
theorem validUnlockedRingctOutputs_meets (hcounts : Counts P rng draws) (indexes : List UInt64)
    (evaluateUnlocked : EvaluateUnlocked)
    (s : σ) :
    Call.Meets (fun outputs t => outputs.length = indexes.length ∧ draws t ≤ draws s) (fun _ t => draws t ≤ draws s)
      (P.validUnlockedRingctOutputs indexes evaluateUnlocked s) := by
  unfold ProvidesUnvalidatedDecoys.validUnlockedRingctOutputs
  refine Call.Meets.bind (hcounts.unlockedRingctOutputs indexes evaluateUnlocked s) fun outputs t hcount => ?_
  by_cases hlength : outputs.length = indexes.length
  · rw [if_neg (not_not.2 hlength)]
    exact ⟨hlength, hcount⟩
  · rw [if_pos hlength]
    exact hcount

/-! ## Selecting -/

/-- What is selected, at any time: no decoy is selected twice, and none is the real output. -/
structure Selected (bound real : UInt64) (res : List (UInt64 × Γ.Point × Γ.Point)) : Prop where
  nodup : (res.map Prod.fst).Nodup
  ne_real : ∀ decoy ∈ res, decoy.1 ≠ real
  below : ∀ decoy ∈ res, decoy.1 < bound
  selectable : ∀ decoy ∈ res, Selectable Γ decoy

/-- What the outer loop keeps. -/
structure Selecting (pool : Pool) (real : UInt64) (ringLen : UInt8) (decoyCount : ℕ) (doNotSelect : Finset UInt64) (iters : ℕ)
    (res : List (UInt64 × Γ.Point × Γ.Point)) : Prop where
  selected : Selected pool.highestOutputExclusiveBound real res
  real_mem : real ∈ doNotSelect
  res_mem : ∀ decoy ∈ res, decoy.1 ∈ doNotSelect
  length_le : res.length ≤ decoyCount
  card_le : doNotSelect.card ≤ pool.highestOutputExclusiveBound.toNat
  iters_lt : iters < maxIters ringLen

theorem Selecting.drawing {pool : Pool} {real : UInt64} {ringLen : UInt8} {decoyCount : ℕ} {doNotSelect : Finset UInt64} {iters : ℕ}
    {res : List (UInt64 × Γ.Point × Γ.Point)} (h : Selecting pool real ringLen decoyCount doNotSelect iters res) (remaining : ℕ) :
    Drawing pool doNotSelect ringLen remaining { candidates := [], doNotSelect, iters } where
  subset := Finset.Subset.refl _
  candidates := nofun
  nodup := List.nodup_nil
  card_le := h.card_le
  length_le := Nat.zero_le _
  iters_lt := h.iters_lt

/-- A round keeps it: what is added was drawn in this round. -/
theorem Selecting.round {pool : Pool} {real : UInt64} {ringLen : UInt8} {decoyCount : ℕ} {doNotSelect : Finset UInt64} {iters : ℕ}
    {res new : List (UInt64 × Γ.Point × Γ.Point)} (h : Selecting pool real ringLen decoyCount doNotSelect iters res) {drawn : Drawn}
    (hdrawing : Drawing pool doNotSelect ringLen (decoyCount - res.length) drawn) {asked : List UInt64}
    (hperm : asked.Perm drawn.candidates) (hsub : (new.map Prod.fst).Sublist asked) (hnew : ∀ decoy ∈ new, Selectable Γ decoy) :
    Selecting pool real ringLen decoyCount drawn.doNotSelect drawn.iters (res ++ new) := by
  have hcandidates : ∀ decoy ∈ new,
      decoy.1 ∈ drawn.doNotSelect ∧ decoy.1 ∉ doNotSelect ∧ decoy.1 < pool.highestOutputExclusiveBound := by
    intro decoy hdecoy
    exact hdrawing.candidates _ (hperm.mem_iff.1 (hsub.subset (List.mem_map_of_mem hdecoy)))
  have hnodup : (new.map Prod.fst).Nodup := hsub.nodup (hperm.nodup_iff.2 hdrawing.nodup)
  have hlength : new.length ≤ decoyCount - res.length := by
    rw [← List.length_map (f := Prod.fst)]
    exact (hsub.length_le.trans (Nat.le_of_eq hperm.length_eq)).trans hdrawing.length_le
  refine ⟨⟨?_, ?_, ?_, ?_⟩, hdrawing.subset h.real_mem, ?_, ?_, hdrawing.card_le, hdrawing.iters_lt⟩
  · rw [List.map_append]
    refine List.nodup_append.2 ⟨h.selected.nodup, hnodup, ?_⟩
    intro a ha b hb hab
    obtain ⟨old, hold, rfl⟩ := List.mem_map.1 ha
    obtain ⟨decoy, hdecoy, rfl⟩ := List.mem_map.1 hb
    exact (hcandidates decoy hdecoy).2.1 (hab ▸ h.res_mem old hold)
  · intro decoy hdecoy
    rcases List.mem_append.1 hdecoy with hdecoy | hdecoy
    · exact h.selected.ne_real decoy hdecoy
    · rintro hreal
      exact (hcandidates decoy hdecoy).2.1 (hreal ▸ h.real_mem)
  · intro decoy hdecoy
    rcases List.mem_append.1 hdecoy with hdecoy | hdecoy
    · exact h.selected.below decoy hdecoy
    · exact (hcandidates decoy hdecoy).2.2
  · intro decoy hdecoy
    rcases List.mem_append.1 hdecoy with hdecoy | hdecoy
    · exact h.selected.selectable decoy hdecoy
    · exact hnew decoy hdecoy
  · intro decoy hdecoy
    rcases List.mem_append.1 hdecoy with hdecoy | hdecoy
    · exact hdrawing.subset (h.res_mem decoy hdecoy)
    · exact (hcandidates decoy hdecoy).1
  · rw [List.length_append]
    have := h.length_le
    omega

/-- The outer loop ends with as many decoys as it is to select, or with an error; the candidates it draws are fewer than the iterations
it is allowed. -/
theorem selectLoop_meets (hcounts : Counts P rng draws) {pool : Pool} (hpool : pool.Ok) (output : WalletOutput Γ) {ringLen : UInt8}
    (evaluateUnlocked : EvaluateUnlocked) {decoyCount fuel : ℕ} (firstIter : Bool) {doNotSelect : Finset UInt64} {iters : ℕ}
    {res : List (UInt64 × Γ.Point × Γ.Point)}
    (h : Selecting pool output.relativeId.indexOnBlockchain ringLen decoyCount doNotSelect iters res)
    (hfuel : maxIters ringLen ≤ iters + fuel) (s : σ) :
    Call.Meets
      (fun res' t => Selected pool.highestOutputExclusiveBound output.relativeId.indexOnBlockchain res' ∧ res'.length = decoyCount ∧
        draws t + iters ≤ draws s + maxIters ringLen)
      (fun e t => e.IsError ∧ draws t + iters ≤ draws s + maxIters ringLen)
      (selectLoop P rng pool output ringLen evaluateUnlocked decoyCount fuel firstIter doNotSelect iters res s) := by
  induction fuel generalizing firstIter doNotSelect iters res s with
  | zero =>
    have := h.iters_lt
    omega
  | succ fuel ih =>
    unfold selectLoop
    have hiters := h.iters_lt
    by_cases hlength : res.length = decoyCount
    · rw [if_pos hlength]
      exact ⟨h.selected, hlength, by omega⟩
    · rw [if_neg hlength, Call.bind_of_ok (ofExcept_of_ok (subUsize_eq h.length_le) s)]
      have hle := h.length_le
      refine Call.Meets.bind (drawLoop_meets hcounts hpool (h.drawing _) (Nat.le_add_left _ _) s) ?_
      intro drawn t hr
      obtain ⟨⟨hdrawing, -, hdrawn⟩, hcount⟩ := hr
      have hdrawn : iters + (decoyCount - res.length) ≤ drawn.iters := hdrawn
      have hcount : draws t + iters ≤ draws s + drawn.iters := hcount
      have hdrawn_lt := hdrawing.iters_lt
      obtain ⟨candidates, realIndex, hask, hperm⟩ := toAsk_eq firstIter output.relativeId.indexOnBlockchain drawn.candidates
      rw [Call.bind_of_ok (ofExcept_of_ok hask t)]
      refine Call.Meets.bind ((ofResult_meets (validUnlockedRingctOutputs_meets hcounts candidates evaluateUnlocked t)).imp
        (fun _ _ hr => hr) ?_) ?_
      · rintro e u ⟨hisError, error, -, hcount'⟩
        exact ⟨hisError, by omega⟩
      · rintro outputs u ⟨houtputs, hcount'⟩
        rcases receiveLoop_eq output realIndex candidates rfl (houtputs.trans (by rw [List.drop_zero])) res with
          ⟨new, hreceive, hsub, hnew⟩ | ⟨e, hreceive⟩
        · rw [Call.bind_of_ok (ofExcept_of_ok hreceive u)]
          rw [List.drop_zero] at hsub
          refine (ih false (h.round hdrawing hperm hsub hnew) (by omega) u).imp ?_ ?_
          · intro res' v hr
            exact ⟨hr.1, hr.2.1, by omega⟩
          · intro e v hr
            exact ⟨hr.1, by omega⟩
        · rw [Call.bind_of_error (by rw [hreceive]; rfl : Call.ofExcept _ u = .error (.error e) u)]
          exact ⟨trivial, by omega⟩

end

end Decoys

end MoneroOxide
