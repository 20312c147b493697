import MoneroOxide.Lemmas.Clsag
import MoneroOxide.Lemmas.DecoySelection
import MoneroOxide.Lemmas.Instance

/-!
# Decoys are selected safely and well formed

Whatever the interface answers and whatever the randomness is, the selection of decoys does not panic and draws a bounded amount of
candidates. What it selects are distinct outputs, none of them the real one, all below the bound; so the ring it forms is one which
`Decoys::new` accepts.
-/

namespace MoneroOxide

namespace Decoys

section

variable {Γ : Ctx} {σ : Type} {P : ProvidesUnvalidatedDecoys Γ σ} {rng : Randomness σ} {draws : σ → ℕ}

/-! ## `select_n` -/

theorem mapErr_meets {ε ε' α : Type} {x : Call σ ε α} {f : ε → ε'} {Q : α → σ → Prop} {R : σ → Prop} {s : σ}
    (h : Call.Meets Q (fun e t => e.IsError ∧ R t) (x s)) : Call.Meets Q (fun e t => e.IsError ∧ R t) (x.mapErr f s) := by
  unfold Call.mapErr
  generalize x s = result at h
  cases result with
  | ok a t => exact h
  | error e t =>
    cases e with
    | error e => exact ⟨trivial, h.2⟩
    | panic message => exact h.1.elim

/-- A distribution that was answered increases. -/
theorem validRingctOutputDistribution_meets (hcounts : Counts P rng draws) (stop : UInt64) (s : σ) :
    Call.Meets (fun distribution t => distribution.Pairwise (· ≤ ·) ∧ draws t ≤ draws s) (fun _ t => draws t ≤ draws s)
      (P.validRingctOutputDistribution stop s) := by
  unfold ProvidesUnvalidatedDecoys.validRingctOutputDistribution
  refine Call.Meets.bind (hcounts.ringctOutputDistribution stop s) fun distribution t hcount => ?_
  cases hcheck : checkMonotonic 0 distribution with
  | ok _ =>
    rw [Call.bind_of_ok (ofExcept_of_ok rfl t)]
    exact ⟨(List.pairwise_cons.1 (checkMonotonic_ok hcheck)).2, hcount⟩
  | error e => exact hcount

/-- The pool that is made of a distribution, if it has outputs enough. -/
theorem poolOf_eq {distribution : List UInt64} (hsorted : distribution.Pairwise (· ≤ ·)) (ringLen : UInt8) :
    (∃ pool, poolOf distribution ringLen = .ok pool ∧ pool.Ok ∧
      distribution[distribution.length - DEFAULT_LOCK_WINDOW]? = some pool.highestOutputExclusiveBound ∧
      ringLen.toNat + COINBASE_LOCK_WINDOW ≤ max COINBASE_LOCK_WINDOW pool.highestOutputExclusiveBound.toNat) ∨
    ∃ e, poolOf distribution ringLen = .error (.error e) := by
  unfold poolOf
  split
  · exact Or.inr ⟨_, rfl⟩
  · rename_i hlength
    have hwindow : DEFAULT_LOCK_WINDOW = 10 := rfl
    have hget : ∀ i < distribution.length, ∃ a, distribution[i]? = some a := fun i hi => ⟨_, List.getElem?_eq_getElem hi⟩
    obtain ⟨bound, hbound⟩ := hget (distribution.length - DEFAULT_LOCK_WINDOW) (by omega)
    obtain ⟨initial, hinitial⟩ := hget (distribution.length - (min distribution.length BLOCKS_PER_YEAR + 1)) (by omega)
    obtain ⟨final, hfinal⟩ := hget (distribution.length - 1) (by omega)
    simp only [atIndex_eq hbound, atIndex_eq hinitial, atIndex_eq hfinal, bind, Except.bind]
    split
    · exact Or.inr ⟨_, rfl⟩
    · refine Or.inl ⟨_, rfl, ⟨hsorted, _, hbound⟩, hbound, ?_⟩
      dsimp only
      omega

variable (P) in
/-- The distribution which the interface answered with. -/
def Answered (blockNumber : UInt64) (s : σ) (distribution : List UInt64) : Prop :=
  ∃ latest t u, P.latestBlockNumber s = .ok latest t ∧ P.validRingctOutputDistribution blockNumber t = .ok distribution u

variable (P) in
/-- What `select_n` returns: as many decoys as the ring lacks, below the bound of the distribution that was answered. -/
structure Returned (blockNumber : UInt64) (real : UInt64) (ringLen : UInt8) (s : σ)
    (res : List (UInt64 × Γ.Point × Γ.Point)) : Prop where
  length_eq : res.length + 1 = ringLen.toNat
  selected : ∃ distribution bound, Answered P blockNumber s distribution ∧
    distribution[distribution.length - DEFAULT_LOCK_WINDOW]? = some bound ∧ Selected bound real res

/-- Nothing is selected at first, and there is room for the real output. -/
theorem selecting_start {pool : Pool} {real : UInt64} {ringLen : UInt8} (hring : 1 ≤ ringLen.toNat)
    (hroom : ringLen.toNat + COINBASE_LOCK_WINDOW ≤ max COINBASE_LOCK_WINDOW pool.highestOutputExclusiveBound.toNat) :
    Selecting pool real ringLen (ringLen.toNat - 1) {real} 0 ([] : List (UInt64 × Γ.Point × Γ.Point)) where
  selected := ⟨List.nodup_nil, nofun, nofun, nofun⟩
  real_mem := Finset.mem_singleton_self _
  res_mem := nofun
  length_le := Nat.zero_le _
  card_le := by
    rw [Finset.card_singleton]
    omega
  iters_lt := by
    unfold maxIters
    omega

theorem selectN_meets (hcounts : Counts P rng draws) (blockNumber : UInt64) (output : WalletOutput Γ) {ringLen : UInt8}
    (hring : 1 ≤ ringLen.toNat) (deterministic : Bool) (s : σ) :
    Call.Meets
      (fun res t => Returned P blockNumber output.relativeId.indexOnBlockchain ringLen s res ∧ draws t ≤ draws s + maxIters ringLen)
      (fun e t => e.IsError ∧ draws t ≤ draws s + maxIters ringLen)
      (selectN P rng blockNumber output ringLen deterministic s) := by
  unfold selectN
  split
  · exact ⟨trivial, Nat.le_add_right _ _⟩
  · refine Call.Meets.bind ((mapErr_meets (R := fun t => draws t ≤ draws s)
      ((ofResult_meets (hcounts.latestBlockNumber s).and_eq).imp (fun _ _ hr => hr) ?_)).imp (fun _ _ hr => hr) ?_) ?_
    · rintro e t ⟨hisError, -, -, hcount⟩
      exact ⟨hisError, hcount⟩
    · rintro e t ⟨hisError, hcount⟩
      exact ⟨hisError, by omega⟩
    rintro latest t ⟨hlatest, hcount⟩
    split
    · exact ⟨trivial, by omega⟩
    refine Call.Meets.bind ((mapErr_meets (R := fun u => draws u ≤ draws t)
      ((ofResult_meets (validRingctOutputDistribution_meets hcounts blockNumber t).and_eq).imp (fun _ _ hr => hr) ?_)).imp
      (fun _ _ hr => hr) ?_) ?_
    · rintro e u ⟨hisError, -, -, hcount'⟩
      exact ⟨hisError, hcount'⟩
    · rintro e u ⟨hisError, hcount'⟩
      exact ⟨hisError, by omega⟩
    rintro distribution u ⟨hdistribution, hsorted, hcount'⟩
    rcases poolOf_eq hsorted ringLen with ⟨pool, hpoolOf, hpool, hbound, hroom⟩ | ⟨e, hpoolOf⟩
    · rw [Call.bind_of_ok (ofExcept_of_ok hpoolOf u), Call.bind_of_ok (ofExcept_of_ok (subUsize_eq hring) u)]
      refine (selectLoop_meets hcounts hpool output _ true (selecting_start hring hroom) (Nat.le_add_left _ _) u).imp ?_ ?_
      · rintro res v ⟨hselected, hlength, hcount''⟩
        refine ⟨⟨by omega, distribution, pool.highestOutputExclusiveBound, ⟨latest, t, u, hlatest, hdistribution⟩,
          hbound, hselected⟩, ?_⟩
        omega
      · rintro e v ⟨hisError, hcount''⟩
        exact ⟨hisError, by omega⟩
    · rw [Call.bind_of_error (by rw [hpoolOf]; rfl : Call.ofExcept _ u = .error (.error e) u)]
      exact ⟨trivial, by omega⟩

/-! ## Offsets and positions -/

theorem add_sub_self (a b : UInt64) : a + (b - a) = b := by
  rw [UInt64.add_comm, UInt64.sub_add_cancel]

/-- Positions which increase have offsets, which `Decoys::new` takes as representable and which are the offsets of these positions. -/
theorem offsetsFrom_eq {previous : UInt64} {positions : List UInt64} (h : (previous :: positions).Pairwise (· < ·)) (i : ℕ) :
    ∃ offsets, offsetsFrom previous positions = .ok offsets ∧ offsets.length = positions.length ∧
      offsetsRepresentable offsets (i + 1) previous = true ∧ positionsFrom previous offsets = .ok positions := by
  induction positions generalizing previous i with
  | nil => exact ⟨[], rfl, rfl, rfl, rfl⟩
  | cons position positions ih =>
    obtain ⟨hprevious, hrest⟩ := List.pairwise_cons.1 h
    have hlt := hprevious position List.mem_cons_self
    have hle : previous.toNat ≤ position.toNat := Nat.le_of_lt (UInt64.lt_iff_toNat_lt.1 hlt)
    obtain ⟨offsets, hoffsets, hlength, hrepresentable, hpositions⟩ := ih hrest (i + 1)
    refine ⟨(position - previous) :: offsets, ?_, ?_, ?_, ?_⟩
    · rw [offsetsFrom, subU64_of_le hle, hoffsets]
      rfl
    · rw [List.length_cons, List.length_cons, hlength]
    · rw [offsetsRepresentable, add_sub_self, hrepresentable, decide_eq_true hlt, Bool.or_true, Bool.and_true]
    · have hsum : previous.toNat + (position - previous).toNat < 2 ^ 64 := by
        rw [toNat_sub_of_le hle, Nat.add_sub_cancel' hle]
        exact UInt64.toNat_lt _
      simp only [positionsFrom, addU64_of_lt hsum, add_sub_self, hpositions, bind, Except.bind]
      rfl

/-- Where the predicate stops to hold. -/
theorem partitionPoint_eq {α : Type} {p : α → Bool} {xs : List α} {k : ℕ} {a : α} (ha : xs[k]? = some a) (hp : p a = false)
    (hbefore : ∀ i < k, ∀ b, xs[i]? = some b → p b = true) : partitionPoint p xs = k := by
  refine Nat.le_antisymm (partitionPoint_le ha hp) ?_
  unfold partitionPoint
  induction xs generalizing k with
  | nil => simp at ha
  | cons x xs ih =>
    cases k with
    | zero => exact Nat.zero_le _
    | succ k =>
      rw [List.takeWhile_cons, if_pos (hbefore 0 (Nat.succ_pos k) x rfl), List.length_cons]
      exact Nat.succ_le_succ (ih ha fun i hi b hb => hbefore (i + 1) (Nat.succ_lt_succ hi) b hb)

/-! ## `select_decoys` -/

theorem ringOf_perm (input : WalletOutput Γ) (res : List (UInt64 × Γ.Point × Γ.Point)) :
    (ringOf input res).Perm ((input.relativeId.indexOnBlockchain, input.data.key, input.data.commitment.commit Γ) :: res) :=
  (Sorting.sortBy_perm _ _ _).trans (List.perm_append_singleton _ _)

/-- The ring is in the order of its indexes, no two of which are the same. -/
theorem pairwise_ringOf {input : WalletOutput Γ} {bound : UInt64} {res : List (UInt64 × Γ.Point × Γ.Point)}
    (h : Selected bound input.relativeId.indexOnBlockchain res) : ((ringOf input res).map Prod.fst).Pairwise (· < ·) := by
  have hnodup : ((ringOf input res).map Prod.fst).Nodup := by
    rw [((ringOf_perm input res).map Prod.fst).nodup_iff, List.map_cons, List.nodup_cons]
    refine ⟨fun hmem => ?_, h.nodup⟩
    obtain ⟨decoy, hdecoy, hreal⟩ := List.mem_map.1 hmem
    exact h.ne_real decoy hdecoy hreal
  have hsorted : ((ringOf input res).map Prod.fst).Pairwise (· ≤ ·) := by
    rw [List.pairwise_map]
    exact (Sorting.pairwise_sortBy linear_leU64 _ _).imp fun hle => of_decide_eq_true hle
  exact (hsorted.and hnodup).imp fun hab => UInt64.lt_of_le_of_ne hab.1 hab.2

/-- The decoys which are made of a ring. -/
structure Formed (input : WalletOutput Γ) (ringLen : UInt8) (res : List (UInt64 × Γ.Point × Γ.Point))
    (decoys : Decoys Γ) : Prop where
  /-- The positions are the indexes of the ring, each once and in their order. -/
  positions : decoys.positions = .ok ((ringOf input res).map Prod.fst)
  sorted : ((ringOf input res).map Prod.fst).Pairwise (· < ·)
  length_eq : (ringOf input res).length = ringLen.toNat
  members : (ringOf input res).Perm ((input.relativeId.indexOnBlockchain, input.data.key, input.data.commitment.commit Γ) :: res)
  ring : decoys.ring = (ringOf input res).map Prod.snd
  /-- The signer is at the real output. -/
  signer : (ringOf input res)[decoys.signerIndex.toNat]? =
    some (input.relativeId.indexOnBlockchain, input.data.key, input.data.commitment.commit Γ)
  signerRingMembers : decoys.signerRingMembers = (input.data.key, input.data.commitment.commit Γ)

/-- A list of positions which increase, taken as the offsets they have. -/
theorem offsetsOf_eq {positions : List UInt64} (hne : positions ≠ []) (h : positions.Pairwise (· < ·)) :
    ∃ offsets, offsetsOf positions = .ok offsets ∧ offsets.length = positions.length ∧ offsetsRepresentable offsets 0 0 = true ∧
      ∀ decoys : Decoys Γ, decoys.offsets = offsets → decoys.positions = .ok positions := by
  cases positions with
  | nil => exact absurd rfl hne
  | cons position rest =>
    obtain ⟨offsets, hoffsets, hlength, hrepresentable, hpositions⟩ := offsetsFrom_eq h 0
    refine ⟨position :: offsets, ?_, ?_, ?_, ?_⟩
    · rw [offsetsOf, hoffsets]
      rfl
    · rw [List.length_cons, List.length_cons, hlength]
    · rw [offsetsRepresentable, UInt64.zero_add, hrepresentable]
      rfl
    · intro decoys hdecoys
      unfold Decoys.positions
      rw [hdecoys]
      dsimp only
      rw [hpositions]
      rfl

/-- The partition point of a ring is the index of the real output. -/
theorem partitionPoint_ringOf {ring : List (UInt64 × Γ.Point × Γ.Point)} (hsorted : (ring.map Prod.fst).Pairwise (· < ·)) {k : ℕ}
    {real : UInt64 × Γ.Point × Γ.Point} (hk : ring[k]? = some real) :
    partitionPoint (fun member => decide (member.1 < real.1)) ring = k := by
  refine partitionPoint_eq hk (decide_eq_false (UInt64.lt_irrefl _)) fun i hi member hmember => decide_eq_true ?_
  obtain ⟨hklt, rfl⟩ := List.getElem?_eq_some_iff.1 hk
  obtain ⟨hilt, rfl⟩ := List.getElem?_eq_some_iff.1 hmember
  rw [List.pairwise_map] at hsorted
  exact List.pairwise_iff_getElem.1 hsorted i k hilt hklt hi

/-- What is selected is formed into decoys. -/
theorem selectDecoys_of_selectN {ringLen : UInt8} (hring : 1 ≤ ringLen.toNat) {blockNumber : UInt64} {input : WalletOutput Γ}
    {deterministic : Bool} {s t : σ} {res : List (UInt64 × Γ.Point × Γ.Point)}
    (hselect : selectN P rng blockNumber input ringLen deterministic s = .ok res t) {bound : UInt64}
    (h : Selected bound input.relativeId.indexOnBlockchain res) (hlength : res.length + 1 = ringLen.toNat) :
    ∃ decoys, selectDecoys P rng ringLen blockNumber input deterministic s = .ok decoys t ∧ Formed input ringLen res decoys := by
  have hsorted := pairwise_ringOf h
  have hperm := ringOf_perm input res
  have hringLength : (ringOf input res).length = ringLen.toNat := by
    rw [hperm.length_eq, List.length_cons, hlength]
  have hlt : ringLen.toNat < 256 := ringLen.toNat_lt
  obtain ⟨k, hklt, hk⟩ := List.mem_iff_getElem.1 (hperm.mem_iff.2 List.mem_cons_self)
  have hk : (ringOf input res)[k]? =
      some (input.relativeId.indexOnBlockchain, input.data.key, input.data.commitment.commit Γ) := by
    rw [List.getElem?_eq_getElem hklt, hk]
  have hsigner : partitionPoint (fun member => decide (member.1 < input.relativeId.indexOnBlockchain)) (ringOf input res) = k :=
    partitionPoint_ringOf hsorted hk
  have hkIndex : (UInt8.ofNat k).toNat = k := by
    rw [UInt8.toNat_ofNat', Nat.mod_eq_of_lt (by omega)]
  have hne : (ringOf input res).map Prod.fst ≠ [] := by
    intro hnil
    have := congrArg List.length hnil
    rw [List.length_map, hringLength, List.length_nil] at this
    omega
  obtain ⟨offsets, hoffsets, hoffsetsLength, hrepresentable, hpositions⟩ := offsetsOf_eq (Γ := Γ) hne hsorted
  have hcheck : check offsets (UInt8.ofNat k) ((ringOf input res).map Prod.snd).length = true := by
    rw [check_iff, List.length_map, hkIndex]
    rw [List.length_map] at hoffsetsLength
    exact ⟨by omega, hklt, hoffsetsLength, hrepresentable⟩
  refine ⟨{ offsets, signerIndex := UInt8.ofNat k, ring := (ringOf input res).map Prod.snd, valid := hcheck }, ?_, ?_⟩
  · have hring0 : ringLen ≠ 0 := by
      rintro rfl
      exact absurd hring (by decide)
    unfold selectDecoys
    rw [if_neg hring0, Call.bind_of_ok hselect]
    refine ofExcept_of_ok ?_ t
    have hnew : Decoys.new offsets (UInt8.ofNat k) ((ringOf input res).map Prod.snd) =
        some { offsets, signerIndex := UInt8.ofNat k, ring := (ringOf input res).map Prod.snd, valid := hcheck } := dif_pos hcheck
    unfold ofRing
    rw [hsigner, hoffsets]
    change (if 256 ≤ k then _ else _) = _
    rw [if_neg (by omega), hnew]
    rfl
  · refine ⟨hpositions _ rfl, hsorted, hringLength, hperm, rfl, ?_, ?_⟩
    · rw [hkIndex]
      exact hk
    · rw [signerRingMembers_eq _ (0, 0)]
      dsimp only
      rw [hkIndex, List.getD_eq_getElem?_getD, List.getElem?_map, hk]
      rfl

/-- Without a count, nothing is asked of the calls. -/
theorem counts_zero (P : ProvidesUnvalidatedDecoys Γ σ) (rng : Randomness σ) : Counts P rng fun _ => 0 where
  candidate _ _ _ := Nat.zero_le _
  nextU64 _ := Nat.zero_le _
  latestBlockNumber s := by cases P.latestBlockNumber s <;> exact Nat.zero_le _
  ringctOutputDistribution stop s := by cases P.ringctOutputDistribution stop s <;> exact Nat.zero_le _
  unlockedRingctOutputs indexes evaluateUnlocked s := by
    cases P.unlockedRingctOutputs indexes evaluateUnlocked s <;> exact Nat.zero_le _

/-- Whatever the interface answers and whatever the randomness is, selecting decoys does not panic, and it draws at most ten candidates
for each member of the ring. What `select_n` returns is as many decoys as the ring lacks, distinct and other than the real output, below
the bound and able to be signed for as ring members; `select_decoys` forms decoys of it, whose signer is the real output. -/
theorem decoys_sound (P : ProvidesUnvalidatedDecoys Γ σ) (rng : Randomness σ) (ringLen : UInt8) (hring : 1 ≤ ringLen.toNat)
    (blockNumber : UInt64) (output : WalletOutput Γ) (deterministic : Bool) (s : σ) :
    (∀ message t, selectN P rng blockNumber output ringLen deterministic s ≠ .error (.panic message) t) ∧
    (∀ message t, selectDecoys P rng ringLen blockNumber output deterministic s ≠ .error (.panic message) t) ∧
    (∀ draws : σ → ℕ, Counts P rng draws →
      Call.Meets (fun _ t => draws t ≤ draws s + 10 * ringLen.toNat) (fun _ t => draws t ≤ draws s + 10 * ringLen.toNat)
        (selectN P rng blockNumber output ringLen deterministic s)) ∧
    ∀ res t, selectN P rng blockNumber output ringLen deterministic s = .ok res t →
      Returned P blockNumber output.relativeId.indexOnBlockchain ringLen s res ∧
      ∃ decoys, selectDecoys P rng ringLen blockNumber output deterministic s = .ok decoys t ∧
      Formed output ringLen res decoys := by
  have hmeets := selectN_meets (counts_zero P rng) blockNumber output hring deterministic s
  have hreturned : ∀ res t, selectN P rng blockNumber output ringLen deterministic s = .ok res t →
      Returned P blockNumber output.relativeId.indexOnBlockchain ringLen s res ∧
      ∃ decoys, selectDecoys P rng ringLen blockNumber output deterministic s = .ok decoys t ∧
        Formed output ringLen res decoys := by
    intro res t hselect
    rw [hselect] at hmeets
    obtain ⟨distribution, bound, -, -, hselected⟩ := hmeets.1.selected
    exact ⟨hmeets.1, selectDecoys_of_selectN hring hselect hselected hmeets.1.length_eq⟩
  refine ⟨fun message t hpanic => ?_, fun message t hpanic => ?_, fun draws hcounts => ?_, hreturned⟩
  · rw [hpanic] at hmeets
    exact hmeets.1
  · cases hselect : selectN P rng blockNumber output ringLen deterministic s with
    | ok res u =>
      obtain ⟨-, decoys, hdecoys, -⟩ := hreturned res u hselect
      rw [hdecoys] at hpanic
      cases hpanic
    | error e u =>
      have hring0 : ringLen ≠ 0 := by
        rintro rfl
        exact absurd hring (by decide)
      rw [hselect] at hmeets
      unfold selectDecoys at hpanic
      rw [if_neg hring0, Call.bind_of_error hselect] at hpanic
      cases hpanic
      exact hmeets.1
  · exact (selectN_meets hcounts blockNumber output hring deterministic s).imp (fun _ _ hr => hr.2) fun _ _ hr => hr.2

end

/-! ## A sample -/

/-- An output to spend. -/
def sampleOutput : WalletOutput instanceCtx where
  absoluteId := { transaction := Bytes.replicate 32 0, indexInTransaction := 0 }
  relativeId := { indexOnBlockchain := 3 }
  data := { key := instanceCtx.G, keyOffset := 0, commitment := { mask := 1, amount := 2 } }
  metadata := { additionalTimelock := .None, subaddress := none, paymentId := none, arbitraryData := [] }

/-- An interface to a chain with a hundred outputs in its first block, all of them alike. Its state is the count of the candidates
drawn. -/
def sampleInterface : ProvidesUnvalidatedDecoys instanceCtx ℕ where
  latestBlockNumber := pure 100
  ringctOutputDistribution _ := pure (List.replicate 20 100)
  unlockedRingctOutputs indexes _ :=
    pure (indexes.map fun _ => some (sampleOutput.data.key, sampleOutput.data.commitment.commit instanceCtx))

/-- The same candidate in each iteration. -/
def sampleRandomness : Randomness ℕ where
  candidate _ _ s := (5, s + 1)
  nextU64 s := (7, s)

theorem selectable_sample (index : UInt64) :
    Selectable instanceCtx (index, sampleOutput.data.key, sampleOutput.data.commitment.commit instanceCtx) where
  key := Ctx.torsionFree_G
  commitment := Ctx.torsionFree_commit _
  ne_zero := by
    change ((8 * 1 : ℕ) : Instance.Point) ≠ 0
    decide +kernel

theorem selectN_sample :
    selectN sampleInterface sampleRandomness 50 sampleOutput 2 false 0 =
      .ok [(7, sampleOutput.data.key, sampleOutput.data.commitment.commit instanceCtx)] 1 := by
  have hpool : poolOf (List.replicate 20 100) 2 =
      .ok { distribution := List.replicate 20 100, highestOutputExclusiveBound := 100, outputs := 0, seconds := 2400 } := rfl
  have hdraw : drawLoop sampleRandomness
      { distribution := List.replicate 20 100, highestOutputExclusiveBound := 100, outputs := 0, seconds := 2400 } 2 1 (maxIters 2)
      { candidates := [], doNotSelect := {3}, iters := 0 } 0 =
      .ok { candidates := [7], doNotSelect := insert 7 {3}, iters := 1 } 1 := rfl
  have hask : toAsk true 3 [7] = .ok ([3, 7], some 0) := by
    have hsorted : Sorting.sortBy leU64 id ([7] ++ [3]) = [3, 7] := by simp [Sorting.sortBy, List.mergeSort, leU64]
    unfold toAsk includeReal
    rw [if_pos rfl, hsorted]
    rfl
  have hreceive : receiveLoop sampleOutput (some 0) [3, 7] 0
      [some (sampleOutput.data.key, sampleOutput.data.commitment.commit instanceCtx),
        some (sampleOutput.data.key, sampleOutput.data.commitment.commit instanceCtx)] [] =
      .ok [(7, sampleOutput.data.key, sampleOutput.data.commitment.commit instanceCtx)] := by
    have hselectable := selectable_sample 7
    unfold receiveLoop
    rw [if_pos rfl, if_neg (by simp)]
    unfold receiveLoop
    rw [if_neg (by simp)]
    dsimp only
    rw [if_neg (not_not.2 ⟨hselectable.key, hselectable.commitment⟩), if_neg hselectable.ne_zero]
    rfl
  have hloop : selectLoop sampleInterface sampleRandomness
      { distribution := List.replicate 20 100, highestOutputExclusiveBound := 100, outputs := 0,
        seconds := 2400 } sampleOutput 2 .Normal
      1 (maxIters 2) true {3} 0 [] 0 =
      .ok [(7, sampleOutput.data.key, sampleOutput.data.commitment.commit instanceCtx)] 1 := by
    change selectLoop _ _ _ _ _ _ 1 (19 + 1) _ _ _ _ _ = _
    unfold selectLoop
    rw [if_neg (by simp)]
    refine (Call.bind_of_ok (ofExcept_of_ok (subUsize_eq (Nat.zero_le 1)) 0)).trans ?_
    refine (Call.bind_of_ok hdraw).trans ?_
    refine (Call.bind_of_ok (ofExcept_of_ok hask 1)).trans ?_
    refine (Call.bind_of_ok (rfl : Call.ofResult (sampleInterface.validUnlockedRingctOutputs [3, 7] .Normal) 1 = .ok _ 1)).trans ?_
    exact (Call.bind_of_ok (ofExcept_of_ok hreceive 1)).trans rfl
  unfold selectN
  rw [if_neg (by decide), Call.bind_of_ok (rfl : (Call.ofResult sampleInterface.latestBlockNumber).mapErr _ 0 = .ok 100 0),
    if_neg (by decide),
    Call.bind_of_ok (rfl : (Call.ofResult (sampleInterface.validRingctOutputDistribution 50)).mapErr _ 0 =
      .ok (List.replicate 20 100) 0),
    Call.bind_of_ok (ofExcept_of_ok hpool 0)]
  exact hloop

/-- One decoy is selected for a ring of two, after one candidate was drawn. -/
theorem decoys_sound_sample :
    ∃ decoys, selectDecoys sampleInterface sampleRandomness 2 50 sampleOutput false 0 = .ok decoys 1 ∧
      Formed sampleOutput 2 [(7, sampleOutput.data.key, sampleOutput.data.commitment.commit instanceCtx)] decoys := by
  obtain ⟨-, -, -, hreturned⟩ := decoys_sound sampleInterface sampleRandomness 2 (by decide) 50 sampleOutput false 0
  exact (hreturned _ _ selectN_sample).2

end Decoys

end MoneroOxide
