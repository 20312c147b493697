import MoneroOxide.Interface
import MoneroOxide.Send

/-!
# Selecting decoys (`wallet/src/decoys.rs`, `interface/src/provides_decoys.rs`)

The interface is an arbitrary party with a state, which answers with a `Result`. So is the randomness: the sample of the gamma
distribution and the arithmetic on `f64` made of it are one arbitrary function to a `u64`. Where the source would overflow or
underflow, or would index out of range, there is a panic. The loops are run for as many rounds as `fuel` says, and they panic when that
is used up.
-/

namespace MoneroOxide

/-- `DEFAULT_LOCK_WINDOW`. -/
def DEFAULT_LOCK_WINDOW : ℕ := 10

/-- `COINBASE_LOCK_WINDOW`. -/
def COINBASE_LOCK_WINDOW : ℕ := 60

/-- `BLOCK_TIME`. -/
def BLOCK_TIME : ℕ := 120

/-- `BLOCKS_PER_YEAR`. -/
def BLOCKS_PER_YEAR : ℕ := 365 * 24 * 60 * 60 / BLOCK_TIME

/-- An element of a list, which panics when the index is out of range. -/
def atIndex {ε α : Type} (xs : List α) (i : ℕ) : Except (Failure ε) α :=
  match xs[i]? with
  | some a => .ok a
  | none => .error (.panic "index out of bounds")

/-- The difference of two `usize`, which panics when it underflows. -/
def subUsize {ε : Type} (a b : ℕ) : Except (Failure ε) ℕ :=
  if b ≤ a then .ok (a - b) else .error (.panic "attempt to subtract with overflow")

/-- `slice::partition_point`, of a slice whose elements that satisfy the predicate come first. -/
def partitionPoint {α : Type} (p : α → Bool) (xs : List α) : ℕ := (xs.takeWhile p).length

/-- A `Result` of a party, which does not panic. -/
def Call.ofResult {σ ε α : Type} (x : EStateM ε σ α) : Call σ ε α := fun s =>
  match x s with
  | .ok a t => .ok a t
  | .error e t => .error (.error e) t

/-- A function of `&mut self` which returns. -/
def Call.ofState {σ ε α : Type} (f : σ → α × σ) : Call σ ε α := fun s => .ok (f s).1 (f s).2

/-! ## What is provided -/

/-- `EvaluateUnlocked`. -/
inductive EvaluateUnlocked where
  | Normal
  | FingerprintableDeterministic (blockNumber : UInt64)
  deriving DecidableEq, Repr

/-- `ProvidesUnvalidatedDecoys`, with what it takes of `ProvidesBlockchainMeta`. The distribution is only asked for with a range
`..= stop`. -/
structure ProvidesUnvalidatedDecoys (Γ : Ctx) (σ : Type) where
  latestBlockNumber : EStateM InterfaceError σ UInt64
  ringctOutputDistribution : (stop : UInt64) → EStateM InterfaceError σ (List UInt64)
  unlockedRingctOutputs : List UInt64 → EvaluateUnlocked → EStateM TransactionsError σ (List (Option (Γ.Point × Γ.Point)))

/-- The loop of `ProvidesDecoys::ringct_output_distribution`. -/
def checkMonotonic : UInt64 → List UInt64 → Except InterfaceError Unit
  | _, [] => .ok ()
  | monotonic, d :: distribution =>
    if d < monotonic then .error (.InvalidInterface "received output distribution didn't increase monotonically")
    else checkMonotonic d distribution

namespace ProvidesUnvalidatedDecoys

variable {Γ : Ctx} {σ : Type} (P : ProvidesUnvalidatedDecoys Γ σ)

/-- `<P as ProvidesDecoys>::ringct_output_distribution`. -/
def validRingctOutputDistribution (stop : UInt64) : EStateM InterfaceError σ (List UInt64) := do
  let distribution ← P.ringctOutputDistribution stop
  Call.ofExcept (checkMonotonic 0 distribution)
  pure distribution

/-- `<P as ProvidesDecoys>::unlocked_ringct_outputs`. -/
def validUnlockedRingctOutputs (indexes : List UInt64) (evaluateUnlocked : EvaluateUnlocked) :
    EStateM TransactionsError σ (List (Option (Γ.Point × Γ.Point))) := do
  let outputs ← P.unlockedRingctOutputs indexes evaluateUnlocked
  if outputs.length ≠ indexes.length then
    throw (.InterfaceError (.InternalError (returnedMessage "ProvidesUnvalidatedDecoys::unlocked_ringct_outputs" "outputs"
      outputs.length indexes.length)))
  else pure outputs

end ProvidesUnvalidatedDecoys

/-- `RngCore`, with what is sampled through it. -/
structure Randomness (σ : Type) where
  /-- `(age * per_second) as u64`, for an age that is sampled and a rate of outputs for as many seconds. -/
  candidate : (outputs seconds : ℕ) → σ → UInt64 × σ
  /-- `RngCore::next_u64`. -/
  nextU64 : σ → UInt64 × σ

/-! ## `select_n` -/

/-- What candidates are drawn from: the distribution, the bound below which outputs may be selected, and the rate at which they were
created. -/
structure Pool where
  distribution : List UInt64
  highestOutputExclusiveBound : UInt64
  outputs : ℕ
  seconds : ℕ

/-- What the inner loop of `select_n` works on. -/
structure Drawn where
  candidates : List UInt64
  doNotSelect : Finset UInt64
  iters : ℕ

namespace Decoys

/-- `InterfaceError::InternalError`, as a `TransactionsError`. -/
def internalError (message : String) : Failure TransactionsError := .error (.InterfaceError (.InternalError message))

/-- The maximum of the iterations of the inner loop, for all of the outer loop. -/
def maxIters (ringLen : UInt8) : ℕ := 10 * ringLen.toNat

/-- The outputs before the block at an index of the distribution. -/
def outputsBefore (distribution : List UInt64) : ℕ → Except (Failure TransactionsError) UInt64
  | 0 => .ok 0
  | prevBlock + 1 => atIndex distribution prevBlock

/-- The block that a candidate points to: the outputs before it, and how many it has. -/
def blockOf (pool : Pool) (o : UInt64) : Except (Failure TransactionsError) (UInt64 × UInt64) := do
  let last ← subU64 pool.highestOutputExclusiveBound 1
  let target ← subU64 last o
  let i := partitionPoint (fun s => decide (s < target)) pool.distribution
  let prevOutputs ← outputsBefore pool.distribution i
  let total ← atIndex pool.distribution i
  if total < prevOutputs then throw (internalError "RPC returned non-monotonic distribution")
  else pure (prevOutputs, total - prevOutputs)

/-- The end of an iteration of the inner loop: a candidate is drawn, and kept unless it is not to be selected. -/
def draw {σ : Type} (rng : Randomness σ) (pool : Pool) (drawn : Drawn) : Call σ TransactionsError Drawn := do
  let o ← Call.ofState (rng.candidate pool.outputs pool.seconds)
  if o < pool.highestOutputExclusiveBound then do
    let (prevOutputs, n) ← Call.ofExcept (blockOf pool o)
    if n ≠ 0 then do
      let r ← Call.ofState rng.nextU64
      let o ← Call.ofExcept (addU64 prevOutputs (r % n))
      if o ∈ drawn.doNotSelect then pure drawn
      else pure { drawn with candidates := drawn.candidates ++ [o], doNotSelect := insert o drawn.doNotSelect }
    else pure drawn
  else pure drawn

/-- Whether the inner loop gives up: after its last iteration, or with fewer outputs left than are to be selected. -/
def exhausted (pool : Pool) (ringLen : UInt8) (remaining : ℕ) (drawn : Drawn) : Except (Failure TransactionsError) Bool :=
  if drawn.iters = maxIters ringLen then pure true
  else do
    let left ← subUsize pool.highestOutputExclusiveBound.toNat drawn.doNotSelect.card
    let needed ← subUsize remaining drawn.candidates.length
    pure (decide (left < needed))

/-- The inner loop of `select_n`: draw candidates until there are as many as remain to be selected. -/
def drawLoop {σ : Type} (rng : Randomness σ) (pool : Pool) (ringLen : UInt8) (remaining : ℕ) :
    (fuel : ℕ) → Drawn → Call σ TransactionsError Drawn
  | 0, drawn => if drawn.candidates.length = remaining then pure drawn else throw (.panic "out of fuel")
  | fuel + 1, drawn =>
    if drawn.candidates.length = remaining then pure drawn
    else do
      let drawn := { drawn with iters := drawn.iters + 1 }
      let giveUp ← Call.ofExcept (exhausted pool ringLen remaining drawn)
      if giveUp then throw (internalError "hit decoy selection round limit")
      else do
        let drawn ← draw rng pool drawn
        drawLoop rng pool ringLen remaining fuel drawn

/-- The order of `u64`. -/
def leU64 (a b : UInt64) : Bool := decide (a ≤ b)

/-- The first request includes the real output, which it is sorted into: the candidates, and where the real output is among them. -/
def includeReal (real : UInt64) (candidates : List UInt64) : Except (Failure TransactionsError) (List UInt64 × Option ℕ) :=
  let candidates := Sorting.sortBy leU64 id (candidates ++ [real])
  -- `binary_search`, in a sorted slice which has the element once
  match candidates.findIdx? (· == real) with
  | some i => .ok (candidates, some i)
  | none => .error (.panic "selected a ring which didn't include the real spend")

/-- What is asked for: the candidates, and with the first of them the real output. -/
def toAsk (firstIter : Bool) (real : UInt64) (candidates : List UInt64) :
    Except (Failure TransactionsError) (List UInt64 × Option ℕ) :=
  if firstIter then includeReal real candidates else .ok (candidates, none)

section

variable {Γ : Ctx} {σ : Type}

/-- The loop of `select_n` over the outputs that were returned, from index `i` on. Decoys with torsion, or whose key is the identity,
are passed over. -/
def receiveLoop (output : WalletOutput Γ) (realIndex : Option ℕ) (candidates : List UInt64) :
    ℕ → List (Option (Γ.Point × Γ.Point)) → List (UInt64 × Γ.Point × Γ.Point) →
      Except (Failure TransactionsError) (List (UInt64 × Γ.Point × Γ.Point))
  | _, [], res => .ok res
  | i, received :: rest, res =>
    if realIndex = some i then
      if some output.data.key ≠ received.map Prod.fst ∨ some (output.data.commitment.commit Γ) ≠ received.map Prod.snd then
        .error (.error (.InterfaceError (.InvalidInterface "node presented different view of output we're trying to spend")))
      else receiveLoop output realIndex candidates (i + 1) rest res
    else
      match received with
      | none => receiveLoop output realIndex candidates (i + 1) rest res
      | some (key, commitment) =>
        if ¬(Γ.TorsionFree key ∧ Γ.TorsionFree commitment) then receiveLoop output realIndex candidates (i + 1) rest res
        else if key = 0 then receiveLoop output realIndex candidates (i + 1) rest res
        else
          match atIndex candidates i with
          | .ok index => receiveLoop output realIndex candidates (i + 1) rest (res ++ [(index, key, commitment)])
          | .error e => .error e

/-- The outer loop of `select_n`: draw as many candidates as remain to be selected, and ask for them. -/
def selectLoop (P : ProvidesUnvalidatedDecoys Γ σ) (rng : Randomness σ) (pool : Pool) (output : WalletOutput Γ) (ringLen : UInt8)
    (evaluateUnlocked : EvaluateUnlocked) (decoyCount : ℕ) :
    (fuel : ℕ) → (firstIter : Bool) → (doNotSelect : Finset UInt64) → (iters : ℕ) → List (UInt64 × Γ.Point × Γ.Point) →
      Call σ TransactionsError (List (UInt64 × Γ.Point × Γ.Point))
  | 0, _, _, _, res => if res.length = decoyCount then pure res else throw (.panic "out of fuel")
  | fuel + 1, firstIter, doNotSelect, iters, res =>
    if res.length = decoyCount then pure res
    else do
      let remaining ← Call.ofExcept (subUsize decoyCount res.length)
      let drawn ← drawLoop rng pool ringLen remaining (maxIters ringLen) { candidates := [], doNotSelect, iters }
      let (candidates, realIndex) ← Call.ofExcept (toAsk firstIter output.relativeId.indexOnBlockchain drawn.candidates)
      let outputs ← Call.ofResult (P.validUnlockedRingctOutputs candidates evaluateUnlocked)
      let res ← Call.ofExcept (receiveLoop output realIndex candidates 0 outputs res)
      selectLoop P rng pool output ringLen evaluateUnlocked decoyCount fuel false drawn.doNotSelect drawn.iters res

/-- What `select_n` takes from the distribution. -/
def poolOf (distribution : List UInt64) (ringLen : UInt8) : Except (Failure TransactionsError) Pool :=
  if distribution.length < DEFAULT_LOCK_WINDOW then .error (internalError "not enough blocks to select decoys")
  else do
    let highestOutputExclusiveBound ← atIndex distribution (distribution.length - DEFAULT_LOCK_WINDOW)
    if highestOutputExclusiveBound.toNat - COINBASE_LOCK_WINDOW < ringLen.toNat then
      throw (internalError "not enough decoy candidates")
    else do
      let blocks := min distribution.length BLOCKS_PER_YEAR
      let initial ← atIndex distribution (distribution.length - (blocks + 1))
      let final ← atIndex distribution (distribution.length - 1)
      pure { distribution, highestOutputExclusiveBound, outputs := final.toNat - initial.toNat, seconds := blocks * BLOCK_TIME }

/-- `select_n`. -/
def selectN (P : ProvidesUnvalidatedDecoys Γ σ) (rng : Randomness σ) (blockNumber : UInt64) (output : WalletOutput Γ)
    (ringLen : UInt8)
    (fingerprintableDeterministic : Bool) : Call σ TransactionsError (List (UInt64 × Γ.Point × Γ.Point)) :=
  if blockNumber.toNat ≤ DEFAULT_LOCK_WINDOW then throw (internalError "not enough blocks to select decoys")
  else do
    let latest ← (Call.ofResult P.latestBlockNumber).mapErr .InterfaceError
    if latest < blockNumber then throw (internalError "decoys being requested from blocks this node doesn't have")
    else do
      let distribution ← (Call.ofResult (P.validRingctOutputDistribution blockNumber)).mapErr .InterfaceError
      let pool ← Call.ofExcept (poolOf distribution ringLen)
      let decoyCount ← Call.ofExcept (subUsize ringLen.toNat 1)
      let evaluateUnlocked :=
        if fingerprintableDeterministic then .FingerprintableDeterministic blockNumber else .Normal
      selectLoop P rng pool output ringLen evaluateUnlocked decoyCount (maxIters ringLen) true
        {output.relativeId.indexOnBlockchain} 0 []

/-! ## `select_decoys` -/

/-- The offsets of positions from the ones before them. -/
def offsetsFrom : UInt64 → List UInt64 → Except (Failure TransactionsError) (List UInt64)
  | _, [] => .ok []
  | previous, position :: positions => do
    let offset ← subU64 position previous
    let offsets ← offsetsFrom position positions
    pure (offset :: offsets)

/-- The offsets of a ring, of which the first is a position. -/
def offsetsOf : List UInt64 → Except (Failure TransactionsError) (List UInt64)
  | [] => .error (.panic "index out of bounds")
  | position :: positions => do
    let offsets ← offsetsFrom position positions
    pure (position :: offsets)

/-- The decoys of a ring which is sorted by its indexes, with the real output in it. -/
def ofRing (real : UInt64) (ring : List (UInt64 × Γ.Point × Γ.Point)) : Except (Failure TransactionsError) (Decoys Γ) := do
  let offsets ← offsetsOf (ring.map Prod.fst)
  let signerIndex := partitionPoint (fun member => decide (member.1 < real)) ring
  if 256 ≤ signerIndex then throw (.panic "ring of size <= u8::MAX had an index exceeding u8::MAX")
  else
    match Decoys.new offsets (UInt8.ofNat signerIndex) (ring.map Prod.snd) with
    | some decoys => pure decoys
    | none => throw (.panic "selected a syntactically-invalid set of Decoys")

/-- The complete ring, in the order of its indexes. -/
def ringOf (input : WalletOutput Γ) (decoys : List (UInt64 × Γ.Point × Γ.Point)) : List (UInt64 × Γ.Point × Γ.Point) :=
  Sorting.sortBy leU64 Prod.fst (decoys ++ [(input.relativeId.indexOnBlockchain, input.data.key, input.data.commitment.commit Γ)])

/-- `select_decoys`. -/
def selectDecoys (P : ProvidesUnvalidatedDecoys Γ σ) (rng : Randomness σ) (ringLen : UInt8) (blockNumber : UInt64)
    (input : WalletOutput Γ) (fingerprintableDeterministic : Bool) : Call σ TransactionsError (Decoys Γ) :=
  if ringLen = 0 then throw (internalError "requesting a ring of length 0")
  else do
    let decoys ← selectN P rng blockNumber input ringLen fingerprintableDeterministic
    Call.ofExcept (ofRing input.relativeId.indexOnBlockchain (ringOf input decoys))

/-- The positions of offsets after a position. -/
def positionsFrom : UInt64 → List UInt64 → Except (Failure TransactionsError) (List UInt64)
  | _, [] => .ok []
  | previous, offset :: offsets => do
    let position ← addU64 previous offset
    let positions ← positionsFrom position offsets
    pure (position :: positions)

/-- `Decoys::positions`. -/
def positions (decoys : Decoys Γ) : Except (Failure TransactionsError) (List UInt64) :=
  match decoys.offsets with
  | [] => .error (.panic "index out of bounds")
  | offset :: offsets => do
    let positions ← positionsFrom offset offsets
    pure (offset :: positions)

end

end Decoys

end MoneroOxide
