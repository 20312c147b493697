import MoneroOxide.BulletproofsOriginal
import MoneroOxide.BulletproofsPlus

/-!
# Range proofs of either kind (`ringct/bulletproofs/src/lib.rs`)

Proving and verifying, for Bulletproofs and Bulletproofs+. `batchVerify` returns the batch it leaves, or `none` where the source
returns `false`.
-/

namespace MoneroOxide

namespace Bulletproof

/-- The checks of `Bulletproof::prove` and `Bulletproof::prove_plus`. -/
def checkAmount (outputs : List Commitment) : Except (Failure BulletproofError) Unit :=
  if outputs.isEmpty then .error (.error .NoCommitments)
  else if MAX_COMMITMENTS < outputs.length then .error (.error .TooManyCommitments)
  else .ok ()

/-- `Option::expect`. -/
def expect {α : Type} (value : Option α) (message : String) : Except (Failure BulletproofError) α :=
  match value with
  | some value => .ok value
  | none => .error (.panic message)

/-- `Bulletproof::prove`. -/
def prove (Γ : Ctx) (rng : Rng) (outputs : List Commitment) : Except (Failure BulletproofError) (Bulletproof × Rng) := do
  checkAmount outputs
  let commitments := outputs.map (Commitment.commit Γ)
  let statement ← expect (Original.AggregateRangeStatement.new Γ commitments)
    "failed to create statement despite checking amount of commitments"
  let witness ← expect (Original.AggregateRangeWitness.new outputs)
    "failed to create witness despite checking amount of commitments"
  let proved ← Original.AggregateRangeStatement.prove rng statement witness
  let (proof, rng) ← expect proved
    "failed to prove Bulletproof::Original despite ensuring statement/witness consistency"
  pure (.original proof, rng)

/-- `Bulletproof::prove_plus`. -/
def provePlus (Γ : Ctx) (rng : Rng) (outputs : List Commitment) : Except (Failure BulletproofError) (Bulletproof × Rng) := do
  checkAmount outputs
  let commitments := outputs.map (Commitment.commit Γ)
  let statement ← expect (Plus.AggregateRangeStatement.new commitments)
    "failed to create statement despite checking amount of commitments"
  let witness ← expect (Plus.AggregateRangeWitness.new outputs)
    "failed to create witness despite checking amount of commitments"
  let proved ← Plus.AggregateRangeStatement.prove rng statement witness
  let (proof, rng) ← expect proved
    "failed to prove Bulletproof::Plus despite ensuring statement/witness consistency"
  pure (.plus proof, rng)

/-- `Bulletproof::batch_verify`. -/
def batchVerify {Γ : Ctx} (rng : Rng) (verifier : BatchVerifier Γ) (bulletproof : Bulletproof)
    (commitments : List CompressedPoint) :
    Option (BatchVerifier Γ × Rng) := do
  let commitments ← commitments.mapM (CompressedPoint.decompress Γ)
  match bulletproof with
  | .original bp =>
    let statement ← Original.AggregateRangeStatement.new Γ commitments
    let (batch, rng) ← Original.AggregateRangeStatement.verify rng statement verifier.original bp
    pure ({ verifier with original := batch }, rng)
  | .plus bp =>
    let statement ← Plus.AggregateRangeStatement.new commitments
    let (batch, rng) ← Plus.AggregateRangeStatement.verify rng statement verifier.plus bp
    pure ({ verifier with plus := batch }, rng)

/-- `Bulletproof::verify`. -/
def verify (Γ : Ctx) (rng : Rng) (bulletproof : Bulletproof) (commitments : List CompressedPoint) : Bool :=
  match commitments.mapM (CompressedPoint.decompress Γ) with
  | none => false
  | some commitments => match bulletproof with
    | .original bp => match Original.AggregateRangeStatement.new Γ commitments with
      | none => false
      | some statement => match Original.AggregateRangeStatement.verify rng statement .default bp with
        | none => false
        | some (verifier, _) => verifier.verify Γ.G Γ.H (Original.GENERATORS Γ)
    | .plus bp => match Plus.AggregateRangeStatement.new commitments with
      | none => false
      | some statement => match Plus.AggregateRangeStatement.verify rng statement .default bp with
        | none => false
        | some (verifier, _) => verifier.verify Γ.H Γ.G (Plus.GENERATORS Γ)

end Bulletproof

end MoneroOxide
