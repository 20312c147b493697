import MoneroOxide.Send

/-!
# Eventualities (`wallet/src/send/eventuality.rs`)

What a transaction to be signed will have created once it is on the blockchain, by which it is identified there.
-/

namespace MoneroOxide

/-- `Eventuality`. -/
structure Eventuality (Γ : Ctx) where
  intent : SignableTransaction Γ

namespace Eventuality

variable {Γ : Ctx}

/-- `Eventuality::extra`. -/
def extra (eventuality : Eventuality Γ) : Send (List UInt8) := eventuality.intent.extra

/-- The key image of an input, unless it is that of a miner transaction. -/
def keyImage? : Input → Option CompressedPoint
  | .Gen _ => none
  | .ToKey _ _ keyImage => some keyImage

/-- The checks of the outputs and their amounts, for the key images of a transaction. -/
def matchesOutputs (eventuality : Eventuality Γ) (tx : Transaction Pruned) (keyImages : List CompressedPoint) : Send Bool := do
  let outputs ← eventuality.intent.outputs keyImages
  if outputs ≠ tx.txPrefix.outputs then pure false
  else do
    let commitmentsAndEncryptedAmounts ← eventuality.intent.commitmentsAndEncryptedAmounts keyImages
    match tx with
    | .V2 _ (some proofs) =>
      let proofs : PrunedRctProofs := proofs
      if proofs.base.commitments ≠ commitmentsAndEncryptedAmounts.map (fun pair => Γ.compress (pair.1.commit Γ)) then pure false
      else if proofs.base.encryptedAmounts ≠ commitmentsAndEncryptedAmounts.map Prod.snd then pure false
      else pure true
    | _ => pure false

/-- `Eventuality::matches`. -/
def matchesTx (eventuality : Eventuality Γ) (tx : Transaction Pruned) : Send Bool := do
  let extra ← eventuality.intent.extra
  if extra ≠ tx.txPrefix.extra then pure false
  else if tx.txPrefix.additionalTimelock ≠ .None then pure false
  else if tx.txPrefix.inputs.length ≠ eventuality.intent.inputs.length then pure false
  else match tx.txPrefix.inputs.mapM keyImage? with
    | none => pure false
    | some keyImages => eventuality.matchesOutputs tx keyImages

/-- `Eventuality::write`. -/
def write (eventuality : Eventuality Γ) : List UInt8 := eventuality.intent.write

/-- `Eventuality::read`: what was read, and what is left. -/
def read (Γ : Ctx) (s : List UInt8) : Except (Failure IoError) (Eventuality Γ × List UInt8) := do
  let (intent, rest) ← SignableTransaction.read Γ s
  pure ({ intent }, rest)

end Eventuality

end MoneroOxide
