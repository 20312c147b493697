import MoneroOxide.Block
import MoneroOxide.WalletOutput

/-!
# Scanning blocks (`wallet/src/scan.rs`)

The map of subaddresses is a function of the keys it may have. A position which is not a `u64` panics where the source converts it,
so that a result has none.
-/

namespace MoneroOxide

/-- `ScanError`. -/
inductive ScanError where
  | UnsupportedProtocol (version : UInt8)
  | InvalidScannableBlock (message : String)
  deriving DecidableEq, Repr

/-- `InternalScanner`. -/
structure InternalScanner (Γ : Ctx) where
  pair : ViewPair Γ
  guaranteed : Bool
  subaddresses : CompressedPoint → Option (Option SubaddressIndex)

/-- `Timelocked`. -/
abbrev Timelocked (Γ : Ctx) : Type := List (WalletOutput Γ)

/-- `u64::try_from`, of a `usize`, with `expect`. -/
def u64FromUsize {ε : Type} (n : ℕ) (message : String) : Except (Failure ε) UInt64 :=
  if n < 2 ^ 64 then .ok (UInt64.ofNat n) else .error (.panic message)

/-- `u64::checked_add`, with `ok_or`. -/
def checkedAdd {ε : Type} (a b : UInt64) (error : ε) : Except (Failure ε) UInt64 :=
  if a.toNat + b.toNat < 2 ^ 64 then .ok (a + b) else .error (.error error)

namespace InternalScanner

variable {Γ : Ctx}

/-- `InternalScanner::new`. -/
def new (pair : ViewPair Γ) (guaranteed : Bool) : InternalScanner Γ :=
  { pair, guaranteed, subaddresses := Function.update (fun _ => none) (Γ.compress pair.spend) (some none) }

/-- `InternalScanner::register_subaddress`. -/
def registerSubaddress (scanner : InternalScanner Γ) (subaddress : SubaddressIndex) : InternalScanner Γ :=
  let (spend, _) := scanner.pair.subaddressKeys subaddress
  { scanner with subaddresses := Function.update scanner.subaddresses (Γ.compress spend) (some (some subaddress)) }

/-- What the key of an output is derived with, for a key of the transaction. -/
def derivations (scanner : InternalScanner Γ) (tx : Transaction Pruned) (o : ℕ) (key : Γ.Point) : SharedKeyDerivations :=
  SharedKeyDerivations.outputDerivations Γ
    (if scanner.guaranteed then some (SharedKeyDerivations.uniqueness Γ tx.txPrefix.inputs) else none) (scanner.pair.view • key) o

/-- The amount of an output found to be received: nothing if its commitment is not to it. -/
def receivedCommitment (derivations : SharedKeyDerivations) (tx : Transaction Pruned) (o : ℕ) (output : Output) :
    Except (Failure ScanError) (Option Commitment) :=
  match output.amount with
  -- Miner transaction
  | some amount => .ok (some { Commitment.zero with amount })
  -- Regular transaction
  | none =>
    match tx with
    | .V2 _ (some proofs) =>
      let base := (proofs : PrunedRctProofs).base
      match base.encryptedAmounts[o]? with
      | none => .error (.error (.InvalidScannableBlock "RCT proofs without an encrypted amount per output"))
      | some amount =>
        let commitment := derivations.decrypt Γ amount
        if some (Γ.compress (commitment.commit Γ)) ≠ base.commitments[o]? then .ok none else .ok (some commitment)
    | _ => .error (.error (.InvalidScannableBlock "non-miner v2 transaction without RCT proofs"))

/-- The body of the loop over the keys of a transaction: nothing if the output is not found to be received with this key. -/
def scanKey (scanner : InternalScanner Γ) (outputIndexForFirstRingctOutput : UInt64) (txHash : Bytes 32) (tx : Transaction Pruned)
    (extra : Extra) (o : ℕ) (output : Output) (outputKey key : Γ.Point) : Except (Failure ScanError) (Option (WalletOutput Γ)) :=
  let outputDerivations := scanner.derivations tx o key
  -- Check the view tag matches, if there is a view tag
  if output.viewTag.any (· ≠ outputDerivations.viewTag) then .ok none
  else
    -- P - shared == spend
    match scanner.subaddresses (Γ.compress (outputKey - outputDerivations.sharedKey • Γ.G)) with
    | none => .ok none
    | some subaddress =>
      let keyOffset := match subaddress with
        | some subaddress => outputDerivations.sharedKey + scanner.pair.subaddressDerivation subaddress
        | none => outputDerivations.sharedKey
      do
        match ← receivedCommitment (Γ := Γ) outputDerivations tx o output with
        | none => .ok none
        | some commitment =>
          let paymentId := extra.paymentId.map fun id =>
            id.xor (SharedKeyDerivations.paymentIdXor Γ (scanner.pair.view • key))
          let index ← u64FromUsize o "couldn't convert output index (usize) to u64"
          let indexOnBlockchain ← checkedAdd outputIndexForFirstRingctOutput index
            (ScanError.InvalidScannableBlock "transaction's output's index isn't representable as a u64")
          .ok (some
            { absoluteId := { transaction := txHash, indexInTransaction := index }
              relativeId := { indexOnBlockchain }
              data := { key := outputKey, keyOffset, commitment }
              metadata :=
                { additionalTimelock := tx.txPrefix.additionalTimelock, subaddress, paymentId,
                  arbitraryData := extra.arbitraryData } })

/-- The loop over the keys of a transaction, until the output is found to be received. -/
def scanKeys (scanKey : Γ.Point → Except (Failure ScanError) (Option (WalletOutput Γ))) :
    List Γ.Point → Except (Failure ScanError) (Option (WalletOutput Γ))
  | [] => .ok none
  | key :: keys => do
    match ← scanKey key with
    | some output => .ok (some output)
    | none => scanKeys scanKey keys

/-- The body of the loop over the outputs of a transaction. -/
def scanOutput (scanner : InternalScanner Γ) (outputIndexForFirstRingctOutput : UInt64) (txHash : Bytes 32)
    (tx : Transaction Pruned)
    (extra : Extra) (txKeys : List Γ.Point) (additional : Option (List Γ.Point)) (o : ℕ) (output : Output) :
    Except (Failure ScanError) (Option (WalletOutput Γ)) :=
  if output.key = CompressedPoint.IDENTITY then .ok none
  else
    match CompressedPoint.decompress Γ output.key with
    | none => .ok none
    | some outputKey =>
      -- Each transaction key and the additional key for this output, if there is one
      let additional := additional.bind fun additional => additional[o]?
      scanKeys (scanner.scanKey outputIndexForFirstRingctOutput txHash tx extra o output outputKey) (txKeys ++ additional.toList)

/-- The loop over the outputs of a transaction, from the `o`-th on. -/
def scanOutputs (scanOutput : ℕ → Output → Except (Failure ScanError) (Option (WalletOutput Γ))) :
    ℕ → List Output → Except (Failure ScanError) (Timelocked Γ)
  | _, [] => .ok []
  | o, output :: outputs => do
    let received ← scanOutput o output
    let rest ← scanOutputs scanOutput (o + 1) outputs
    .ok (received.toList ++ rest)

/-- `InternalScanner::scan_transaction`. -/
def scanTransaction (scanner : InternalScanner Γ) (outputIndexForFirstRingctOutput : UInt64) (txHash : Bytes 32)
    (tx : Transaction Pruned) : Except (Failure ScanError) (Timelocked Γ) :=
  if tx.version ≠ 2 then .ok []
  else
    let extra := Extra.read tx.txPrefix.extra
    match extra.keys Γ with
    | none => .ok []
    | some (txKeys, additional) =>
      scanOutputs (scanner.scanOutput outputIndexForFirstRingctOutput txHash tx extra txKeys additional) 0 tx.txPrefix.outputs

/-- The index of the first RingCT output after a transaction. -/
def nextIndex (index : UInt64) (tx : Transaction Pruned) : Except (Failure ScanError) UInt64 :=
  match tx with
  | .V1 .. => .ok index
  | .V2 .. => do
    let outputs ← u64FromUsize tx.txPrefix.outputs.length "couldn't convert amount of outputs (usize) to u64"
    checkedAdd index outputs (ScanError.InvalidScannableBlock "RingCT output indexes exceeded u64::MAX")

/-- The loop over the transactions of a block. -/
def scanTransactions (scanner : InternalScanner Γ) :
    UInt64 → List (Bytes 32 × Transaction Pruned) → Except (Failure ScanError) (Timelocked Γ)
  | _, [] => .ok []
  | index, (hash, tx) :: txs => do
    let received ← scanner.scanTransaction index hash tx
    let index ← nextIndex index tx
    let rest ← scanner.scanTransactions index txs
    .ok (received ++ rest)

/-- Drop the payment ID of an output, if it is not encrypted. -/
def dropUnencrypted (output : WalletOutput Γ) : WalletOutput Γ :=
  match output.metadata.paymentId with
  | some (.Unencrypted _) => { output with metadata := { output.metadata with paymentId := none } }
  | _ => output

/-- The transactions of a block with their hashes, the miner transaction first. -/
def txsWithHashes (Γ : Ctx) (block : ScannableBlock) : List (Bytes 32 × Transaction Pruned) :=
  (block.block.minerTransaction.hash Γ, block.block.minerTransaction.toPruned) :: block.block.transactions.zip block.transactions

/-- `InternalScanner::scan`. -/
def scan (scanner : InternalScanner Γ) (block : ScannableBlock) : Except (Failure ScanError) (Timelocked Γ) :=
  if block.block.transactions.length ≠ block.transactions.length then
    .error (.error (.InvalidScannableBlock "scanning a ScannableBlock with more/less transactions than it should have"))
  else
    match block.outputIndexForFirstRingctOutput with
    | none => .ok []
    | some index =>
      if 16 < block.block.header.hardforkVersion then .error (.error (.UnsupportedProtocol block.block.header.hardforkVersion))
      else do
        let res ← scanner.scanTransactions index (txsWithHashes Γ block)
        .ok (if 12 ≤ block.block.header.hardforkVersion then res.map dropUnencrypted else res)

end InternalScanner

/-- `Scanner::new`. -/
def Scanner.new {Γ : Ctx} (pair : ViewPair Γ) : InternalScanner Γ := .new pair false

/-- `GuaranteedScanner::new`. -/
def GuaranteedScanner.new {Γ : Ctx} (pair : GuaranteedViewPair Γ) : InternalScanner Γ := .new pair.pair true

end MoneroOxide
