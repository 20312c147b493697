import MoneroOxide.Lemmas.WalletOutput
import MoneroOxide.Theorems.Scan

/-!
# The encoding of scanned outputs

Which encodings are of what was read of them, and that outputs found by scanning are read back.
-/

namespace MoneroOxide

namespace WalletOutput

variable {Γ : Ctx}

/-! ## What is read -/

/-- What `WalletOutput::read` reads until the payment ID. -/
def readStart (Γ : Ctx) : Read (AbsoluteId × RelativeId × OutputData Γ × Timelock × Option SubaddressIndex) := do
  let absoluteId ← AbsoluteId.read
  let relativeId ← RelativeId.read
  let data ← OutputData.read Γ
  let additionalTimelock ← Timelock.read
  let subaddress ← Metadata.readSubaddress
  pure (absoluteId, relativeId, data, additionalTimelock, subaddress)

theorem readStart_writeStart {output : WalletOutput Γ} (h : output.metadata.additionalTimelock.Readable) (rest : List UInt8) :
    readStart Γ (output.writeStart ++ rest) = .ok (output.absoluteId, output.relativeId, output.data,
      output.metadata.additionalTimelock, output.metadata.subaddress) rest := by
  simp only [readStart, Reader.bind_ok, AbsoluteId.reads_read.iff, RelativeId.reads_read.iff, OutputData.reads_read.iff,
    Timelock.reads_read.iff, Metadata.reads_readSubaddress.iff, Reader.pure_ok, true_and]
  exact ⟨_, _, by simp only [writeStart, Metadata.writeStart, List.append_assoc], _, _, rfl, _, _, rfl, _, _, ⟨h, rfl⟩,
    _, _, rfl, rfl,
    rfl⟩

/-- What `WalletOutput::read` took off its input is what is written of the output it returned exactly if the section of the payment
ID was one: a zero, or a one and a payment ID. -/
theorem serialize_eq_iff (Γ : Ctx) (s rest : List UInt8) (output : WalletOutput Γ) (h : read Γ s = .ok output rest) :
    (∃ bytes, output.serialize = some bytes ∧ s = bytes ++ rest) ↔
      ∃ start section', readStart Γ s = .ok start section' ∧ Metadata.PaymentIdSection section' := by
  obtain ⟨hpersists, section', rfl, hpaymentId⟩ := read_ok.1 h
  have hserialize := serialize_eq hpersists.arbitraryData
  have hstart := readStart_writeStart hpersists.additionalTimelock section'
  rw [hserialize, hstart]
  constructor
  · rintro ⟨bytes, hbytes, hs⟩
    obtain rfl := Option.some.inj hbytes
    rw [List.append_assoc, List.append_cancel_left_eq, List.append_assoc] at hs
    exact ⟨_, section', rfl, _, _, hs⟩
  · rintro ⟨start, section'', heq, hsection⟩
    cases heq
    refine ⟨_, rfl, ?_⟩
    rw [(Metadata.readPaymentId_ok hpaymentId).2 hsection, List.append_assoc, List.append_assoc]

/-- An output without a subaddress, a payment ID or arbitrary data. -/
def sampleOutput : WalletOutput instanceCtx where
  absoluteId := { transaction := Bytes.replicate 32 0, indexInTransaction := 0 }
  relativeId := { indexOnBlockchain := 0 }
  data := { key := instanceCtx.G, keyOffset := 0, commitment := Commitment.zero }
  metadata := { additionalTimelock := .None, subaddress := none, paymentId := none, arbitraryData := [] }

theorem persists_sampleOutput : sampleOutput.Persists where
  additionalTimelock := trivial
  arbitraryData := { chunks_le := Nat.zero_le _, part_lt := by simp [sampleOutput], total_le := Nat.zero_le _ }

theorem serialize_sampleOutput : ∃ bytes, sampleOutput.serialize = some bytes ∧
    sampleOutput.writeStart ++ ([0] ++ (sampleOutput.metadata.writeEnd ++ [])) = bytes ++ [] :=
  (serialize_eq_iff instanceCtx _ [] sampleOutput
    (read_ok.2 ⟨persists_sampleOutput, _, rfl, Metadata.readPaymentId_write none _⟩)).2
    ⟨_, _, readStart_writeStart persists_sampleOutput.additionalTimelock _, none, _, rfl⟩

/-- The encoding of an output with a two where it says if there is a payment ID is read, and not what is written of that output. -/
theorem serialize_presence_two :
    ¬∀ (s rest : List UInt8) (output : WalletOutput instanceCtx), read instanceCtx s = .ok output rest →
      ∃ bytes, output.serialize = some bytes ∧ s = bytes ++ rest := by
  intro h
  have hread : read instanceCtx (sampleOutput.writeStart ++ ([2] ++ (sampleOutput.metadata.writeEnd ++ []))) =
    .ok sampleOutput [] :=
    read_ok.2 ⟨persists_sampleOutput, _, rfl, rfl⟩
  obtain ⟨bytes, hbytes, heq⟩ := h _ _ _ hread
  rw [serialize_eq persists_sampleOutput.arbitraryData] at hbytes
  obtain rfl := Option.some.inj hbytes
  rw [List.append_assoc, List.append_cancel_left_eq] at heq
  have hhead := congrArg List.head? heq
  simp [sampleOutput, Metadata.writePaymentId] at hhead

end WalletOutput

namespace InternalScanner

variable {Γ : Ctx}

/-! ## What is scanned -/

/-- The metadata of an output found in a transaction is of this transaction. -/
structure Describes (tx : Transaction Pruned) (out : WalletOutput Γ) : Prop where
  additionalTimelock : out.metadata.additionalTimelock = tx.txPrefix.additionalTimelock
  arbitraryData : out.metadata.arbitraryData = (Extra.read tx.txPrefix.extra).arbitraryData

theorem scanKey_describes {scanner : InternalScanner Γ} {index : UInt64} {txHash : Bytes 32} {tx : Transaction Pruned} {o : ℕ}
    {output : Output} {outputKey key : Γ.Point} {out : WalletOutput Γ}
    (h : scanner.scanKey index txHash tx (Extra.read tx.txPrefix.extra) o output outputKey key = .ok (some out)) :
    Describes tx out := by
  unfold scanKey at h
  dsimp only at h
  split at h
  · cases h
  · split at h
    · cases h
    · obtain ⟨received, -, h⟩ := Results.bind_eq_ok.1 h
      cases received with
      | none => cases h
      | some commitment =>
        obtain ⟨_, -, h⟩ := Results.bind_eq_ok.1 h
        obtain ⟨_, -, h⟩ := Results.bind_eq_ok.1 h
        cases h
        exact ⟨rfl, rfl⟩

theorem scanOutput_describes {scanner : InternalScanner Γ} {index : UInt64} {txHash : Bytes 32} {tx : Transaction Pruned}
    {txKeys : List Γ.Point} {additional : Option (List Γ.Point)} {o : ℕ} {output : Output} {out : WalletOutput Γ}
    (h : scanner.scanOutput index txHash tx (Extra.read tx.txPrefix.extra) txKeys additional o output = .ok (some out)) :
    Describes tx out := by
  unfold scanOutput at h
  split at h
  · cases h
  · split at h
    · cases h
    · obtain ⟨key, h⟩ := scanKeys_ok h
      exact scanKey_describes h

theorem scanTransaction_describes {scanner : InternalScanner Γ} {index : UInt64} {txHash : Bytes 32} {tx : Transaction Pruned}
    {outputs : Timelocked Γ} (h : scanner.scanTransaction index txHash tx = .ok outputs) : ∀ out ∈ outputs, Describes tx out := by
  unfold scanTransaction at h
  split at h
  · cases h
    simp
  · dsimp only at h
    split at h
    · cases h
      simp
    · obtain ⟨positions, -, hforall⟩ := scanOutputs_ok h
      intro out hout
      obtain ⟨o, -, output, -, hscan⟩ := Lists.exists_of_forall₂ hforall.flip hout
      exact scanOutput_describes hscan

theorem scanTransactions_describes {scanner : InternalScanner Γ} {index : UInt64} {txs : List (Bytes 32 × Transaction Pruned)}
    {outputs : Timelocked Γ} (h : scanner.scanTransactions index txs = .ok outputs) :
    ∀ out ∈ outputs, ∃ tx ∈ txs.map Prod.snd, Describes tx out := by
  induction txs generalizing index outputs with
  | nil =>
    cases h
    simp
  | cons pair txs ih =>
    obtain ⟨hash, tx⟩ := pair
    unfold scanTransactions at h
    obtain ⟨received, hreceived, h⟩ := Results.bind_eq_ok.1 h
    obtain ⟨index', -, h⟩ := Results.bind_eq_ok.1 h
    obtain ⟨rest, hrest, h⟩ := Results.bind_eq_ok.1 h
    cases h
    intro out hout
    rcases List.mem_append.1 hout with hout | hout
    · exact ⟨tx, by simp, scanTransaction_describes hreceived out hout⟩
    · obtain ⟨tx', htx', hdescribes⟩ := ih hrest out hout
      exact ⟨tx', List.mem_cons_of_mem _ htx', hdescribes⟩

theorem scan_describes {scanner : InternalScanner Γ} {block : ScannableBlock} {outputs : Timelocked Γ}
    (h : scanner.scan block = .ok outputs) :
    ∀ out ∈ outputs, ∃ tx ∈ block.block.minerTransaction.toPruned :: block.transactions, Describes tx out := by
  have hdrop : ∀ tx (out : WalletOutput Γ), Describes tx out → Describes tx (dropUnencrypted out) := by
    intro tx out hdescribes
    unfold dropUnencrypted
    split
    · exact ⟨hdescribes.additionalTimelock, hdescribes.arbitraryData⟩
    · exact hdescribes
  have hsub : ∀ tx ∈ (txsWithHashes Γ block).map Prod.snd, tx ∈ block.block.minerTransaction.toPruned :: block.transactions := by
    intro tx htx
    rw [txsWithHashes, List.map_cons] at htx
    rcases List.mem_cons.1 htx with rfl | htx
    · exact List.mem_cons_self
    · obtain ⟨pair, hpair, rfl⟩ := List.mem_map.1 htx
      exact List.mem_cons_of_mem _ (List.of_mem_zip hpair).2
  unfold scan at h
  split at h
  · cases h
  · split at h
    · cases h
      simp
    · split at h
      · cases h
      · obtain ⟨res, hres, h⟩ := Results.bind_eq_ok.1 h
        cases h
        intro out hout
        split at hout
        · obtain ⟨found, hfound, rfl⟩ := List.mem_map.1 hout
          obtain ⟨tx, htx, hdescribes⟩ := scanTransactions_describes hres found hfound
          exact ⟨tx, hsub tx htx, hdrop tx found hdescribes⟩
        · obtain ⟨tx, htx, hdescribes⟩ := scanTransactions_describes hres out hout
          exact ⟨tx, hsub tx htx, hdescribes⟩

/-- The timelock of a transaction that was read can be read. -/
theorem readable_additionalTimelock {P : PotentiallyPruned} (c : P.Codec) {s rest : List UInt8} {tx : Transaction P}
    (h : Transaction.read P s = .ok tx rest) : tx.txPrefix.additionalTimelock.Readable := by
  obtain ⟨hreadable, -⟩ := (Transaction.reads_read c).iff.1 h
  cases tx with
  | V1 txPrefix signatures => exact hreadable.1.additionalTimelock
  | V2 txPrefix proofs => exact hreadable.1.additionalTimelock

/-- Whatever a scanner finds in a block whose transactions were read is written, and read back from what was written of it,
whatever comes after it. -/
theorem scan_persists (scanner : InternalScanner Γ) (block : ScannableBlock)
    (hminer : ∃ s rest, Transaction.read NotPruned s = .ok block.block.minerTransaction rest)
    (hread : ∀ tx ∈ block.transactions, ∃ s rest, Transaction.read Pruned s = .ok tx rest) (outputs : Timelocked Γ)
    (h : scanner.scan block = .ok outputs) :
    ∀ output ∈ outputs, Metadata.DataOk output.metadata.arbitraryData ∧ ∃ bytes, output.serialize = some bytes ∧
      ∀ rest, WalletOutput.read Γ (bytes ++ rest) = .ok output rest := by
  intro output houtput
  obtain ⟨tx, htx, hdescribes⟩ := scan_describes h output houtput
  have hdata : Metadata.DataOk output.metadata.arbitraryData := by
    rw [hdescribes.arbitraryData]
    exact Metadata.dataOk_arbitraryData _
  have htimelock : output.metadata.additionalTimelock.Readable := by
    rw [hdescribes.additionalTimelock]
    rcases List.mem_cons.1 htx with rfl | htx
    · obtain ⟨s, rest, hs⟩ := hminer
      have hreadable := readable_additionalTimelock NotPruned.codec hs
      cases hminerTx : block.block.minerTransaction with
      | V1 txPrefix signatures =>
        rw [hminerTx] at hreadable
        exact hreadable
      | V2 txPrefix proofs =>
        rw [hminerTx] at hreadable
        exact hreadable
    · obtain ⟨s, rest, hs⟩ := hread tx htx
      exact readable_additionalTimelock Pruned.codec hs
  refine ⟨hdata, _, WalletOutput.serialize_eq hdata, fun rest => ?_⟩
  refine WalletOutput.read_ok.2 ⟨⟨htimelock, hdata⟩, _, ?_, Metadata.readPaymentId_write _ _⟩
  rw [List.append_assoc, List.append_assoc]

/-- The miner transaction of `sampleBlock` can be read. -/
theorem read_sampleBlock : Transaction.read NotPruned sampleBlock.block.minerTransaction.write =
    .ok sampleBlock.block.minerTransaction [] := by
  have hreadable : Transaction.Readable NotPruned.codec sampleBlock.block.minerTransaction := by
    refine ⟨⟨trivial, by decide, by decide, List.forall_mem_singleton.2 trivial, ExtraField.lengthOk_none.2 (by decide),
      List.forall_mem_singleton.2 rfl, ExtraField.lengthOk_none.2 ?_⟩, nofun⟩
    rw [List.length_append, Bytes.length_toList]
    decide
  have h := (Transaction.reads_read NotPruned.codec).read_back hreadable []
  rwa [List.append_nil] at h

/-- The output found in `sampleBlock` persists. -/
theorem scan_persists_sampleBlock : ∃ outputs, (Scanner.new samplePair).scan sampleBlock = .ok outputs ∧ outputs.length = 1 ∧
    ∀ output ∈ outputs, Metadata.DataOk output.metadata.arbitraryData ∧ ∃ bytes, output.serialize = some bytes ∧
      ∀ rest, WalletOutput.read instanceCtx (bytes ++ rest) = .ok output rest := by
  obtain ⟨outputs, hscan, hlen⟩ := exists_scan_sampleBlock
  exact ⟨outputs, hscan, hlen, scan_persists _ _ ⟨_, _, read_sampleBlock⟩ (by simp [sampleBlock]) outputs hscan⟩

end InternalScanner

end MoneroOxide
