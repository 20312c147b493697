import MoneroOxide.Theorems.Scan

/-!
# What a scanner does not miss

A scanner returns for every block whose transactions have an amount for each output. With a key that an output is found for, and none
before it, the output is among those returned, whatever else the block has.
-/

namespace MoneroOxide

namespace InternalScanner

variable {Γ : Ctx} {scanner : InternalScanner Γ}

/-! ## The scanner of a recipient -/

/-- The scanners of a pair of keys for a subaddress, or for the primary address: it was registered, and what was registered after it has
another spend key. -/
inductive Registers (pair : ViewPair Γ) (guaranteed : Bool) : Option SubaddressIndex → InternalScanner Γ → Prop
  | new : Registers pair guaranteed none (.new pair guaranteed)
  | register {scanner : InternalScanner Γ} (index : SubaddressIndex) (h : Registered pair guaranteed scanner) :
      Registers pair guaranteed (some index) (scanner.registerSubaddress index)
  | other {scanner : InternalScanner Γ} {subaddress : Option SubaddressIndex} (index : SubaddressIndex)
      (h : Registers pair guaranteed subaddress scanner) (hne : spendKey pair subaddress ≠ spendKey pair (some index)) :
      Registers pair guaranteed subaddress (scanner.registerSubaddress index)

section Registers

variable {pair : ViewPair Γ} {guaranteed : Bool} {subaddress : Option SubaddressIndex}

theorem Registers.registered (h : Registers pair guaranteed subaddress scanner) : Registered pair guaranteed scanner := by
  induction h with
  | new => exact .new
  | register index h => exact .register index h
  | other index _ _ ih => exact .register index ih

theorem Registers.subaddresses (h : Registers pair guaranteed subaddress scanner) :
    scanner.subaddresses (Γ.compress (spendKey pair subaddress)) = some subaddress := by
  induction h with
  | new =>
    rw [InternalScanner.new]
    dsimp only [spendKey]
    rw [Function.update_self]
  | register index h =>
    rw [registerSubaddress, h.sound.pair_eq]
    dsimp only [spendKey]
    rw [Function.update_self]
  | other index h hne ih =>
    rw [registerSubaddress, h.registered.sound.pair_eq]
    change Function.update _ (Γ.compress (spendKey pair (some index))) _ _ = _
    rw [Function.update_of_ne (Γ.compress_injective.ne hne), ih]

end Registers

/-! ## Scanning returns -/

/-- There is an amount for an output, in plain sight or encrypted. -/
def HasAmount (tx : Transaction Pruned) (o : ℕ) (output : Output) : Prop :=
  output.amount = none → ∃ txPrefix, ∃ proofs : PrunedRctProofs,
    tx = .V2 txPrefix (some proofs) ∧ o < proofs.base.encryptedAmounts.length

/-- There is an amount for each output of a transaction, if it may have RingCT outputs. -/
def Scannable (tx : Transaction Pruned) : Prop :=
  tx.version = 2 → ∀ o output, tx.txPrefix.outputs[o]? = some output → HasAmount tx o output

section Returns

variable {tx : Transaction Pruned} {o : ℕ} {output : Output} {index : UInt64} {txHash : Bytes 32} {extra : Extra}
  {outputKey key : Γ.Point}

theorem HasAmount.receivedCommitment (h : HasAmount tx o output) (derivations : SharedKeyDerivations) :
    ∃ received, receivedCommitment (Γ := Γ) derivations tx o output = .ok received := by
  unfold InternalScanner.receivedCommitment
  cases hamount : output.amount with
  | some amount => exact ⟨_, rfl⟩
  | none =>
    obtain ⟨txPrefix, proofs, rfl, hlt⟩ := h hamount
    dsimp only
    rw [List.getElem?_eq_getElem hlt]
    dsimp only
    split
    · exact ⟨_, rfl⟩
    · exact ⟨_, rfl⟩

/-- An output is found for a key: its view tag, if it has one, is that for the key, it is to a spend key which is registered, and its
commitment opens to what is decrypted with the key. -/
structure Finds (scanner : InternalScanner Γ) (tx : Transaction Pruned) (o : ℕ) (output : Output)
    (outputKey key : Γ.Point) : Prop where
  viewTag : ∀ viewTag, output.viewTag = some viewTag → viewTag = (scanner.derivations tx o key).viewTag
  registered : ∃ subaddress,
    scanner.subaddresses (Γ.compress (outputKey - (scanner.derivations tx o key).sharedKey • Γ.G)) = some subaddress
  received : ∃ commitment, receivedCommitment (Γ := Γ) (scanner.derivations tx o key) tx o output = .ok (some commitment)

theorem viewTag_any {derivations : SharedKeyDerivations} :
    output.viewTag.any (· ≠ derivations.viewTag) = true ↔
    ¬∀ viewTag, output.viewTag = some viewTag → viewTag = derivations.viewTag := by
  cases output.viewTag with
  | none => simp
  | some viewTag => simp

/-- A key that an output is not found for is passed over. -/
theorem scanKey_of_not_finds (hamount : HasAmount tx o output) (h : ¬scanner.Finds tx o output outputKey key) :
    scanner.scanKey index txHash tx extra o output outputKey key = .ok none := by
  unfold InternalScanner.scanKey
  dsimp only
  by_cases htag : ∀ viewTag, output.viewTag = some viewTag → viewTag = (scanner.derivations tx o key).viewTag
  · rw [if_neg (by rw [viewTag_any]; exact not_not.2 htag)]
    cases hsub : scanner.subaddresses (Γ.compress (outputKey - (scanner.derivations tx o key).sharedKey • Γ.G)) with
    | none => rfl
    | some subaddress =>
      dsimp only
      obtain ⟨received, hreceived⟩ := hamount.receivedCommitment (Γ := Γ) (scanner.derivations tx o key)
      rw [hreceived, Results.ok_bind]
      cases received with
      | none => rfl
      | some commitment => exact absurd ⟨htag, ⟨subaddress, hsub⟩, ⟨commitment, hreceived⟩⟩ h
  · rw [if_pos (viewTag_any.2 htag)]

/-- A key that an output is found for has it reported. -/
theorem scanKey_of_finds {subaddress : Option SubaddressIndex} {commitment : Commitment} (hindex : index.toNat + o < 2 ^ 64)
    (htag : ∀ viewTag, output.viewTag = some viewTag → viewTag = (scanner.derivations tx o key).viewTag)
    (hsub : scanner.subaddresses (Γ.compress (outputKey - (scanner.derivations tx o key).sharedKey • Γ.G)) = some subaddress)
    (hreceived : receivedCommitment (Γ := Γ) (scanner.derivations tx o key) tx o output = .ok (some commitment)) :
    ∃ out, scanner.scanKey index txHash tx extra o output outputKey key = .ok (some out) ∧ out.data.commitment = commitment ∧
      out.metadata.subaddress = subaddress ∧
      out.metadata.paymentId =
        extra.paymentId.map fun id => id.xor (SharedKeyDerivations.paymentIdXor Γ (scanner.pair.view • key)) := by
  have ho : (UInt64.ofNat o).toNat = o := Nat.mod_eq_of_lt (by omega)
  have hposition : ∀ message, u64FromUsize (ε := ScanError) o message = .ok (UInt64.ofNat o) :=
    fun message => u64FromUsize_eq_ok.2 ho
  have hsum : index.toNat + (UInt64.ofNat o).toNat < 2 ^ 64 := by rwa [ho]
  unfold InternalScanner.scanKey
  dsimp only
  rw [if_neg (by rw [viewTag_any]; exact not_not.2 htag), hsub]
  dsimp only
  rw [hreceived, Results.ok_bind]
  dsimp only
  rw [hposition, Results.ok_bind, checkedAdd, if_pos hsum, Results.ok_bind]
  exact ⟨_, rfl, rfl, rfl, rfl⟩

theorem HasAmount.scanKey (h : HasAmount tx o output) (hindex : index.toNat + o < 2 ^ 64) (extra : Extra)
    (outputKey key : Γ.Point) :
    ∃ received, scanner.scanKey index txHash tx extra o output outputKey key = .ok received := by
  by_cases hfinds : scanner.Finds tx o output outputKey key
  · obtain ⟨htag, ⟨subaddress, hsub⟩, commitment, hreceived⟩ := hfinds
    obtain ⟨out, hout, -⟩ := scanKey_of_finds hindex htag hsub hreceived
    exact ⟨some out, hout⟩
  · exact ⟨none, scanKey_of_not_finds h hfinds⟩

theorem scanKeys_returns {scanKey : Γ.Point → Except (Failure ScanError) (Option (WalletOutput Γ))} {keys : List Γ.Point}
    (h : ∀ key ∈ keys, ∃ received, scanKey key = .ok received) : ∃ received, scanKeys scanKey keys = .ok received := by
  induction keys with
  | nil => exact ⟨none, rfl⟩
  | cons key keys ih =>
    obtain ⟨⟨received, hreceived⟩, hrest⟩ := List.forall_mem_cons.1 h
    rw [scanKeys, hreceived, Results.ok_bind]
    cases received with
    | none => exact ih hrest
    | some out => exact ⟨some out, rfl⟩

theorem HasAmount.scanOutput (h : HasAmount tx o output) (hindex : index.toNat + o < 2 ^ 64) (extra : Extra) (txKeys : List Γ.Point)
    (additional : Option (List Γ.Point)) :
    ∃ received, scanner.scanOutput index txHash tx extra txKeys additional o output = .ok received := by
  unfold InternalScanner.scanOutput
  split
  · exact ⟨none, rfl⟩
  · split
    · exact ⟨none, rfl⟩
    · exact scanKeys_returns fun key _ => h.scanKey hindex extra _ key

end Returns

/-- The loop over the outputs returns what each of them is found to be. -/
theorem scanOutputs_returns {scanOutput : ℕ → Output → Except (Failure ScanError) (Option (WalletOutput Γ))} {o : ℕ}
    {outputs : List Output} (h : ∀ i output, outputs[i]? = some output → ∃ received, scanOutput (o + i) output = .ok received) :
    ∃ reported, scanOutputs scanOutput o outputs = .ok reported ∧
      ∀ i output out, outputs[i]? = some output → scanOutput (o + i) output = .ok (some out) → out ∈ reported := by
  induction outputs generalizing o with
  | nil => exact ⟨[], rfl, by simp⟩
  | cons output outputs ih =>
    obtain ⟨received, hreceived⟩ := h 0 output rfl
    rw [Nat.add_zero] at hreceived
    have hrest : ∀ i output, outputs[i]? = some output → ∃ received, scanOutput (o + 1 + i) output = .ok received := by
      intro i output' hget
      rw [Nat.add_right_comm]
      exact h (i + 1) output' (by rw [List.getElem?_cons_succ, hget])
    obtain ⟨rest, hscan, hmem⟩ := ih hrest
    refine ⟨received.toList ++ rest, ?_, ?_⟩
    · rw [scanOutputs, hreceived, Results.ok_bind, hscan, Results.ok_bind]
    · intro i output' out hget hout
      cases i with
      | zero =>
        cases hget
        rw [Nat.add_zero, hreceived] at hout
        cases hout
        simp
      | succ i =>
        rw [List.getElem?_cons_succ] at hget
        rw [← Nat.add_assoc, Nat.add_right_comm] at hout
        exact List.mem_append_right _ (hmem i output' out hget hout)

/-- Scanning a transaction returns each output that is found to be received. -/
theorem Scannable.scanTransaction {tx : Transaction Pruned} (h : Scannable tx) {index : UInt64} {txHash : Bytes 32}
    (hindex : index.toNat + ringctOutputs [(txHash, tx)] < 2 ^ 64) :
    ∃ reported, scanner.scanTransaction index txHash tx = .ok reported ∧
      ∀ txKeys additional o output out, tx.version = 2 → (Extra.read tx.txPrefix.extra).keys Γ = some (txKeys, additional) →
        tx.txPrefix.outputs[o]? = some output →
        scanner.scanOutput index txHash tx (Extra.read tx.txPrefix.extra) txKeys additional o output = .ok (some out) →
        out ∈ reported := by
  unfold InternalScanner.scanTransaction
  by_cases hversion : tx.version = 2
  · rw [if_neg (not_not.2 hversion)]
    dsimp only
    have hlength : ringctOutputs [(txHash, tx)] = tx.txPrefix.outputs.length := by
      cases tx with
      | V1 txPrefix signatures => cases hversion
      | V2 txPrefix proofs => rfl
    cases hkeys : (Extra.read tx.txPrefix.extra).keys Γ with
    | none =>
      refine ⟨[], rfl, ?_⟩
      intro txKeys additional o output out _ hnone
      cases hnone
    | some keys =>
      obtain ⟨txKeys, additional⟩ := keys
      dsimp only
      have houtputs : ∀ i output, tx.txPrefix.outputs[i]? = some output → ∃ received,
          scanner.scanOutput index txHash tx (Extra.read tx.txPrefix.extra) txKeys additional (0 + i) output = .ok received := by
        intro i output hget
        have hi := (List.getElem?_eq_some_iff.1 hget).1
        rw [Nat.zero_add]
        exact (h hversion i output hget).scanOutput (by omega) _ txKeys additional
      obtain ⟨reported, hscan, hmem⟩ := scanOutputs_returns houtputs
      refine ⟨reported, hscan, ?_⟩
      intro txKeys' additional' o output out _ hsome hget hout
      cases hsome
      exact hmem o output out hget (by rwa [Nat.zero_add])
  · rw [if_pos hversion]
    refine ⟨[], rfl, ?_⟩
    intro txKeys additional o output out htwo
    exact absurd htwo hversion

theorem nextIndex_returns {index : UInt64} {txHash : Bytes 32} {tx : Transaction Pruned}
    (hindex : index.toNat + ringctOutputs [(txHash, tx)] < 2 ^ 64) : ∃ index', nextIndex index tx = .ok index' := by
  cases tx with
  | V1 txPrefix signatures => exact ⟨index, rfl⟩
  | V2 txPrefix proofs =>
    change index.toNat + txPrefix.outputs.length < 2 ^ 64 at hindex
    have hlength : (UInt64.ofNat txPrefix.outputs.length).toNat = txPrefix.outputs.length := Nat.mod_eq_of_lt (by omega)
    refine ⟨index + UInt64.ofNat txPrefix.outputs.length, Results.bind_eq_ok.2 ⟨_, u64FromUsize_eq_ok.2 hlength, ?_⟩⟩
    rw [checkedAdd, if_pos (by rwa [hlength])]

/-- Scanning the transactions of a block scans each of them, with the index of its first RingCT output. -/
theorem scanTransactions_returns {index : UInt64} {txs : List (Bytes 32 × Transaction Pruned)} (h : ∀ pair ∈ txs, Scannable pair.2)
    (hindex : index.toNat + ringctOutputs txs < 2 ^ 64) :
    ∃ reported, scanner.scanTransactions index txs = .ok reported ∧
      ∀ p txHash tx, txs[p]? = some (txHash, tx) → ∃ (first : UInt64) (received : Timelocked Γ),
        first.toNat = index.toNat + ringctOutputs (txs.take p) ∧ scanner.scanTransaction first txHash tx = .ok received ∧
          ∀ out ∈ received, out ∈ reported := by
  induction txs generalizing index with
  | nil => exact ⟨[], rfl, by simp⟩
  | cons pair txs ih =>
    obtain ⟨hash, tx⟩ := pair
    obtain ⟨hfirst, hrest⟩ := List.forall_mem_cons.1 h
    rw [ringctOutputs_cons] at hindex
    have hlt : index.toNat + ringctOutputs [(hash, tx)] < 2 ^ 64 := by omega
    obtain ⟨received, hreceived, -⟩ : ∃ reported, scanner.scanTransaction index hash tx = .ok reported ∧ _ :=
      hfirst.scanTransaction hlt
    obtain ⟨index', hnext⟩ := nextIndex_returns hlt
    have hindex' := nextIndex_ok hnext hash
    obtain ⟨rest, hscan, hmem⟩ := ih hrest (show index'.toNat + _ < 2 ^ 64 by omega)
    refine ⟨received ++ rest, ?_, ?_⟩
    · rw [scanTransactions, hreceived, Results.ok_bind, hnext, Results.ok_bind, hscan, Results.ok_bind]
    · intro p hash' tx' hget
      cases p with
      | zero =>
        cases hget
        exact ⟨index, received, rfl, hreceived, fun out hout => List.mem_append_left _ hout⟩
      | succ p =>
        rw [List.getElem?_cons_succ] at hget
        obtain ⟨first, received', hfirst', hreceived', hin⟩ := hmem p hash' tx' hget
        refine ⟨first, received', ?_, hreceived', fun out hout => List.mem_append_right _ (hin out hout)⟩
        rw [hfirst', hindex', List.take_succ_cons, ringctOutputs_cons _ (txs.take p), Nat.add_assoc]

/-- A block to be scanned: of a version which is supported, with the index of its first RingCT output known and those of all of its
outputs representable, and with a transaction for each hash, which has an amount for each output. -/
structure Supported (Γ : Ctx) (block : ScannableBlock) (first : UInt64) : Prop where
  length_eq : block.block.transactions.length = block.transactions.length
  first_eq : block.outputIndexForFirstRingctOutput = some first
  version_le : block.block.header.hardforkVersion ≤ 16
  index_lt : first.toNat + ringctOutputs (txsWithHashes Γ block) < 2 ^ 64
  scannable : ∀ pair ∈ txsWithHashes Γ block, Scannable pair.2

/-- Scanning a block scans each of its transactions. -/
theorem Supported.scan {block : ScannableBlock} {first : UInt64} (h : Supported Γ block first) :
    ∃ outputs, scanner.scan block = .ok outputs ∧
      ∀ p txHash tx, (txsWithHashes Γ block)[p]? = some (txHash, tx) → ∃ (index : UInt64) (received : Timelocked Γ),
        index.toNat = first.toNat + ringctOutputs ((txsWithHashes Γ block).take p) ∧
          scanner.scanTransaction index txHash tx = .ok received ∧
          ∀ out ∈ received, out ∈ outputs ∨ dropUnencrypted out ∈ outputs := by
  obtain ⟨reported, hscan, hmem⟩ : ∃ reported, scanner.scanTransactions first (txsWithHashes Γ block) = .ok reported ∧ _ :=
    scanTransactions_returns h.scannable h.index_lt
  unfold InternalScanner.scan
  rw [if_neg (not_not.2 h.length_eq), h.first_eq]
  dsimp only
  rw [if_neg (UInt8.not_lt.2 h.version_le), hscan, Results.ok_bind]
  refine ⟨_, rfl, ?_⟩
  intro p txHash tx hget
  obtain ⟨index, received, hindex, hreceived, hin⟩ := hmem p txHash tx hget
  refine ⟨index, received, hindex, hreceived, ?_⟩
  intro out hout
  split
  · exact Or.inr (List.mem_map_of_mem (hin out hout))
  · exact Or.inl (hin out hout)

end InternalScanner

end MoneroOxide
