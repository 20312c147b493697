import Mathlib.Data.Prod.Lex
import MoneroOxide.Lemmas.Instance
import MoneroOxide.Lib.Lists
import MoneroOxide.Lib.Results
import MoneroOxide.Scan

/-!
# What a scanner reports was received, and is reported once

Whatever the contents of a block, each output a scanner reports is one of the block, of which the key is the spend key offset by a
scalar the scanner reports, at the index it reports; and no output is reported twice.
-/

namespace MoneroOxide

theorem u64FromUsize_eq_ok {ε : Type} {n : ℕ} {message : String} {r : UInt64} :
    (u64FromUsize n message : Except (Failure ε) UInt64) = .ok r ↔ r.toNat = n := by
  unfold u64FromUsize
  by_cases h : n < 2 ^ 64
  · rw [if_pos h]
    constructor
    · intro he
      cases he
      exact Nat.mod_eq_of_lt h
    · intro he
      rw [← he, UInt64.ofNat_toNat]
  · rw [if_neg h]
    refine ⟨nofun, fun he => absurd ?_ h⟩
    rw [← he]
    exact r.toNat_lt

theorem checkedAdd_eq_ok {ε : Type} {a b : UInt64} {error : ε} {r : UInt64} :
    checkedAdd a b error = .ok r ↔ r.toNat = a.toNat + b.toNat := by
  unfold checkedAdd
  by_cases h : a.toNat + b.toNat < 2 ^ 64
  · rw [if_pos h]
    have hadd : (a + b).toNat = a.toNat + b.toNat := by
      rw [UInt64.toNat_add, Nat.mod_eq_of_lt h]
    constructor
    · intro he
      cases he
      exact hadd
    · intro he
      rw [UInt64.toNat_inj.1 (hadd.trans he.symm)]
  · rw [if_neg h]
    refine ⟨nofun, fun he => absurd ?_ h⟩
    rw [← he]
    exact r.toNat_lt

namespace InternalScanner

variable {Γ : Ctx}

/-- The scanners which are made by registering subaddresses with a new one, in any order. -/
inductive Registered (pair : ViewPair Γ) (guaranteed : Bool) : InternalScanner Γ → Prop
  | new : Registered pair guaranteed (.new pair guaranteed)
  | register {scanner : InternalScanner Γ} (subaddress : SubaddressIndex) : Registered pair guaranteed scanner →
      Registered pair guaranteed (scanner.registerSubaddress subaddress)

/-- The spend key of a subaddress, or of the pair. -/
def spendKey (pair : ViewPair Γ) : Option SubaddressIndex → Γ.Point
  | none => pair.spend
  | some index => (pair.subaddressKeys index).1

/-- What holds of a scanner whatever subaddresses were registered: it has the spend key of each subaddress it has. Subaddresses of one
spend key may replace each other. -/
structure Sound (pair : ViewPair Γ) (guaranteed : Bool) (scanner : InternalScanner Γ) : Prop where
  pair_eq : scanner.pair = pair
  guaranteed_eq : scanner.guaranteed = guaranteed
  subaddresses : ∀ key subaddress, scanner.subaddresses key = some subaddress → key = Γ.compress (spendKey pair subaddress)

theorem Registered.sound {pair : ViewPair Γ} {guaranteed : Bool} {scanner : InternalScanner Γ}
    (h : Registered pair guaranteed scanner) :
    Sound pair guaranteed scanner := by
  induction h with
  | new =>
    refine ⟨rfl, rfl, fun key subaddress hkey => ?_⟩
    unfold InternalScanner.new at hkey
    dsimp only at hkey
    by_cases he : key = Γ.compress pair.spend
    · rw [he, Function.update_self] at hkey
      cases hkey
      exact he
    · rw [Function.update_of_ne he] at hkey
      cases hkey
  | register subaddress _ ih =>
    refine ⟨ih.pair_eq, ih.guaranteed_eq, fun key subaddress' hkey => ?_⟩
    unfold registerSubaddress at hkey
    rw [ih.pair_eq] at hkey
    dsimp only at hkey
    by_cases he : key = Γ.compress (pair.subaddressKeys subaddress).1
    · rw [he, Function.update_self] at hkey
      cases hkey
      exact he
    · rw [Function.update_of_ne he] at hkey
      exact ih.subaddresses key subaddress' hkey

/-! ## One output -/

/-- The commitment reported for an output. -/
def CommitmentOk (Γ : Ctx) (tx : Transaction Pruned) (o : ℕ) (output : Output) (commitment : Commitment) : Prop :=
  match output.amount with
  | some amount => commitment = { Commitment.zero with amount }
  | none => ∃ txPrefix, ∃ proofs : PrunedRctProofs, tx = .V2 txPrefix (some proofs) ∧
      proofs.base.commitments[o]? = some (Γ.compress (commitment.commit Γ))

/-- What is reported of an output of a transaction. -/
structure Reports (pair : ViewPair Γ) (index : UInt64) (txHash : Bytes 32) (tx : Transaction Pruned) (o : ℕ) (output : Output)
    (reported : WalletOutput Γ) : Prop where
  transaction : reported.absoluteId.transaction = txHash
  indexInTransaction : reported.absoluteId.indexInTransaction.toNat = o
  indexOnBlockchain : reported.relativeId.indexOnBlockchain.toNat = index.toNat + o
  decompress : CompressedPoint.decompress Γ output.key = some reported.data.key
  key : reported.data.key = pair.spend + reported.data.keyOffset • Γ.G
  commitment : CommitmentOk Γ tx o output reported.data.commitment

theorem Reports.dropUnencrypted {pair : ViewPair Γ} {index : UInt64} {txHash : Bytes 32} {tx : Transaction Pruned} {o : ℕ}
    {output : Output} {reported : WalletOutput Γ} (h : Reports pair index txHash tx o output reported) :
    Reports pair index txHash tx o output (InternalScanner.dropUnencrypted reported) := by
  unfold InternalScanner.dropUnencrypted
  split
  · exact ⟨h.transaction, h.indexInTransaction, h.indexOnBlockchain, h.decompress, h.key, h.commitment⟩
  · exact h

theorem receivedCommitment_ok {derivations : SharedKeyDerivations} {tx : Transaction Pruned} {o : ℕ} {output : Output}
    {commitment : Commitment} (h : receivedCommitment (Γ := Γ) derivations tx o output = .ok (some commitment)) :
    CommitmentOk Γ tx o output commitment := by
  unfold receivedCommitment at h
  unfold CommitmentOk
  cases hamount : output.amount with
  | some amount =>
    rw [hamount] at h
    cases h
    rfl
  | none =>
    rw [hamount] at h
    dsimp only at h ⊢
    split at h
    · rename_i txPrefix proofs
      split at h
      · cases h
      · split at h
        · cases h
        · rename_i hne
          cases h
          exact ⟨txPrefix, proofs, rfl, (not_not.1 hne).symm⟩
    · cases h

/-- The key of an output is the spend key it was found to be for, offset by the shared key. -/
theorem key_of_subaddress {pair : ViewPair Γ} {outputKey : Γ.Point} {sharedKey : Scalar} {subaddress : Option SubaddressIndex}
    (h : Γ.compress (outputKey - sharedKey • Γ.G) = Γ.compress (spendKey pair subaddress)) :
    outputKey = pair.spend + (match subaddress with
      | some subaddress => sharedKey + pair.subaddressDerivation subaddress
      | none => sharedKey) • Γ.G := by
  have hkey : outputKey = spendKey pair subaddress + sharedKey • Γ.G := by
    rw [← Γ.compress_injective h, sub_add_cancel]
  cases subaddress with
  | none => exact hkey
  | some index =>
    change outputKey = _ + (sharedKey + pair.subaddressDerivation index) • Γ.G
    rw [hkey, Ctx.torsionFree_G.add_smul, spendKey, ViewPair.subaddressKeys]
    dsimp only
    abel

theorem scanKey_ok {pair : ViewPair Γ} {guaranteed : Bool} {scanner : InternalScanner Γ} (hscanner : Sound pair guaranteed scanner)
    {index : UInt64} {txHash : Bytes 32} {tx : Transaction Pruned} {extra : Extra} {o : ℕ} {output : Output}
    {outputKey key : Γ.Point}
    {reported : WalletOutput Γ} (hkey : CompressedPoint.decompress Γ output.key = some outputKey)
    (h : scanner.scanKey index txHash tx extra o output outputKey key = .ok (some reported)) :
    Reports pair index txHash tx o output reported := by
  unfold scanKey at h
  dsimp only at h
  split at h
  · cases h
  · split at h
    · cases h
    · rename_i subaddress hsubaddress
      obtain ⟨received, hreceived, h⟩ := Results.bind_eq_ok.1 h
      cases received with
      | none => cases h
      | some commitment =>
        obtain ⟨index', hindex', h⟩ := Results.bind_eq_ok.1 h
        obtain ⟨indexOnBlockchain, hblockchain, h⟩ := Results.bind_eq_ok.1 h
        cases h
        rw [u64FromUsize_eq_ok] at hindex'
        rw [checkedAdd_eq_ok, hindex'] at hblockchain
        have hspend := key_of_subaddress (hscanner.subaddresses _ _ hsubaddress)
        rw [hscanner.pair_eq]
        exact ⟨rfl, hindex', hblockchain, hkey, hspend, receivedCommitment_ok hreceived⟩

theorem scanKeys_ok {scanKey : Γ.Point → Except (Failure ScanError) (Option (WalletOutput Γ))} {keys : List Γ.Point}
    {reported : WalletOutput Γ} (h : scanKeys scanKey keys = .ok (some reported)) : ∃ key, scanKey key = .ok (some reported) := by
  induction keys with
  | nil => cases h
  | cons key keys ih =>
    unfold scanKeys at h
    obtain ⟨received, hreceived, h⟩ := Results.bind_eq_ok.1 h
    cases received with
    | none => exact ih h
    | some output =>
      cases h
      exact ⟨key, hreceived⟩

theorem scanOutput_ok {pair : ViewPair Γ} {guaranteed : Bool} {scanner : InternalScanner Γ}
    (hscanner : Sound pair guaranteed scanner)
    {index : UInt64} {txHash : Bytes 32} {tx : Transaction Pruned} {extra : Extra} {txKeys : List Γ.Point}
    {additional : Option (List Γ.Point)} {o : ℕ} {output : Output} {reported : WalletOutput Γ}
    (h : scanner.scanOutput index txHash tx extra txKeys additional o output = .ok (some reported)) :
    Reports pair index txHash tx o output reported := by
  unfold scanOutput at h
  split at h
  · cases h
  · split at h
    · cases h
    · rename_i outputKey hkey
      obtain ⟨key, h⟩ := scanKeys_ok h
      exact scanKey_ok hscanner hkey h

/-! ## The outputs of a transaction, and of a block -/

/-- The outputs reported are of positions in order, each with what is to hold of it. -/
def InOrder {ι : Type} [LT ι] (R : ι → WalletOutput Γ → Prop) (outputs : Timelocked Γ) : Prop :=
  ∃ positions : List ι, positions.Pairwise (· < ·) ∧ List.Forall₂ R positions outputs

section InOrder

variable {ι : Type} [LT ι] {R R₁ R₂ : ι → WalletOutput Γ → Prop}

theorem InOrder.nil : InOrder R [] := ⟨[], .nil, .nil⟩

theorem InOrder.imp {outputs : Timelocked Γ} (h : InOrder R₁ outputs) (hR : ∀ i out, R₁ i out → R i out) : InOrder R outputs := by
  obtain ⟨positions, hpairwise, hforall⟩ := h
  exact ⟨positions, hpairwise, hforall.imp hR⟩

/-- Outputs which were reported one after the other. -/
theorem InOrder.append {outputs outputs' : Timelocked Γ} (h₁ : InOrder R₁ outputs) (h₂ : InOrder R₂ outputs')
    (hlt : ∀ i out j out', R₁ i out → R₂ j out' → i < j) (hR₁ : ∀ i out, R₁ i out → R i out) (hR₂ : ∀ i out, R₂ i out → R i out) :
    InOrder R (outputs ++ outputs') := by
  obtain ⟨positions, hpairwise, hforall⟩ := h₁
  obtain ⟨positions', hpairwise', hforall'⟩ := h₂
  refine ⟨positions ++ positions', List.pairwise_append.2 ⟨hpairwise, hpairwise', fun i hi j hj => ?_⟩,
    List.rel_append (hforall.imp hR₁) (hforall'.imp hR₂)⟩
  obtain ⟨out, hout⟩ := Lists.exists_of_forall₂ hforall hi
  obtain ⟨out', hout'⟩ := Lists.exists_of_forall₂ hforall' hj
  exact hlt i out j out' hout hout'

theorem InOrder.map {outputs : Timelocked Γ} (h : InOrder R₁ outputs) (f : WalletOutput Γ → WalletOutput Γ)
    (hR : ∀ i out, R₁ i out → R i (f out)) : InOrder R (outputs.map f) := by
  obtain ⟨positions, hpairwise, hforall⟩ := h
  exact ⟨positions, hpairwise, List.forall₂_map_right_iff.2 (hforall.imp hR)⟩

end InOrder

theorem scanOutputs_ok {scanOutput : ℕ → Output → Except (Failure ScanError) (Option (WalletOutput Γ))} {o : ℕ}
    {outputs : List Output}
    {reported : Timelocked Γ} (h : scanOutputs scanOutput o outputs = .ok reported) :
    InOrder (fun i out => o ≤ i ∧ ∃ output, outputs[i - o]? = some output ∧ scanOutput i output = .ok (some out)) reported := by
  induction outputs generalizing o reported with
  | nil =>
    cases h
    exact InOrder.nil
  | cons output outputs ih =>
    unfold scanOutputs at h
    obtain ⟨received, hreceived, h⟩ := Results.bind_eq_ok.1 h
    obtain ⟨rest, hrest, h⟩ := Results.bind_eq_ok.1 h
    cases h
    have hfirst : InOrder (fun i out => i = o ∧ scanOutput o output = .ok (some out)) received.toList := by
      cases received with
      | none => exact InOrder.nil
      | some out => exact ⟨[o], List.pairwise_singleton _ _, .cons ⟨rfl, hreceived⟩ .nil⟩
    refine hfirst.append (ih hrest) ?_ ?_ ?_
    · intro i out j out' hi hj
      have := hj.1
      omega
    · intro i out hi
      obtain ⟨rfl, hscan⟩ := hi
      refine ⟨le_refl i, output, ?_, hscan⟩
      rw [Nat.sub_self]
      rfl
    · intro i out hi
      obtain ⟨hle, output', hget, hscan⟩ := hi
      refine ⟨by omega, output', ?_, hscan⟩
      have hsub : i - o = (i - (o + 1)) + 1 := by omega
      rw [hsub, List.getElem?_cons_succ]
      exact hget

theorem scanTransaction_ok {pair : ViewPair Γ} {guaranteed : Bool} {scanner : InternalScanner Γ}
    (hscanner : Sound pair guaranteed scanner)
    {index : UInt64} {txHash : Bytes 32} {tx : Transaction Pruned} {reported : Timelocked Γ}
    (h : scanner.scanTransaction index txHash tx = .ok reported) :
    InOrder (fun o out => ∃ output, tx.txPrefix.outputs[o]? = some output ∧
    Reports pair index txHash tx o output out) reported := by
  unfold scanTransaction at h
  split at h
  · cases h
    exact InOrder.nil
  · dsimp only at h
    split at h
    · cases h
      exact InOrder.nil
    · refine (scanOutputs_ok h).imp fun o out ho => ?_
      obtain ⟨-, output, hget, hscan⟩ := ho
      exact ⟨output, hget, scanOutput_ok hscanner hscan⟩

/-- The RingCT outputs of transactions: the outputs of those of version 2. -/
def ringctOutputs (txs : List (Bytes 32 × Transaction Pruned)) : ℕ :=
  (txs.map fun (_, tx) => match tx with
    | .V1 .. => 0
    | .V2 .. => tx.txPrefix.outputs.length).sum

theorem ringctOutputs_cons (pair : Bytes 32 × Transaction Pruned) (txs : List (Bytes 32 × Transaction Pruned)) :
    ringctOutputs (pair :: txs) = ringctOutputs [pair] + ringctOutputs txs := by
  simp [ringctOutputs]

/-- The outputs before a transaction and its own are among all of them. -/
theorem ringctOutputs_take_succ_le {txs : List (Bytes 32 × Transaction Pruned)} {p : ℕ} {pair : Bytes 32 × Transaction Pruned}
    (h : txs[p]? = some pair) : ringctOutputs (txs.take p) + ringctOutputs [pair] ≤ ringctOutputs txs := by
  induction txs generalizing p with
  | nil => cases h
  | cons first txs ih =>
    rw [ringctOutputs_cons first txs]
    cases p with
    | zero =>
      cases h
      rw [List.take_zero]
      exact Nat.add_comm _ _ ▸ Nat.add_le_add_left (Nat.zero_le _) _
    | succ p =>
      rw [List.take_succ_cons, ringctOutputs_cons first (txs.take p), Nat.add_assoc]
      exact Nat.add_le_add_left (ih h) _

theorem nextIndex_ok {index index' : UInt64} {tx : Transaction Pruned} (h : nextIndex index tx = .ok index') (hash : Bytes 32) :
    index'.toNat = index.toNat + ringctOutputs [(hash, tx)] := by
  cases tx with
  | V1 txPrefix signatures =>
    cases h
    rfl
  | V2 txPrefix proofs =>
    obtain ⟨outputs, houtputs, h⟩ := Results.bind_eq_ok.1 h
    rw [checkedAdd_eq_ok, u64FromUsize_eq_ok.1 houtputs] at h
    rw [h]
    rfl

/-- What is reported of the output at an index of the transaction at a position, with the index of the first RingCT output. -/
def ReportsAt (pair : ViewPair Γ) (first : UInt64) (txs : List (Bytes 32 × Transaction Pruned)) (t o : ℕ)
    (out : WalletOutput Γ) : Prop :=
  ∃ hash tx output, ∃ index : UInt64, txs[t]? = some (hash, tx) ∧ tx.txPrefix.outputs[o]? = some output ∧
    index.toNat = first.toNat + ringctOutputs (txs.take t) ∧ Reports pair index hash tx o output out

theorem scanTransactions_ok {pair : ViewPair Γ} {guaranteed : Bool} {scanner : InternalScanner Γ}
    (hscanner : Sound pair guaranteed scanner)
    {index : UInt64} {txs : List (Bytes 32 × Transaction Pruned)} {reported : Timelocked Γ} (t : ℕ)
    (h : scanner.scanTransactions index txs = .ok reported) :
    InOrder (fun (p : ℕ ×ₗ ℕ) out => t ≤ (ofLex p).1 ∧ ReportsAt pair index txs ((ofLex p).1 - t) (ofLex p).2 out) reported := by
  induction txs generalizing index reported t with
  | nil =>
    cases h
    exact InOrder.nil
  | cons tx txs ih =>
    obtain ⟨hash, tx⟩ := tx
    unfold scanTransactions at h
    obtain ⟨received, hreceived, h⟩ := Results.bind_eq_ok.1 h
    obtain ⟨index', hindex', h⟩ := Results.bind_eq_ok.1 h
    obtain ⟨rest, hrest, h⟩ := Results.bind_eq_ok.1 h
    cases h
    -- The outputs of this transaction, at its position.
    have hfirst : InOrder (fun (p : ℕ ×ₗ ℕ) out => (ofLex p).1 = t ∧ ∃ output, tx.txPrefix.outputs[(ofLex p).2]? = some output ∧
        Reports pair index hash tx (ofLex p).2 output out) received := by
      obtain ⟨positions, hpairwise, hforall⟩ := scanTransaction_ok hscanner hreceived
      refine ⟨positions.map fun o => toLex (t, o), ?_, ?_⟩
      · refine List.pairwise_map.2 (hpairwise.imp fun hlt => ?_)
        exact Prod.Lex.toLex_lt_toLex.2 (Or.inr ⟨rfl, hlt⟩)
      · exact List.forall₂_map_left_iff.2 (hforall.imp fun o out hout => ⟨rfl, hout⟩)
    refine hfirst.append (ih (t + 1) hrest) ?_ ?_ ?_
    · intro i out j out' hi hj
      refine Prod.Lex.lt_iff.2 (Or.inl ?_)
      have := hi.1
      have := hj.1
      omega
    · intro i out hi
      obtain ⟨rfl, output, hget, hreports⟩ := hi
      refine ⟨le_refl _, hash, tx, output, index, ?_, hget, ?_, hreports⟩
      · rw [Nat.sub_self]
        rfl
      · rw [Nat.sub_self]
        rfl
    · intro i out hi
      obtain ⟨hle, hash', tx', output, index'', htx, hget, hindex'', hreports⟩ := hi
      have hsub : (ofLex i).1 - t = ((ofLex i).1 - (t + 1)) + 1 := by omega
      refine ⟨by omega, hash', tx', output, index'', ?_, hget, ?_, hreports⟩
      · rw [hsub, List.getElem?_cons_succ]
        exact htx
      · rw [hindex'', nextIndex_ok hindex' hash, hsub, List.take_succ_cons, ringctOutputs_cons _ (txs.take _), Nat.add_assoc]

/-- Whatever the block, if a scanner with any subaddresses registered returns outputs, they are of strictly increasing pairs of a
position in the block and an index in the transaction there. Each is reported with the hash of its transaction and its index in it; with
its index on the blockchain, after the RingCT outputs before it; with its key, which is the spend key offset by the reported scalar; and
with the opening of its commitment, or the amount which is in plain sight. -/
theorem scan_sound (pair : ViewPair Γ) (guaranteed : Bool) (scanner : InternalScanner Γ)
    (hscanner : Registered pair guaranteed scanner)
    (block : ScannableBlock) (outputs : Timelocked Γ) (h : scanner.scan block = .ok outputs) :
    ∃ positions : List (ℕ ×ₗ ℕ), positions.Pairwise (· < ·) ∧
      List.Forall₂ (fun p out => ∃ first, block.outputIndexForFirstRingctOutput = some first ∧
        ReportsAt pair first (txsWithHashes Γ block) (ofLex p).1 (ofLex p).2 out) positions outputs := by
  unfold scan at h
  split at h
  · cases h
  · split at h
    · cases h
      exact ⟨[], .nil, .nil⟩
    · rename_i first hfirst
      split at h
      · cases h
      · obtain ⟨res, hres, h⟩ := Results.bind_eq_ok.1 h
        have hinOrder := scanTransactions_ok hscanner.sound 0 hres
        cases h
        split
        · refine hinOrder.map _ fun p out hp => ⟨first, hfirst, ?_⟩
          obtain ⟨-, hash, tx, output, index, htx, hget, hindex, hreports⟩ := hp
          exact ⟨hash, tx, output, index, htx, hget, hindex, hreports.dropUnencrypted⟩
        · exact hinOrder.imp fun p out hp => ⟨first, hfirst, hp.2⟩

/-- A pair of keys, in the context whose hash function is constant. -/
def samplePair : ViewPair instanceCtx := { spend := instanceCtx.G, view := 1, torsionFree := instanceCtx.order_G }

/-- A block whose miner transaction has one output, to the keys of `samplePair`. -/
def sampleBlock : ScannableBlock where
  block :=
    { header := { hardforkVersion := 16, hardforkSignal := 16, timestamp := 0, previous := Bytes.replicate 32 0, nonce := 0 }
      minerTransaction := .V2
        { additionalTimelock := .None
          inputs := [.Gen 0]
          outputs := [{ amount := some 5, key := instanceCtx.compress instanceCtx.H, viewTag := some 1 }]
          extra := [1] ++ (instanceCtx.compress instanceCtx.G).toList } none
      transactions := []
      isMiner := rfl }
  transactions := []
  outputIndexForFirstRingctOutput := some 7

theorem exists_scan_sampleBlock : ∃ outputs, (Scanner.new samplePair).scan sampleBlock = .ok outputs ∧ outputs.length = 1 := by
  have hlen : ((Scanner.new samplePair).scan sampleBlock).toOption.map List.length = some 1 := by decide +kernel
  cases hscan : (Scanner.new samplePair).scan sampleBlock with
  | error e =>
    rw [hscan] at hlen
    cases hlen
  | ok outputs =>
    rw [hscan] at hlen
    exact ⟨outputs, rfl, Option.some.inj hlen⟩

/-- The output of `sampleBlock` is reported, at the position it is at. -/
theorem scan_sound_sampleBlock : ∃ outputs, (Scanner.new samplePair).scan sampleBlock = .ok outputs ∧ outputs.length = 1 ∧
    ∃ positions : List (ℕ ×ₗ ℕ), positions.Pairwise (· < ·) ∧
      List.Forall₂ (fun p out => ∃ first, sampleBlock.outputIndexForFirstRingctOutput = some first ∧
        ReportsAt samplePair first (txsWithHashes instanceCtx sampleBlock) (ofLex p).1 (ofLex p).2 out) positions outputs := by
  obtain ⟨outputs, hscan, hlen⟩ := exists_scan_sampleBlock
  exact ⟨outputs, hscan, hlen, scan_sound samplePair false _ .new sampleBlock outputs hscan⟩

end InternalScanner

end MoneroOxide
