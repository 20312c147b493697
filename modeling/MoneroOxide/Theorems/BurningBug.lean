import MoneroOxide.Lemmas.HashBinding
import MoneroOxide.Lemmas.Transaction
import MoneroOxide.Theorems.Scan

/-!
# The guaranteed scanner is immune to the burning bug

Outputs with one key have one key image, so that only one of them can be spent. The key of an output which a guaranteed scanner reports
is derived with the key images of its transaction, which no other transaction on a blockchain has, and with its index in it. So the keys
which are reported over a blockchain are different, unless a hash is hit: two different strings have one hash, or what two different
subaddresses are offset by makes up for it.
-/

namespace MoneroOxide

namespace InternalScanner

variable {Γ : Ctx}

/-! ## The inputs of a transaction -/

/-- What `uniqueness` hashes of an input. -/
def inputString : Input → List UInt8
  | .Gen height => VarInt.write height.toNat
  | .ToKey _ _ keyImage => keyImage.toList

/-- What an input has which no other input on a blockchain does. -/
def linkingTag : Input → UInt64 ⊕ CompressedPoint
  | .Gen height => .inl height
  | .ToKey _ _ keyImage => .inr keyImage

/-- The inputs of a miner transaction, or of one which is not. -/
def InputsOk (inputs : List Input) : Prop :=
  (∃ height, inputs = [.Gen height]) ∨ inputs ≠ [] ∧ ∀ input ∈ inputs, ∃ amount keyOffsets keyImage, input = .ToKey amount keyOffsets keyImage

theorem keyImages_inj {inputs inputs' : List Input} (h : ∀ input ∈ inputs, ∃ amount keyOffsets keyImage, input = .ToKey amount keyOffsets keyImage)
    (h' : ∀ input ∈ inputs', ∃ amount keyOffsets keyImage, input = .ToKey amount keyOffsets keyImage)
    (heq : inputs.flatMap inputString = inputs'.flatMap inputString) : inputs.map linkingTag = inputs'.map linkingTag := by
  have hlen : ∀ inputs : List Input, (∀ input ∈ inputs, ∃ amount keyOffsets keyImage, input = .ToKey amount keyOffsets keyImage) →
      (inputs.flatMap inputString).length = 32 * inputs.length := by
    intro inputs h
    induction inputs with
    | nil => rfl
    | cons input inputs ih =>
      obtain ⟨⟨amount, keyOffsets, keyImage, rfl⟩, hrest⟩ := List.forall_mem_cons.1 h
      rw [List.flatMap_cons, List.length_append, ih hrest, inputString, Bytes.length_toList, List.length_cons]
      omega
  induction inputs generalizing inputs' with
  | nil =>
    have := hlen inputs' h'
    rw [← heq] at this
    obtain rfl : inputs' = [] := List.eq_nil_of_length_eq_zero (by simpa using this.symm)
    rfl
  | cons input inputs ih =>
    rcases inputs' with _ | ⟨input', inputs'⟩
    · have := hlen _ h
      rw [heq] at this
      simp at this
    · obtain ⟨⟨amount, keyOffsets, keyImage, rfl⟩, hrest⟩ := List.forall_mem_cons.1 h
      obtain ⟨⟨amount', keyOffsets', keyImage', rfl⟩, hrest'⟩ := List.forall_mem_cons.1 h'
      simp only [List.flatMap_cons, inputString] at heq
      obtain ⟨rfl, hinputs⟩ := Bytes.append_inj heq
      rw [List.map_cons, List.map_cons, ih hrest hrest' hinputs, linkingTag, linkingTag]

/-- The string which is hashed for the uniqueness determines what is unique of the inputs. -/
theorem linkingTags_of_strings {inputs inputs' : List Input} (h : InputsOk inputs) (h' : InputsOk inputs')
    (heq : inputs.flatMap inputString = inputs'.flatMap inputString) : inputs.map linkingTag = inputs'.map linkingTag := by
  -- A height is written shorter than a key image.
  have hshort : ∀ (height : UInt64) (inputs : List Input), inputs ≠ [] →
      (∀ input ∈ inputs, ∃ amount keyOffsets keyImage, input = .ToKey amount keyOffsets keyImage) →
      [Input.Gen height].flatMap inputString ≠ inputs.flatMap inputString := by
    intro height inputs hne h heq
    obtain ⟨input, inputs, rfl⟩ := List.exists_cons_of_ne_nil hne
    obtain ⟨⟨amount, keyOffsets, keyImage, rfl⟩, -⟩ := List.forall_mem_cons.1 h
    have hlen := congrArg List.length heq
    have hheight : VarInt.varintLen height.toNat ≤ 10 :=
      (VarInt.varintLen_le_iff (by omega)).2 (lt_trans height.toNat_lt (by decide))
    rw [List.flatMap_singleton, List.flatMap_cons, inputString, inputString, VarInt.length_write, List.length_append,
      Bytes.length_toList] at hlen
    omega
  rcases h with ⟨height, rfl⟩ | ⟨hne, hinputs⟩ <;> rcases h' with ⟨height', rfl⟩ | ⟨hne', hinputs'⟩
  · simp only [List.flatMap_singleton, inputString] at heq
    rw [← List.append_nil (VarInt.write height.toNat), ← List.append_nil (VarInt.write height'.toNat)] at heq
    rw [UInt64.toNat_inj.1 (VarInt.append_inj heq).1]
  · exact absurd heq (hshort height inputs' hne' hinputs')
  · exact absurd heq.symm (hshort height' inputs hne hinputs)
  · exact keyImages_inj hinputs hinputs' heq

/-! ## Derivations -/

/-- What the key of an output is derived with. -/
structure Derivation (Γ : Ctx) where
  inputs : List Input
  ecdh : Γ.Point
  o : ℕ
  subaddress : Option SubaddressIndex

namespace Derivation

/-- The string which is hashed for the uniqueness. -/
def uniquenessString (d : Derivation Γ) : List UInt8 := ascii "uniqueness" ++ d.inputs.flatMap inputString

/-- The string which is hashed for the shared key. -/
def sharedString (d : Derivation Γ) : List UInt8 :=
  (Γ.keccak256 d.uniquenessString).toList ++ (SharedKeyDerivations.sharedPoint Γ d.ecdh ++ VarInt.write d.o)

/-- What the spend key is offset by. -/
def offset (pair : ViewPair Γ) (d : Derivation Γ) : Scalar :=
  Scalar.hash Γ d.sharedString + d.subaddress.elim 0 pair.subaddressDerivation

/-- A hash is hit: two different strings have one hash, or for two different subaddresses the offsets are equal. -/
def Coincide (pair : ViewPair Γ) (d d' : Derivation Γ) : Prop :=
  (d.uniquenessString ≠ d'.uniquenessString ∧ Γ.keccak256 d.uniquenessString = Γ.keccak256 d'.uniquenessString) ∨
    (d.sharedString ≠ d'.sharedString ∧ Scalar.hash Γ d.sharedString = Scalar.hash Γ d'.sharedString) ∨
    (d.subaddress ≠ d'.subaddress ∧ d.offset pair = d'.offset pair)

theorem coincide_of_offset {pair : ViewPair Γ} {d d' : Derivation Γ} (hoffset : d.offset pair = d'.offset pair)
    (hne : d.uniquenessString ≠ d'.uniquenessString ∨ d.o ≠ d'.o) : Coincide pair d d' := by
  by_cases hsubaddress : d.subaddress = d'.subaddress
  · have hhash : Scalar.hash Γ d.sharedString = Scalar.hash Γ d'.sharedString := by
      unfold offset at hoffset
      rw [hsubaddress] at hoffset
      exact add_right_cancel hoffset
    by_cases hshared : d.sharedString = d'.sharedString
    · obtain ⟨huniqueness, hrest⟩ := Bytes.append_inj hshared
      rcases hne with hne | hne
      · exact Or.inl ⟨hne, huniqueness⟩
      · refine absurd ?_ hne
        obtain ⟨-, ho⟩ := Bytes.append_inj hrest
        rw [← List.append_nil (VarInt.write d.o), ← List.append_nil (VarInt.write d'.o)] at ho
        exact (VarInt.append_inj ho).1
    · exact Or.inr (Or.inl ⟨hshared, hhash⟩)
  · exact Or.inr (Or.inr ⟨hsubaddress, hoffset⟩)

end Derivation

/-- The key of an output, reported as the `o`-th one of a transaction, is derived with one of the keys of the transaction. -/
structure Derived (pair : ViewPair Γ) (tx : Transaction Pruned) (o : ℕ) (out : WalletOutput Γ) (d : Derivation Γ) : Prop where
  inputs : d.inputs = tx.txPrefix.inputs
  index : d.o = o
  ecdh : ∃ txKeys additional, (Extra.read tx.txPrefix.extra).keys Γ = some (txKeys, additional) ∧
    ∃ key ∈ txKeys ++ (additional.bind (·[o]?)).toList, d.ecdh = pair.view • key
  subaddress : d.subaddress = out.metadata.subaddress
  keyOffset : out.data.keyOffset = d.offset pair
  key : out.data.key = pair.spend + out.data.keyOffset • Γ.G

/-! ## What is reported -/

theorem scanKey_derived {pair : ViewPair Γ} {scanner : InternalScanner Γ} (hscanner : Sound pair true scanner) {index : UInt64}
    {txHash : Bytes 32} {tx : Transaction Pruned} {extra : Extra} {o : ℕ} {output : Output} {outputKey key : Γ.Point}
    {out : WalletOutput Γ} (h : scanner.scanKey index txHash tx extra o output outputKey key = .ok (some out)) :
    ∃ subaddress, subaddress = out.metadata.subaddress ∧
      out.data.keyOffset = Derivation.offset pair ⟨tx.txPrefix.inputs, pair.view • key, o, subaddress⟩ := by
  have hderivations : (scanner.derivations tx o key).sharedKey =
      Scalar.hash Γ (Derivation.sharedString ⟨tx.txPrefix.inputs, pair.view • key, o, none⟩) := by
    rw [derivations, hscanner.guaranteed_eq, hscanner.pair_eq]
    rfl
  unfold scanKey at h
  dsimp only at h
  split at h
  · cases h
  · split at h
    · cases h
    · rename_i subaddress hsubaddress
      obtain ⟨received, hreceived, h⟩ := Results.bind_eq_ok.1 h
      cases received with
      | none => cases h
      | some commitment =>
        obtain ⟨index', -, h⟩ := Results.bind_eq_ok.1 h
        obtain ⟨indexOnBlockchain, -, h⟩ := Results.bind_eq_ok.1 h
        cases h
        refine ⟨subaddress, rfl, ?_⟩
        cases subaddress with
        | none =>
          change (scanner.derivations tx o key).sharedKey = _ + 0
          rw [hderivations, add_zero]
        | some index =>
          change (scanner.derivations tx o key).sharedKey + scanner.pair.subaddressDerivation index = _
          rw [hderivations, hscanner.pair_eq]
          rfl

theorem scanKeys_mem {scanKey : Γ.Point → Except (Failure ScanError) (Option (WalletOutput Γ))} {keys : List Γ.Point}
    {reported : WalletOutput Γ} (h : scanKeys scanKey keys = .ok (some reported)) :
    ∃ key ∈ keys, scanKey key = .ok (some reported) := by
  induction keys with
  | nil => cases h
  | cons key keys ih =>
    unfold scanKeys at h
    obtain ⟨received, hreceived, h⟩ := Results.bind_eq_ok.1 h
    cases received with
    | none =>
      obtain ⟨key', hkey', hscan⟩ := ih h
      exact ⟨key', List.mem_cons_of_mem _ hkey', hscan⟩
    | some output =>
      cases h
      exact ⟨key, List.mem_cons_self, hreceived⟩

theorem scanTransaction_derived {pair : ViewPair Γ} {scanner : InternalScanner Γ} (hscanner : Sound pair true scanner) {index : UInt64}
    {txHash : Bytes 32} {tx : Transaction Pruned} {reported : Timelocked Γ}
    (h : scanner.scanTransaction index txHash tx = .ok reported) : InOrder (fun o out => ∃ d, Derived pair tx o out d) reported := by
  unfold scanTransaction at h
  split at h
  · cases h
    exact InOrder.nil
  · dsimp only at h
    split at h
    · cases h
      exact InOrder.nil
    · rename_i txKeys additional hkeys
      refine (scanOutputs_ok h).imp fun o out ho => ?_
      obtain ⟨-, output, -, hscan⟩ := ho
      have hkey := (scanOutput_ok hscanner hscan).key
      unfold scanOutput at hscan
      split at hscan
      · cases hscan
      · split at hscan
        · cases hscan
        · obtain ⟨key, hmem, hscan⟩ := scanKeys_mem hscan
          obtain ⟨subaddress, hsubaddress, hoffset⟩ := scanKey_derived hscanner hscan
          exact ⟨⟨tx.txPrefix.inputs, pair.view • key, o, subaddress⟩, rfl, rfl, ⟨txKeys, additional, hkeys, key, hmem, rfl⟩,
            hsubaddress, hoffset, hkey⟩

theorem Derived.dropUnencrypted {pair : ViewPair Γ} {tx : Transaction Pruned} {o : ℕ} {out : WalletOutput Γ} {d : Derivation Γ}
    (h : Derived pair tx o out d) : Derived pair tx o (InternalScanner.dropUnencrypted out) d := by
  unfold InternalScanner.dropUnencrypted
  split
  · exact ⟨h.inputs, h.index, h.ecdh, h.subaddress, h.keyOffset, h.key⟩
  · exact h

/-- The outputs have different keys, or a hash is hit for what they are derived with in some of the transactions. -/
def KeysDiffer (pair : ViewPair Γ) (txs : List (Transaction Pruned)) (out out' : WalletOutput Γ) : Prop :=
  out.data.key ≠ out'.data.key ∨ ∃ tx ∈ txs, ∃ tx' ∈ txs, ∃ o o' d d', Derived pair tx o out d ∧ Derived pair tx' o' out' d' ∧
    Derivation.Coincide pair d d'

theorem KeysDiffer.mono {pair : ViewPair Γ} {txs txs' : List (Transaction Pruned)} {out out' : WalletOutput Γ}
    (h : KeysDiffer pair txs out out') (hsub : txs ⊆ txs') : KeysDiffer pair txs' out out' := by
  rcases h with hne | ⟨tx, htx, tx', htx', hrest⟩
  · exact Or.inl hne
  · exact Or.inr ⟨tx, hsub htx, tx', hsub htx', hrest⟩

/-- Outputs of transactions whose strings for the uniqueness differ, or of different indexes. -/
theorem Derived.keysDiffer (hG : Γ.G ≠ 0) {pair : ViewPair Γ} {txs : List (Transaction Pruned)} {tx tx' : Transaction Pruned}
    (htx : tx ∈ txs) (htx' : tx' ∈ txs) {o o' : ℕ} {out out' : WalletOutput Γ} {d d' : Derivation Γ} (h : Derived pair tx o out d)
    (h' : Derived pair tx' o' out' d')
    (hne : tx.txPrefix.inputs.flatMap inputString ≠ tx'.txPrefix.inputs.flatMap inputString ∨ o ≠ o') :
    KeysDiffer pair txs out out' := by
  by_cases hkey : out.data.key = out'.data.key
  · have hoffset : d.offset pair = d'.offset pair := by
      rw [h.key, h'.key, add_right_inj, ← sub_eq_zero, ← Ctx.torsionFree_G.sub_smul, Ctx.torsionFree_G.smul_eq_zero] at hkey
      rw [← h.keyOffset, ← h'.keyOffset]
      exact sub_eq_zero.1 (hkey.resolve_right hG)
    refine Or.inr ⟨tx, htx, tx', htx', o, o', d, d', h, h', Derivation.coincide_of_offset hoffset ?_⟩
    rcases hne with hinputs | hindex
    · refine Or.inl fun heq => hinputs ?_
      rw [← h.inputs, ← h'.inputs]
      exact List.append_cancel_left heq
    · refine Or.inr fun heq => hindex ?_
      rw [← h.index, ← h'.index, heq]
  · exact Or.inl hkey

/-- Outputs reported of positions in order are related as the positions are. -/
theorem InOrder.pairwise {ι : Type} [LT ι] {R : ι → WalletOutput Γ → Prop} {Q : WalletOutput Γ → WalletOutput Γ → Prop}
    {outputs : Timelocked Γ} (h : InOrder R outputs) (hQ : ∀ i j out out', i < j → R i out → R j out' → Q out out') :
    outputs.Pairwise Q := by
  obtain ⟨positions, hpairwise, hall⟩ := h
  induction hall with
  | nil => exact .nil
  | cons hR hrest ih =>
    obtain ⟨hlt, hpairwise⟩ := List.pairwise_cons.1 hpairwise
    refine List.pairwise_cons.2 ⟨fun out' hout' => ?_, ih hpairwise⟩
    obtain ⟨j, hj, hRj⟩ := Lists.exists_mem_of_forall₂ hrest hout'
    exact hQ _ j _ out' (hlt j hj) hR hRj

/-- Two transactions do not have the same inputs, and both have those of a transaction. -/
def Unlinked (tx tx' : Transaction Pruned) : Prop :=
  InputsOk tx.txPrefix.inputs ∧ InputsOk tx'.txPrefix.inputs ∧ tx.txPrefix.inputs.map linkingTag ≠ tx'.txPrefix.inputs.map linkingTag

/-- What was reported of some transactions: each output is of one of them, and any two outputs are of different ones or at different
indexes. -/
structure ReportedOf (pair : ViewPair Γ) (txs : List (Transaction Pruned)) (reported : Timelocked Γ) : Prop where
  derived : ∀ out ∈ reported, ∃ tx ∈ txs, ∃ o d, Derived pair tx o out d
  keysDiffer : reported.Pairwise (KeysDiffer pair txs)

theorem ReportedOf.nil (pair : ViewPair Γ) : ReportedOf pair [] [] := ⟨by simp, .nil⟩

theorem ReportedOf.append (hG : Γ.G ≠ 0) {pair : ViewPair Γ} {txs txs' : List (Transaction Pruned)} {reported reported' : Timelocked Γ}
    (h : ReportedOf pair txs reported) (h' : ReportedOf pair txs' reported')
    (hunlinked : ∀ tx ∈ txs, ∀ tx' ∈ txs', Unlinked tx tx') : ReportedOf pair (txs ++ txs') (reported ++ reported') := by
  constructor
  · intro out hout
    rcases List.mem_append.1 hout with hout | hout
    · obtain ⟨tx, htx, hderived⟩ := h.derived out hout
      exact ⟨tx, List.mem_append_left _ htx, hderived⟩
    · obtain ⟨tx, htx, hderived⟩ := h'.derived out hout
      exact ⟨tx, List.mem_append_right _ htx, hderived⟩
  · refine List.pairwise_append.2 ⟨?_, ?_, fun out hout out' hout' => ?_⟩
    · exact h.keysDiffer.imp fun hdiffer => hdiffer.mono (List.subset_append_left _ _)
    · exact h'.keysDiffer.imp fun hdiffer => hdiffer.mono (List.subset_append_right _ _)
    · obtain ⟨tx, htx, o, d, hd⟩ := h.derived out hout
      obtain ⟨tx', htx', o', d', hd'⟩ := h'.derived out' hout'
      obtain ⟨hok, hok', hne⟩ := hunlinked tx htx tx' htx'
      exact hd.keysDiffer hG (List.mem_append_left _ htx) (List.mem_append_right _ htx') hd'
        (Or.inl fun heq => hne (linkingTags_of_strings hok hok' heq))

theorem scanTransaction_reportedOf (hG : Γ.G ≠ 0) {pair : ViewPair Γ} {scanner : InternalScanner Γ} (hscanner : Sound pair true scanner)
    {index : UInt64} {txHash : Bytes 32} {tx : Transaction Pruned} {reported : Timelocked Γ}
    (h : scanner.scanTransaction index txHash tx = .ok reported) : ReportedOf pair [tx] reported := by
  have hinOrder := scanTransaction_derived hscanner h
  constructor
  · intro out hout
    obtain ⟨positions, -, hall⟩ := hinOrder
    obtain ⟨o, -, hderived⟩ := Lists.exists_mem_of_forall₂ hall hout
    exact ⟨tx, List.mem_singleton_self _, o, hderived⟩
  · refine hinOrder.pairwise fun o o' out out' hlt hout hout' => ?_
    obtain ⟨d, hd⟩ := hout
    obtain ⟨d', hd'⟩ := hout'
    exact hd.keysDiffer hG (List.mem_singleton_self _) (List.mem_singleton_self _) hd' (Or.inr hlt.ne)

theorem scanTransactions_reportedOf (hG : Γ.G ≠ 0) {pair : ViewPair Γ} {scanner : InternalScanner Γ} (hscanner : Sound pair true scanner)
    {index : UInt64} {txs : List (Bytes 32 × Transaction Pruned)} (hunlinked : (txs.map Prod.snd).Pairwise Unlinked)
    {reported : Timelocked Γ} (h : scanner.scanTransactions index txs = .ok reported) :
    ReportedOf pair (txs.map Prod.snd) reported := by
  induction txs generalizing index reported with
  | nil =>
    cases h
    exact .nil pair
  | cons tx txs ih =>
    obtain ⟨hash, tx⟩ := tx
    obtain ⟨hfirst, hrest⟩ := List.pairwise_cons.1 hunlinked
    unfold scanTransactions at h
    obtain ⟨received, hreceived, h⟩ := Results.bind_eq_ok.1 h
    obtain ⟨index', -, h⟩ := Results.bind_eq_ok.1 h
    obtain ⟨rest, hscan, h⟩ := Results.bind_eq_ok.1 h
    cases h
    refine (scanTransaction_reportedOf hG hscanner hreceived).append hG (ih hrest hscan) fun tx' htx' => ?_
    rw [List.mem_singleton.1 htx']
    exact hfirst

/-- The transactions of a block, the miner transaction first. -/
def transactionsOf (block : ScannableBlock) : List (Transaction Pruned) := block.block.minerTransaction.toPruned :: block.transactions

theorem ReportedOf.dropUnencrypted {pair : ViewPair Γ} {txs : List (Transaction Pruned)} {reported : Timelocked Γ}
    (h : ReportedOf pair txs reported) : ReportedOf pair txs (reported.map InternalScanner.dropUnencrypted) := by
  have hkey : ∀ out : WalletOutput Γ, (InternalScanner.dropUnencrypted out).data.key = out.data.key := by
    intro out
    unfold InternalScanner.dropUnencrypted
    split <;> rfl
  constructor
  · intro out hout
    obtain ⟨out, hmem, rfl⟩ := List.mem_map.1 hout
    obtain ⟨tx, htx, o, d, hd⟩ := h.derived out hmem
    exact ⟨tx, htx, o, d, hd.dropUnencrypted⟩
  · refine List.pairwise_map.2 (h.keysDiffer.imp fun {out out'} hdiffer => ?_)
    rcases hdiffer with hne | ⟨tx, htx, tx', htx', o, o', d, d', hd, hd', hcoincide⟩
    · refine Or.inl ?_
      rw [hkey, hkey]
      exact hne
    · exact Or.inr ⟨tx, htx, tx', htx', o, o', d, d', hd.dropUnencrypted, hd'.dropUnencrypted, hcoincide⟩

theorem scan_reportedOf (hG : Γ.G ≠ 0) {pair : ViewPair Γ} {scanner : InternalScanner Γ} (hscanner : Sound pair true scanner)
    {block : ScannableBlock} (hunlinked : (transactionsOf block).Pairwise Unlinked) {reported : Timelocked Γ}
    (h : scanner.scan block = .ok reported) : ReportedOf pair (transactionsOf block) reported := by
  unfold scan at h
  split at h
  · cases h
  · rename_i hlen
    have htxs : (txsWithHashes Γ block).map Prod.snd = transactionsOf block := by
      rw [txsWithHashes, List.map_cons, List.map_snd_zip (not_not.1 hlen).ge, transactionsOf]
    split at h
    · cases h
      exact ⟨by simp, .nil⟩
    · split at h
      · cases h
      · obtain ⟨res, hres, h⟩ := Results.bind_eq_ok.1 h
        rw [← htxs] at hunlinked
        have hreported := scanTransactions_reportedOf hG hscanner hunlinked hres
        rw [htxs] at hreported
        cases h
        split
        · exact hreported.dropUnencrypted
        · exact hreported

end InternalScanner

open InternalScanner

/-- The outputs which a guaranteed scanner reports of blocks, while subaddresses are registered in between, have different keys, if no
two of the transactions have the same inputs. Otherwise a hash is hit for what two of these outputs are derived with. -/
theorem guaranteedScanner_keysDiffer {Γ : Ctx} (hG : Γ.G ≠ 0) (pair : GuaranteedViewPair Γ) {blocks : List ScannableBlock}
    {reported : List (Timelocked Γ)}
    (hscan : List.Forall₂ (fun block outputs => ∃ scanner, Registered pair.pair true scanner ∧ scanner.scan block = .ok outputs) blocks reported)
    (hunlinked : (blocks.flatMap transactionsOf).Pairwise Unlinked) :
    reported.flatten.Pairwise (KeysDiffer pair.pair (blocks.flatMap transactionsOf)) := by
  have hreported : ReportedOf pair.pair (blocks.flatMap transactionsOf) reported.flatten := by
    induction hscan with
    | nil => exact .nil pair.pair
    | cons hblock _ ih =>
      obtain ⟨scanner, hscanner, hscan⟩ := hblock
      obtain ⟨hfirst, hrest, hunlinked⟩ := List.pairwise_append.1 hunlinked
      exact (scan_reportedOf hG hscanner.sound hfirst hscan).append hG (ih hrest) hunlinked
  exact hreported.keysDiffer

/-- A block whose miner transaction has one output, to the keys of `samplePair`, at a height. -/
def minedBlock (height : UInt64) : ScannableBlock where
  block :=
    { header := sampleBlock.block.header
      minerTransaction := .V2 { sampleBlock.block.minerTransaction.txPrefix with inputs := [.Gen height] } none
      transactions := []
      isMiner := rfl }
  transactions := []
  outputIndexForFirstRingctOutput := some 7

theorem exists_scan_minedBlock (height : UInt64) (hheight : height = 0 ∨ height = 1) :
    ∃ outputs, (GuaranteedScanner.new ⟨samplePair⟩).scan (minedBlock height) = .ok outputs ∧ outputs.length = 1 := by
  have hlen : ((GuaranteedScanner.new ⟨samplePair⟩).scan (minedBlock height)).toOption.map List.length = some 1 := by
    rcases hheight with rfl | rfl <;> decide +kernel
  cases hscan : (GuaranteedScanner.new ⟨samplePair⟩).scan (minedBlock height) with
  | error e =>
    rw [hscan] at hlen
    cases hlen
  | ok outputs =>
    rw [hscan] at hlen
    exact ⟨outputs, rfl, Option.some.inj hlen⟩

/-- The outputs of two blocks, in the context in which every hash is the same. -/
theorem guaranteedScanner_keysDiffer_mined : ∃ reported : List (Timelocked instanceCtx), reported.flatten.length = 2 ∧
    reported.flatten.Pairwise (KeysDiffer samplePair ([minedBlock 0, minedBlock 1].flatMap transactionsOf)) := by
  obtain ⟨outputs, hscan, hlen⟩ := exists_scan_minedBlock 0 (Or.inl rfl)
  obtain ⟨outputs', hscan', hlen'⟩ := exists_scan_minedBlock 1 (Or.inr rfl)
  refine ⟨[outputs, outputs'], by simp [hlen, hlen'], guaranteedScanner_keysDiffer instanceCtx_G_ne_zero ⟨samplePair⟩
    (.cons ⟨_, .new, hscan⟩ (.cons ⟨_, .new, hscan'⟩ .nil)) ?_⟩
  refine List.pairwise_pair.2 ⟨Or.inl ⟨0, rfl⟩, Or.inl ⟨1, rfl⟩, ?_⟩
  decide

end MoneroOxide
