import MoneroOxide.Lemmas.Recipient
import MoneroOxide.Lemmas.ScanComplete

/-!
# Scanning what was sent

A transaction which creates the outputs it is to create is scanned by the recipient of each of them as it was intended: with the
amount, the subaddress and the payment ID of the payment. Nothing else is asked of the transaction, so that this is also so for one
which was made by someone else.
-/

namespace MoneroOxide

namespace SignableTransaction

open InternalScanner

variable {Γ : Ctx} {t : SignableTransaction Γ}

/-- A transaction creates, with its key images, the outputs which are to be created. -/
structure Creates (t : SignableTransaction Γ) (keyImages : List CompressedPoint) (tx : Transaction Pruned) : Prop where
  uniqueness : SharedKeyDerivations.uniqueness Γ tx.txPrefix.inputs = SharedKeyDerivations.uniqueness Γ (t.txInputs keyImages)
  outputs : tx.txPrefix.outputs = t.outputList keyImages
  extra : tx.txPrefix.extra = t.extraFields.write
  proofs : ∃ txPrefix, ∃ proofs : PrunedRctProofs, tx = .V2 txPrefix (some proofs) ∧
    proofs.base.commitments = ((t.openings keyImages).map fun pair => Γ.compress (pair.1.commit Γ)) ∧
    proofs.base.encryptedAmounts = (t.openings keyImages).map Prod.snd

/-- What the recipient of a payment is to find: the output for it, with the amount which is paid, an opening of its commitment, the
subaddress, and the payment ID of the address if it has one. -/
structure Recovers (t : SignableTransaction Γ) (payment : InternalPayment Γ) (pair : ViewPair Γ)
    (subaddress : Option SubaddressIndex)
    (index : UInt64) (txHash : Bytes 32) (tx : Transaction Pruned) (i : ℕ) (output : Output) (out : WalletOutput Γ) : Prop
    extends Reports pair index txHash tx i output out where
  amount : t.amount payment = .ok out.data.commitment.amount
  opening : ∃ txPrefix, ∃ proofs : PrunedRctProofs, tx = .V2 txPrefix (some proofs) ∧
    proofs.base.commitments[i]? = some (Γ.compress (out.data.commitment.commit Γ))
  subaddress : out.metadata.subaddress = subaddress
  paymentId : ∀ id, payment.address.paymentId = some id → out.metadata.paymentId = some (.Encrypted id)

theorem Recovers.dropUnencrypted {payment : InternalPayment Γ} {pair : ViewPair Γ} {subaddress : Option SubaddressIndex}
    {index : UInt64} {txHash : Bytes 32} {tx : Transaction Pruned} {i : ℕ} {output : Output} {out : WalletOutput Γ}
    (h : t.Recovers payment pair subaddress index txHash tx i output out) :
    t.Recovers payment pair subaddress index txHash tx i output (InternalScanner.dropUnencrypted out) := by
  refine ⟨h.toReports.dropUnencrypted, ?_, ?_, ?_, ?_⟩
  · unfold InternalScanner.dropUnencrypted
    split
    · exact h.amount
    · exact h.amount
  · unfold InternalScanner.dropUnencrypted
    split
    · exact h.opening
    · exact h.opening
  · unfold InternalScanner.dropUnencrypted
    split
    · exact h.subaddress
    · exact h.subaddress
  · intro id hid
    have hencrypted := h.paymentId id hid
    rw [InternalScanner.dropUnencrypted, hencrypted]
    exact hencrypted

/-- The transaction key does not find an output which another key is for. -/
def NoFalseMatch (t : SignableTransaction Γ) (scanner : InternalScanner Γ) (tx : Transaction Pruned) (i : ℕ) : Prop :=
  ∀ output outputKey, tx.txPrefix.outputs[i]? = some output → CompressedPoint.decompress Γ output.key = some outputKey →
    scanner.Finds tx i output outputKey t.txKeyPub → t.secrets[i]? = some (scanner.pair.view • t.txKeyPub)

/-- The keys which are tried for an output: the transaction key, and the additional key for the output if there is one. -/
theorem additional_toList (t : SignableTransaction Γ) (i : ℕ) :
    ((if t.additionalPoints.isEmpty then none else some t.additionalPoints).bind fun additional => additional[i]?) =
      t.additionalPoints[i]? := by
  cases h : t.additionalPoints with
  | nil => rfl
  | cons point points => rfl

section Creates

variable {keyImages : List CompressedPoint} {tx : Transaction Pruned} (hv : t.Valid) (hcreates : t.Creates keyImages tx)

include hcreates

theorem Creates.version_eq : tx.version = 2 := by
  obtain ⟨txPrefix, proofs, rfl, -, -⟩ := hcreates.proofs
  rfl

theorem Creates.hasAmount {i : ℕ} (hi : i < t.payments.length) (output : Output) : HasAmount tx i output := by
  obtain ⟨txPrefix, proofs, rfl, -, hamounts⟩ := hcreates.proofs
  intro _
  refine ⟨txPrefix, proofs, rfl, ?_⟩
  rwa [hamounts, List.length_map, length_openings]

theorem Creates.scannable : Scannable tx := by
  intro _ i output hget
  rw [hcreates.outputs] at hget
  have hlt := (List.getElem?_eq_some_iff.1 hget).1
  rw [length_outputList] at hlt
  exact hcreates.hasAmount hlt output

variable {i : ℕ} {payment : InternalPayment Γ} (hi : t.payments[i]? = some payment) {pair : ViewPair Γ}
  {subaddress : Option SubaddressIndex} {scanner : InternalScanner Γ}

/-- What the recipient derives with a key which gives the secret of an output is what the output was made with. -/
theorem Creates.derivations_eq {secret key : Γ.Point} (hscanner : Sound pair payment.address.isGuaranteed scanner)
    (hkey : pair.view • key = secret) :
    scanner.derivations tx i key = t.derivationsOf keyImages i payment secret := by
  rw [InternalScanner.derivations, derivationsOf, hscanner.pair_eq, hscanner.guaranteed_eq, hcreates.uniqueness, hkey]

include hi

theorem Creates.receivedCommitment {secret : Γ.Point} (hsecret : t.secrets[i]? = some secret) :
    InternalScanner.receivedCommitment (Γ := Γ) (t.derivationsOf keyImages i payment secret) tx i
      (t.outputOf payment (t.derivationsOf keyImages i payment secret)) =
        .ok (some { mask := (t.derivationsOf keyImages i payment secret).commitmentMask Γ, amount := t.amountOf payment }) := by
  obtain ⟨txPrefix, proofs, rfl, hcommitments, hamounts⟩ := hcreates.proofs
  have hopening := openings_get hi hsecret keyImages
  unfold InternalScanner.receivedCommitment
  simp only [outputOf, hcommitments, hamounts, List.getElem?_map, hopening, Option.map_some,
    SharedKeyDerivations.decrypt_compactAmountEncryption, ne_eq, not_true_eq_false, if_false]

variable (hscanner : Sound pair payment.address.isGuaranteed scanner)
  (hregistered : scanner.subaddresses (Γ.compress (spendKey pair subaddress)) = some subaddress)

include hv hscanner hregistered

/-- The payment is recovered with any key which gives its secret. -/
theorem Creates.scanKey (hderives : pair.Derives subaddress payment.address) {key : Γ.Point}
    (hsecret : t.secrets[i]? = some (pair.view • key)) {index : UInt64} (hindex : index.toNat + i < 2 ^ 64) (txHash : Bytes 32) :
    ∃ output outputKey out, tx.txPrefix.outputs[i]? = some output ∧ CompressedPoint.decompress Γ output.key = some outputKey ∧
      scanner.scanKey index txHash tx t.extraFields i output outputKey key = .ok (some out) ∧
      t.Recovers payment pair subaddress index txHash tx i output out := by
  set derivations := t.derivationsOf keyImages i payment (pair.view • key)
  have heq : scanner.derivations tx i key = derivations := hcreates.derivations_eq hscanner rfl
  have hreceived : InternalScanner.receivedCommitment (Γ := Γ) (scanner.derivations tx i key) tx i
      (t.outputOf payment derivations) = .ok (some { mask := derivations.commitmentMask Γ, amount := t.amountOf payment }) := by
    rw [heq]
    exact hcreates.receivedCommitment hi hsecret
  have hdecompress : CompressedPoint.decompress Γ (t.outputOf payment derivations).key =
      some (derivations.sharedKey • Γ.G + payment.address.spend) := CompressedPoint.decompress_compress _ _
  have htag : ∀ viewTag, (t.outputOf payment derivations).viewTag = some viewTag →
      viewTag = (scanner.derivations tx i key).viewTag := by
    intro viewTag htag
    rw [outputOf] at htag
    dsimp only at htag
    split at htag
    · rw [heq]
      exact (Option.some.inj htag).symm
    · cases htag
  have hsub : scanner.subaddresses (Γ.compress (derivations.sharedKey • Γ.G + payment.address.spend -
      (scanner.derivations tx i key).sharedKey • Γ.G)) = some subaddress := by
    rw [heq, add_sub_cancel_left, hderives.spend, hregistered]
  obtain ⟨out, hscan, hcommitment, hsubaddress, hid⟩ :
      ∃ out, scanner.scanKey index txHash tx t.extraFields i _ _ key = .ok (some out) ∧ _ :=
    scanKey_of_finds hindex htag hsub hreceived
  have hreports := scanKey_ok hscanner hdecompress hscan
  have houtput : tx.txPrefix.outputs[i]? = some (t.outputOf payment derivations) := by
    rw [hcreates.outputs, outputList_get hi hsecret]
  refine ⟨_, _, out, houtput, hdecompress, hscan, hreports, ?_, hreports.commitment, hsubaddress, ?_⟩
  · rw [hcommitment, hv.amount_eq]
  · intro id haddress
    rw [hid, paymentId_extraFields, hv.paymentIdField_eq hi hsecret haddress, hscanner.pair_eq, Option.map_some, PaymentId.xor,
      xorBytes_xorBytes]

theorem Creates.scanOutput (hreceived : payment.ReceivedBy pair subaddress) (hmatch : t.NoFalseMatch scanner tx i) {output : Output}
    (houtput : tx.txPrefix.outputs[i]? = some output) (hidentity : output.key ≠ CompressedPoint.IDENTITY) {index : UInt64}
    (hindex : index.toNat + i < 2 ^ 64) (txHash : Bytes 32) :
    ∃ out, scanner.scanOutput index txHash tx t.extraFields [t.txKeyPub]
        (if t.additionalPoints.isEmpty then none else some t.additionalPoints) i output = .ok (some out) ∧
      t.Recovers payment pair subaddress index txHash tx i output out := by
  obtain ⟨key, hkey, hsecret⟩ := hv.exists_keyFor hi hreceived
  obtain ⟨output', outputKey, out, houtput', hdecompress, hscan, hrecovers⟩ :=
    hcreates.scanKey hv hi hscanner hregistered hreceived.derives hsecret hindex txHash
  obtain rfl : output = output' := Option.some.inj (houtput.symm.trans houtput')
  unfold InternalScanner.scanOutput
  rw [if_neg hidentity, hdecompress]
  dsimp only
  rw [additional_toList, List.singleton_append, scanKeys]
  by_cases hfirst : t.secrets[i]? = some (pair.view • t.txKeyPub)
  · -- The transaction key is the right one, which may also be so if there is another.
    obtain ⟨output'', outputKey'', out', houtput'', hdecompress'', hscan', hrecovers'⟩ :=
      hcreates.scanKey hv hi hscanner hregistered hreceived.derives hfirst hindex txHash
    obtain rfl : output = output'' := Option.some.inj (houtput.symm.trans houtput'')
    obtain rfl : outputKey = outputKey'' := Option.some.inj (hdecompress.symm.trans hdecompress'')
    rw [hscan', Results.ok_bind]
    exact ⟨out', rfl, hrecovers'⟩
  · have hfinds : ¬scanner.Finds tx i output outputKey t.txKeyPub := by
      intro hfinds
      have hright := hmatch output outputKey houtput hdecompress hfinds
      rw [hscanner.pair_eq] at hright
      exact hfirst hright
    have hadditional : t.additionalPoints[i]? = some key := by
      rcases hkey with rfl | hadditional
      · exact absurd hsecret hfirst
      · exact hadditional
    rw [scanKey_of_not_finds (hcreates.hasAmount (List.getElem?_eq_some_iff.1 hi).1 output) hfinds, Results.ok_bind]
    dsimp only
    rw [hadditional, Option.toList_some, scanKeys, hscan, Results.ok_bind]
    exact ⟨out, rfl, hrecovers⟩

theorem Creates.scanTransaction (hreceived : payment.ReceivedBy pair subaddress) (hmatch : t.NoFalseMatch scanner tx i)
    (hidentity : ∀ output, tx.txPrefix.outputs[i]? = some output → output.key ≠ CompressedPoint.IDENTITY) {index : UInt64}
    {txHash : Bytes 32} (hindex : index.toNat + ringctOutputs [(txHash, tx)] < 2 ^ 64) :
    ∃ reported output out, scanner.scanTransaction index txHash tx = .ok reported ∧ tx.txPrefix.outputs[i]? = some output ∧
      out ∈ reported ∧ t.Recovers payment pair subaddress index txHash tx i output out := by
  have hlength : ringctOutputs [(txHash, tx)] = t.payments.length := by
    obtain ⟨txPrefix, proofs, rfl, -, -⟩ := hcreates.proofs
    rw [← length_outputList t keyImages, ← hcreates.outputs]
    rfl
  have hlt := (List.getElem?_eq_some_iff.1 hi).1
  have houtput : ∃ output, tx.txPrefix.outputs[i]? = some output := by
    rw [hcreates.outputs]
    exact ⟨_, List.getElem?_eq_getElem (by rwa [length_outputList])⟩
  obtain ⟨output, houtput⟩ := houtput
  obtain ⟨out, hscan, hrecovers⟩ := hcreates.scanOutput hv hi hscanner hregistered hreceived hmatch houtput
    (hidentity output houtput) (show index.toNat + i < 2 ^ 64 by omega) txHash
  obtain ⟨reported, hreported, hmem⟩ : ∃ reported, scanner.scanTransaction index txHash tx = .ok reported ∧ _ :=
    hcreates.scannable.scanTransaction hindex
  have hread : Extra.read tx.txPrefix.extra = t.extraFields := by rw [hcreates.extra, hv.read_extraFields]
  rw [hread] at hmem
  exact ⟨reported, output, out, hreported, houtput,
    hmem _ _ i output out hcreates.version_eq (keys_extraFields t) houtput hscan, hrecovers⟩

/-- In any block with the transaction which can be scanned, the recipient recovers the payment. -/
theorem Creates.scan (hreceived : payment.ReceivedBy pair subaddress) (hmatch : t.NoFalseMatch scanner tx i)
    (hidentity : ∀ output, tx.txPrefix.outputs[i]? = some output → output.key ≠ CompressedPoint.IDENTITY)
    {block : ScannableBlock} {first : UInt64} (hblock : InternalScanner.Supported Γ block first) {p : ℕ} {txHash : Bytes 32}
    (htx : (txsWithHashes Γ block)[p]? = some (txHash, tx)) :
    ∃ outputs index output out, scanner.scan block = .ok outputs ∧
      index.toNat = first.toNat + ringctOutputs ((txsWithHashes Γ block).take p) ∧ tx.txPrefix.outputs[i]? = some output ∧
      out ∈ outputs ∧ t.Recovers payment pair subaddress index txHash tx i output out := by
  obtain ⟨outputs, hscan, hmem⟩ : ∃ outputs, scanner.scan block = .ok outputs ∧ _ := hblock.scan
  obtain ⟨index, received, hindex, hscan', hin⟩ := hmem p txHash tx htx
  have hlt : index.toNat + ringctOutputs [(txHash, tx)] < 2 ^ 64 := by
    have hle := ringctOutputs_take_succ_le htx
    have hblock' := hblock.index_lt
    omega
  obtain ⟨reported, output, out, hreported, houtput, hout, hrecovers⟩ :=
    hcreates.scanTransaction hv hi hscanner hregistered hreceived hmatch hidentity hlt
  obtain rfl : reported = received := Except.ok.inj (hreported.symm.trans hscan')
  rcases hin out hout with hsame | hdrop
  · exact ⟨outputs, index, output, out, hscan, hindex, houtput, hsame, hrecovers⟩
  · exact ⟨outputs, index, output, _, hscan, hindex, houtput, hdrop, hrecovers.dropUnencrypted⟩

end Creates

end SignableTransaction

end MoneroOxide
