import MoneroOxide.Lemmas.SendScan

/-!
# What is sent is received

Each recipient's scanner finds its output in the transaction, with the amount, the subaddress and the payment ID which were intended.
This holds of any transaction which creates the outputs, also of one that was not made here.
-/

namespace MoneroOxide

namespace SignableTransaction

open InternalScanner

variable {Γ : Ctx} {t : SignableTransaction Γ}

/-- In any block with a transaction, which can be scanned, each recipient of a payment recovers it with a scanner of its pair of keys,
which is a guaranteed one if the address is, with the subaddress registered. The key of the output is not the identity, and no
transaction key which is tried before the right one finds the output. -/
def Recoverable (t : SignableTransaction Γ) (tx : Transaction Pruned) : Prop :=
  ∀ (i : ℕ) (payment : InternalPayment Γ) (pair : ViewPair Γ) (subaddress : Option SubaddressIndex) (scanner : InternalScanner Γ)
    (block : ScannableBlock) (first : UInt64) (p : ℕ) (txHash : Bytes 32),
    t.payments[i]? = some payment → payment.ReceivedBy pair subaddress →
    Registers pair payment.address.isGuaranteed subaddress scanner →
    (∀ output, tx.txPrefix.outputs[i]? = some output → output.key ≠ CompressedPoint.IDENTITY) → t.NoFalseMatch scanner tx i →
    InternalScanner.Supported Γ block first → (txsWithHashes Γ block)[p]? = some (txHash, tx) →
    ∃ outputs index output out, scanner.scan block = .ok outputs ∧
      index.toNat = first.toNat + ringctOutputs ((txsWithHashes Γ block).take p) ∧ tx.txPrefix.outputs[i]? = some output ∧
      out ∈ outputs ∧ t.Recovers payment pair subaddress index txHash tx i output out

theorem Creates.recoverable (hv : t.Valid) {keyImages : List CompressedPoint} {tx : Transaction Pruned}
    (hcreates : t.Creates keyImages tx) : t.Recoverable tx := by
  intro i payment pair subaddress scanner block first p txHash hi hreceived hscanner hidentity hmatch hblock htx
  exact hcreates.scan hv hi hscanner.registered.sound hscanner.subaddresses hreceived hmatch hidentity hblock htx

/-- The transaction, with whatever signatures, creates the outputs for the key images, which the inputs were sorted by. -/
theorem Valid.creates_txWith (hv : t.Valid) {keyImages : List CompressedPoint} (hlen : keyImages.length = t.inputs.length)
    (bp : Bulletproof) (clsags : List Clsag) (pseudoOuts : List CompressedPoint) :
    t.Creates (t.withKeyImages keyImages).keyImages
      ((t.withKeyImages keyImages).intent.txWith (t.withKeyImages keyImages).keyImages bp clsags pseudoOuts).toPruned := by
  have hreorders := reorders_withKeyImages hlen
  have hlen' := length_keyImages_withKeyImages t keyImages
  have hlen'' : (t.withKeyImages keyImages).keyImages.length = t.inputs.length := hlen'.trans hreorders.inputs.length_eq
  refine ⟨?_, ?_, ?_, _, _, rfl, ?_, ?_⟩
  · rw [uniqueness_txInputs hlen'', ← uniqueness_txInputs hlen']
    rfl
  · exact outputList_reorders hreorders rfl hv.keys_nodup hlen''
  · exact congrArg Extra.write (extraFields_reorders hreorders rfl hv.keys_nodup)
  · exact congrArg _ (openings_reorders hreorders rfl hv.keys_nodup hlen'')
  · exact congrArg _ (openings_reorders hreorders rfl hv.keys_nodup hlen'')

/-- For any key images, the transaction is made, and each of its recipients recovers its payment. -/
theorem sent_is_received (hreturned : Returned t) {keyImages : List CompressedPoint} (hlen : keyImages.length = t.inputs.length) :
    ∃ tx, (t.withKeyImages keyImages).transactionWithoutSignatures = .ok tx ∧ t.Recoverable tx.toPruned := by
  have hv := hreturned.valid
  obtain ⟨bp, hbp, -⟩ := (hv.reorders (reorders_withKeyImages hlen)).transactionWithoutSignatures_eq
    (t.withKeyImages keyImages).keyImages
  exact ⟨_, hbp, (hv.creates_txWith hlen bp [] []).recoverable hv⟩

section Sample

/-- The sample with a change output. -/
def sentSample : SignableTransaction instanceCtx := sample 2000 (.Change (.AddressOnly sampleAddress)) ⟨1, 1, by decide⟩

theorem valid_sentSample : sentSample.Valid := valid_sample (.inr rfl) (j := 2) (by decide) (by decide) (by decide) (by decide)

/-- The block of `sampleBlock`, with a transaction. -/
def blockWith (tx : Transaction Pruned) : ScannableBlock :=
  { sampleBlock with
    block := { sampleBlock.block with transactions := [Bytes.replicate 32 0] }
    transactions := [tx] }

theorem receivedBy_samplePair (amount : UInt64) : (InternalPayment.Payment sampleAddress amount).ReceivedBy samplePair none := by
  refine .payment amount ⟨rfl, ?_, rfl⟩
  exact (Scalar.one_smul instanceCtx.G).symm

variable {keyImages : List CompressedPoint} {tx : Transaction Pruned}

theorem secret_sentSample : sentSample.secrets[0]? = some (samplePair.view • sentSample.txKeyPub) := by
  obtain ⟨key, hkey, hsecret⟩ := valid_sentSample.exists_keyFor (i := 0) rfl (receivedBy_samplePair 1)
  have hnone : sentSample.additionalPoints = [] := by
    rw [additionalPoints, transactionKeys_snd_of_not rfl, List.zip_nil_left, List.map_nil]
  rcases hkey with rfl | hadditional
  · exact hsecret
  · rw [hnone] at hadditional
    cases hadditional

theorem output_sentSample (hcreates : sentSample.Creates keyImages tx) {output : Output}
    (h : tx.txPrefix.outputs[0]? = some output) :
    output.key ≠ CompressedPoint.IDENTITY := by
  rw [hcreates.outputs, outputList_get rfl secret_sentSample] at h
  cases h
  have hkey : (1 : Scalar) • instanceCtx.G + instanceCtx.G ≠ 0 := by
    rw [Scalar.one_smul]
    change ((8 * 1 : ℕ) : Instance.Point) + ((8 * 1 : ℕ) : Instance.Point) ≠ 0
    decide +kernel
  have hshared : (sentSample.derivationsOf keyImages 0 (.Payment sampleAddress 1)
      (samplePair.view • sentSample.txKeyPub)).sharedKey = 1 := hash_instanceCtx _
  rw [outputOf, hshared, ← instanceCtx.compress_zero]
  exact instanceCtx.compress_injective.ne hkey

theorem supported_blockWith (hcreates : sentSample.Creates keyImages tx) :
    InternalScanner.Supported instanceCtx (blockWith tx) 7 where
  length_eq := rfl
  first_eq := rfl
  version_le := UInt8.le_refl 16
  index_lt := by
    have hlength : tx.txPrefix.outputs.length = 2 := by rw [hcreates.outputs, length_outputList]; rfl
    obtain ⟨txPrefix, proofs, rfl, -, -⟩ := hcreates.proofs
    change 7 + (1 + (txPrefix.outputs.length + 0)) < 2 ^ 64
    rw [show txPrefix.outputs.length = 2 from hlength]
    decide
  scannable := by
    intro pair hpair
    rcases List.mem_cons.1 hpair with rfl | hpair
    · intro _ o output hget hamount
      cases o with
      | zero =>
        cases hget
        cases hamount
      | succ o => cases hget
    · rw [List.mem_singleton.1 hpair]
      exact hcreates.scannable

/-- The payment of the sample is received. -/
theorem sent_is_received_sample : ∃ tx outputs out,
    (sentSample.withKeyImages [instanceCtx.compress instanceCtx.G]).transactionWithoutSignatures = .ok tx ∧
      (Scanner.new samplePair).scan (blockWith tx.toPruned) = .ok outputs ∧ out ∈ outputs ∧ out.data.commitment.amount = 1 := by
  have hlen : [instanceCtx.compress instanceCtx.G].length = sentSample.inputs.length := rfl
  obtain ⟨tx, htx, hrecoverable⟩ := sent_is_received (.new (new_sample_change valid_sentSample)) hlen
  obtain ⟨bp, hbp, -⟩ := (valid_sentSample.reorders (reorders_withKeyImages hlen)).transactionWithoutSignatures_eq
    (sentSample.withKeyImages [instanceCtx.compress instanceCtx.G]).keyImages
  obtain rfl := Except.ok.inj (htx.symm.trans hbp)
  have hcreates := valid_sentSample.creates_txWith hlen bp [] []
  obtain ⟨outputs, index, output, out, hscan, -, -, hout, hrecovers⟩ := hrecoverable 0 (.Payment sampleAddress 1) samplePair none
    (Scanner.new samplePair) (blockWith _) 7 1 (Bytes.replicate 32 0) rfl (receivedBy_samplePair 1) .new
    (fun output => output_sentSample hcreates) (fun _ _ _ _ _ => secret_sentSample) (supported_blockWith hcreates) rfl
  exact ⟨_, outputs, out, htx, hscan, hout, (Except.ok.inj hrecovers.amount).symm⟩

end Sample

end SignableTransaction

end MoneroOxide
