import MoneroOxide.Lemmas.SendCodec
import MoneroOxide.Lemmas.Sign

/-!
# A transaction to be signed is read back

Nothing is lost of a transaction which was accepted when it is written and read again: none of the bounds of the reader rejects it,
and its checks succeed again with the payments shuffled.
-/

namespace MoneroOxide

variable {Γ : Ctx}

/-- What is written of a transaction to be signed is read back, and so are its parts. -/
theorem persistence_lossless {rctType : RctType} {outgoingViewKey : Bytes 32} {inputs : List (OutputWithDecoys Γ)}
    {payments : List (Address Γ × UInt64)} {change : Change Γ} {data : List (List UInt8)} {feeRate : FeeRate}
    {t : SignableTransaction Γ}
    (hnew : SignableTransaction.new rctType outgoingViewKey inputs payments change data feeRate = .ok t) (rest : List UInt8) :
    SignableTransaction.read Γ (t.write ++ rest) = .ok (t, rest) ∧
    Eventuality.read Γ (({ intent := t } : Eventuality Γ).write ++ rest) = .ok ({ intent := t }, rest) ∧
    (∀ input : OutputWithDecoys Γ, OutputWithDecoys.read Γ (input.write ++ rest) = .ok input rest) ∧
    (∀ decoys : Decoys Γ, Decoys.read Γ (decoys.write ++ rest) = .ok decoys rest) ∧
    ∀ (t' : SignableTransaction Γ) (rest' : List UInt8) (keyImages : List CompressedPoint),
      SignableTransaction.read Γ (t.write ++ rest) = .ok (t', rest') →
        t'.unsignedTransaction keyImages = t.unsignedTransaction keyImages := by
  have hv := (SignableTransaction.Returned.new hnew).valid
  have hread := hv.read_write rest
  refine ⟨hread, ?_, ?_, ?_, ?_⟩
  · rw [Eventuality.read, Eventuality.write, hread]
    rfl
  · exact fun input => OutputWithDecoys.reads_read.read_back trivial rest
  · exact fun decoys => Decoys.reads_read.read_back trivial rest
  · intro t' rest' keyImages hread'
    obtain ⟨rfl, -⟩ := Prod.mk.inj (Except.ok.inj (hread.symm.trans hread'))
    rfl

/-- The sample with a change output is read back. -/
theorem persistence_lossless_sample : ∃ t : SignableTransaction instanceCtx,
    SignableTransaction.new .ClsagBulletproofPlus (Bytes.replicate 32 0) [SignableTransaction.sampleInput 2000]
      [(SignableTransaction.sampleAddress, 1)] (some (.AddressOnly SignableTransaction.sampleAddress)) []
      ⟨1, 1, by decide⟩ = .ok t ∧
    SignableTransaction.read instanceCtx (t.write ++ [0]) = .ok (t, [0]) := by
  have hv : (SignableTransaction.sample 2000 (.Change (.AddressOnly SignableTransaction.sampleAddress)) ⟨1, 1, by decide⟩).Valid :=
    SignableTransaction.valid_sample (.inr rfl) (j := 2) (by decide) (by decide) (by decide) (by decide)
  have hnew := SignableTransaction.new_sample_change hv
  exact ⟨_, hnew, (persistence_lossless hnew [0]).1⟩

end MoneroOxide
