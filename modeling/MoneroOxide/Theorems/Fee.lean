import MoneroOxide.Lemmas.SendMultisig

/-!
# The weight and the fee of signed transactions

The weight a fee is computed for is that of the transaction itself as long as the fee is the one computed. Without a change output
the fee is all that is left of the inputs, whose encoding may be longer than that of the fee computed.
-/

namespace MoneroOxide

namespace SignableTransaction

variable {Γ : Ctx} {t t' : SignableTransaction Γ}

/-! ## The length which is chosen -/

section

variable {feeRate : FeeRate} {baseWeight k : ℕ}

/-- The fee for a length which is too short is longer than it, so that the one for the next length is as long as that. -/
theorem ChosenLength.varintLen_eq (h : ChosenLength feeRate baseWeight k) :
    VarInt.varintLen (saturated (feeRate.calculateFeeFromWeight (baseWeight + k))) = k := by
  refine le_antisymm h.fits ?_
  rcases Nat.eq_or_lt_of_le h.one_le with hk | hk
  · rw [← hk]
    exact VarInt.one_le_varintLen _
  · have hshorter := h.least (k - 1) (by omega) (by omega)
    have hmono := calculateFeeFromWeight_mono feeRate (show baseWeight + (k - 1) ≤ baseWeight + k by omega)
    have hlen : VarInt.varintLen (saturated (feeRate.calculateFeeFromWeight (baseWeight + (k - 1)))) ≤
        VarInt.varintLen (saturated (feeRate.calculateFeeFromWeight (baseWeight + k))) := by
      refine VarInt.varintLen_mono ?_
      rw [saturated_eq, saturated_eq]
      omega
    omega

/-- A transaction not twice as heavy does not have more than twice the fee. -/
theorem calculateFeeFromWeight_add (feeRate : FeeRate) {weight more : ℕ} (h : more ≤ weight) :
    feeRate.calculateFeeFromWeight (weight + more) ≤ 2 * feeRate.calculateFeeFromWeight weight := by
  have hmask : 0 < feeRate.mask.toNat := by
    rw [Nat.pos_iff_ne_zero]
    intro hzero
    exact feeRate.valid (.inr (UInt64.toNat_inj.1 hzero))
  have hmore : feeRate.perWeight.toNat * more ≤ feeRate.perWeight.toNat * weight := Nat.mul_le_mul_left _ h
  simp only [FeeRate.calculateFeeFromWeight, Nat.mul_add]
  rw [← Nat.mul_assoc]
  refine Nat.mul_le_mul_right _ ?_
  set fee := feeRate.perWeight.toNat * weight
  set quotient := (fee + feeRate.mask.toNat - 1) / feeRate.mask.toNat
  -- Rounding up does not lower the fee
  have hround : fee + feeRate.mask.toNat - 1 < feeRate.mask.toNat * (quotient + 1) := Nat.lt_mul_div_succ _ hmask
  refine Nat.le_of_lt_succ (Nat.div_lt_of_lt_mul ?_)
  have hdouble : feeRate.mask.toNat * (2 * quotient + 1) = 2 * (feeRate.mask.toNat * quotient) + feeRate.mask.toNat := by ring
  rw [Nat.mul_add, Nat.mul_one] at hround
  rw [Nat.succ_eq_add_one, hdouble]
  omega

end

/-- The fee is a `u64`, as it is not more than the inputs. -/
theorem Valid.necessary_lt (hv : t.Valid) : t.necessary.2 < 2 ^ 64 := by
  have hlt := hv.inAmount_lt
  have hfunds := hv.funds
  omega

/-- The fee and the weight of a transaction which is signed. -/
theorem fee_weight_of_signsTo {F : Frost Γ} (hF : F.Lawful) (hv : t.Valid) {tx : Transaction NotPruned} (h : SignsTo F t tx) :
    (∃ (txPrefix : TransactionPrefix) (proofs : RctProofs), tx = .V2 txPrefix (some proofs) ∧ proofs.base.fee = t.feeOf) ∧
      tx.weight = t.baseWeight + VarInt.varintLen t.feeOf.toNat := by
  obtain ⟨keyImages, masks, signatures, hsigned⟩ := h.signed hF hv
  refine ⟨?_, hsigned.weight_eq hv⟩
  obtain ⟨bp, -, rfl⟩ := hsigned.filled
  exact ⟨_, _, rfl, feeOf_reorders (reorders_withKeyImages hsigned.length_keyImages)⟩

/-- With a change output, the weight and the fee which are computed are those of the transaction. -/
theorem weight_and_fee_exact {F : Frost Γ} (hF : F.Lawful) (hreturned : Returned t) (hreorders : Reorders t t')
    (hchange : ∃ payment ∈ t.payments, payment.isChange = true) :
    ∃ (shim : Transaction NotPruned) (weight fee feeLen : ℕ),
      t'.shim = .ok shim ∧ t'.weightAndNecessaryFee = .ok (weight, fee) ∧
      -- The length which was assumed is that of the fee
      weight = shim.weight - 1 + feeLen ∧ VarInt.varintLen fee = feeLen ∧
      ∀ tx, SignsTo F t' tx → tx.weight = weight ∧ fee = t'.feeRate.calculateFeeFromWeight tx.weight ∧
        ∃ (txPrefix : TransactionPrefix) (proofs : RctProofs), tx = .V2 txPrefix (some proofs) ∧ proofs.base.fee.toNat = fee := by
  have hv : t'.Valid := hreturned.valid.reorders hreorders
  have hlt := hv.necessary_lt
  obtain ⟨shim, hshim, hweight⟩ := shim_eq hv.supported hv.hasPayment hv.length_le
  obtain ⟨k, hchosen, hnecessary⟩ := hv.chosen
  have hfee : t'.feeOf.toNat = t'.necessary.2 := by
    have hany : t'.payments.any InternalPayment.isChange = true := by
      rw [hreorders.payments.any_eq]
      exact List.any_eq_true.2 hchange
    rw [feeOf, if_pos hany, UInt64.toNat_ofNat', Nat.mod_eq_of_lt hlt]
  have hlen : VarInt.varintLen t'.necessary.2 = k := by
    have hk := hchosen.varintLen_eq
    rw [hnecessary] at hlt ⊢
    rwa [saturated_eq, min_eq_left (by omega)] at hk
  refine ⟨shim, t'.necessary.1, t'.necessary.2, k, hshim, hv.weightAndNecessaryFee_eq, ?_, hlen, ?_⟩
  · rw [hweight, hnecessary, Nat.add_sub_cancel]
  · intro tx hsigns
    obtain ⟨⟨txPrefix, proofs, htx, hbase⟩, htxWeight⟩ := fee_weight_of_signsTo hF hv hsigns
    rw [hfee, hlen] at htxWeight
    refine ⟨?_, ?_, txPrefix, proofs, htx, ?_⟩
    · rw [htxWeight, hnecessary]
    · rw [htxWeight, hnecessary]
    · rw [hbase, hfee]

/-- The sample with a change output is as heavy as was computed. -/
theorem weight_and_fee_exact_sample :
    ∃ tx rng', (sample 2000 (.Change (.AddressOnly sampleAddress)) ⟨1, 1, by decide⟩).sign (Stream'.const (Bytes.replicate 64 0)) 1 =
        .ok (tx, rng') ∧
      ∃ weight fee, (sample 2000 (.Change (.AddressOnly sampleAddress)) ⟨1, 1, by decide⟩).weightAndNecessaryFee =
      .ok (weight, fee) ∧
        tx.weight = weight := by
  have hv : (sample 2000 (.Change (.AddressOnly sampleAddress)) ⟨1, 1, by decide⟩).Valid :=
    valid_sample (.inr rfl) (j := 2) (by decide) (by decide) (by decide) (by decide)
  obtain ⟨tx, rng', hsign⟩ := exists_sign_sample hv (Stream'.const (Bytes.replicate 64 0))
  obtain ⟨shim, weight, fee, feeLen, -, hweight, -, -, hexact⟩ :=
    weight_and_fee_exact (lawful_soloFrost instanceCtx) (.new (new_sample_change hv)) (Reorders.refl _)
      ⟨_, List.mem_cons_of_mem _ List.mem_cons_self, rfl⟩
  exact ⟨tx, rng', hsign, weight, fee, hweight, (hexact tx (.sign hsign)).1⟩

/-! ## Without a change output -/

/-- What the payments leave of the inputs. -/
def surplus (t : SignableTransaction Γ) : ℕ := t.inAmount - t.paymentsAmount

/-- Where the fee for an encoding of `k` bytes fits in these but all that is left of the inputs does not, there is also enough left
for the byte it takes more. -/
def PaysForItsFee (t : SignableTransaction Γ) : Prop :=
  ∀ k, t.feeRate.calculateFeeFromWeight (t.baseWeight + k) < 2 ^ (7 * k) → 2 ^ (7 * k) ≤ t.surplus →
    t.feeRate.calculateFeeFromWeight (t.baseWeight + k + 1) ≤ t.surplus

theorem lt_varintLen {n k : ℕ} (h : 2 ^ (7 * k) ≤ n) : k < VarInt.varintLen n := by
  rcases Nat.eq_zero_or_pos k with rfl | hk
  · exact VarInt.one_le_varintLen n
  · by_contra hle
    have := (VarInt.varintLen_le_iff hk).1 (Nat.le_of_not_lt hle)
    omega

/-- An input alone is this heavy. -/
theorem Valid.ten_le_baseWeight (hv : t.Valid) : 10 ≤ t.baseWeight := by
  have hinputs : 0 < t.inputs.length := List.length_pos_iff.2 hv.inputs_ne_nil
  rw [baseWeight, Lengths.baseWeight]
  have : 96 ≤ (t.lengths 0).inputs * (32 * Lengths.ringLen (t.lengths 0).plus + 64 + 32) := by
    change 96 ≤ t.inputs.length * _
    calc 96 ≤ 1 * (32 * Lengths.ringLen (t.lengths 0).plus + 64 + 32) := by omega
      _ ≤ _ := Nat.mul_le_mul_right _ hinputs
  omega

/-- The surplus is enough for the weight it leads to if and only if it pays for the byte its encoding is longer by. Two bytes more
are paid for by an amount so much larger. -/
theorem Valid.paysForItsFee_iff (hv : t.Valid) :
    t.feeRate.calculateFeeFromWeight (t.baseWeight + VarInt.varintLen t.surplus) ≤ t.surplus ↔ t.PaysForItsFee := by
  constructor
  · intro hpays k _ hlong
    have hk := lt_varintLen hlong
    exact (calculateFeeFromWeight_mono t.feeRate (by omega)).trans hpays
  · intro hpays
    obtain ⟨k, hchosen, hnecessary⟩ := hv.chosen
    have hfunds : t.feeRate.calculateFeeFromWeight (t.baseWeight + k) ≤ t.surplus := by
      have := hv.funds
      rw [hnecessary] at this
      rw [surplus]
      omega
    have hlt : t.surplus < 2 ^ 64 := (Nat.sub_le _ _).trans_lt hv.inAmount_lt
    have hsaturated : saturated (t.feeRate.calculateFeeFromWeight (t.baseWeight + k)) =
        t.feeRate.calculateFeeFromWeight (t.baseWeight + k) := by
      rw [saturated_eq]
      omega
    have hlen := hchosen.varintLen_eq
    rw [hsaturated] at hlen
    have hfits : t.feeRate.calculateFeeFromWeight (t.baseWeight + k) < 2 ^ (7 * k) :=
      (VarInt.varintLen_le_iff hchosen.one_le).1 hlen.le
    have hle : k ≤ VarInt.varintLen t.surplus := hlen.symm.le.trans (VarInt.varintLen_mono hfunds)
    rcases Nat.eq_or_lt_of_le hle with heq | hlong
    · rwa [← heq]
    · have hpow : 2 ^ (7 * k) ≤ t.surplus := by
        by_contra hshort
        have := (VarInt.varintLen_le_iff hchosen.one_le).2 (Nat.lt_of_not_le hshort)
        omega
      rcases Nat.eq_or_lt_of_le hlong with hnext | hlonger
      · have := hpays k hfits hpow
        rwa [← hnext]
      · have hpow' : 2 ^ (7 * (k + 1)) ≤ t.surplus := by
          by_contra hshort
          have := (VarInt.varintLen_le_iff (by omega)).2 (Nat.lt_of_not_le hshort)
          omega
        have hten : VarInt.varintLen t.surplus ≤ 10 := (VarInt.varintLen_le_iff (by omega)).2 (hlt.trans (by decide))
        have hbase := hv.ten_le_baseWeight
        have hdouble := calculateFeeFromWeight_add t.feeRate (show VarInt.varintLen t.surplus - k ≤ t.baseWeight + k by omega)
        rw [show t.baseWeight + k + (VarInt.varintLen t.surplus - k) =
          t.baseWeight + VarInt.varintLen t.surplus by omega] at hdouble
        have hexp : 2 ^ (7 * (k + 1)) = 2 ^ (7 * k) * 128 := by rw [Nat.mul_add, pow_add, Nat.mul_one]; rfl
        omega

theorem Valid.feeOf_eq_surplus (hv : t.Valid) (hchange : ∀ payment ∈ t.payments, payment.isChange = false) :
    t.feeOf.toNat = t.surplus := by
  have hlt : t.surplus < 2 ^ 64 := (Nat.sub_le _ _).trans_lt hv.inAmount_lt
  have hany : t.payments.any InternalPayment.isChange ≠ true := by
    intro hany
    obtain ⟨payment, hin, hpayment⟩ := List.any_eq_true.1 hany
    exact Bool.false_ne_true ((hchange payment hin).symm.trans hpayment)
  rw [feeOf, if_neg hany, UInt64.toNat_ofNat']
  exact Nat.mod_eq_of_lt hlt

/-- Without a change output, the fee is enough for the weight if and only if the surplus pays for the length of its own encoding. -/
theorem fee_sufficient_iff {F : Frost Γ} (hF : F.Lawful) (hreturned : Returned t)
    (hchange : ∀ payment ∈ t.payments, payment.isChange = false) {tx : Transaction NotPruned} (hsigns : SignsTo F t tx) :
    ∃ (txPrefix : TransactionPrefix) (proofs : RctProofs), tx = .V2 txPrefix (some proofs) ∧
      (t.feeRate.calculateFeeFromWeight tx.weight ≤ proofs.base.fee.toNat ↔ t.PaysForItsFee) := by
  have hv := hreturned.valid
  obtain ⟨⟨txPrefix, proofs, htx, hbase⟩, hweight⟩ := fee_weight_of_signsTo hF hv hsigns
  refine ⟨txPrefix, proofs, htx, ?_⟩
  rw [hweight, hbase, hv.feeOf_eq_surplus hchange]
  exact hv.paysForItsFee_iff

/-- A sample without a change output. -/
theorem valid_sample_payment {amount : UInt64} {feeRate : FeeRate} {j : ℕ} (hj : 1 ≤ j) (hten : j ≤ 10)
    (hfits : feeRate.calculateFeeFromWeight (1502 + j) < 2 ^ (7 * j))
    (hfunds : 2 + feeRate.calculateFeeFromWeight (1502 + j) ≤ amount.toNat) :
    (sample amount (.Payment sampleAddress 1) feeRate).Valid ∧
      (sample amount (.Payment sampleAddress 1) feeRate).surplus = amount.toNat - 2 := by
  refine ⟨valid_sample (.inl rfl) hj hten hfits hfunds, ?_⟩
  have hin : (sample amount (.Payment sampleAddress 1) feeRate).inAmount = amount.toNat := Nat.add_zero _
  rw [surplus, hin]
  rfl

/-- What is left of a `u64` over a payment of `2`. -/
theorem paysForItsFee_sample {amount : UInt64} {feeRate : FeeRate}
    (hsurplus : (sample amount (.Payment sampleAddress 1) feeRate).surplus = amount.toNat - 2) :
    (sample amount (.Payment sampleAddress 1) feeRate).PaysForItsFee ↔
      ∀ k, feeRate.calculateFeeFromWeight (1502 + k) < 2 ^ (7 * k) → 2 ^ (7 * k) ≤ amount.toNat - 2 →
        feeRate.calculateFeeFromWeight (1502 + k + 1) ≤ amount.toNat - 2 := by
  have hbase : (sample amount (.Payment sampleAddress 1) feeRate).baseWeight = 1502 := baseWeight_sample (.inl rfl)
  have hrate : (sample amount (.Payment sampleAddress 1) feeRate).feeRate = feeRate := rfl
  rw [PaysForItsFee, hbase, hsurplus, hrate]

/-- Two thousand are enough for a transaction of about one and a half thousand bytes. -/
theorem fee_sufficient_sample :
    ∃ tx rng', (sample 2002 (.Payment sampleAddress 1) ⟨1, 1, by decide⟩).sign (Stream'.const (Bytes.replicate 64 0)) 1 =
    .ok (tx, rng') ∧
      ∃ (txPrefix : TransactionPrefix) (proofs : RctProofs), tx = .V2 txPrefix (some proofs) ∧
        tx.weight ≤ proofs.base.fee.toNat := by
  have hv := @valid_sample_payment 2002 ⟨1, 1, by decide⟩ 2 (by decide) (by decide) (by decide)
    (by decide)
  obtain ⟨tx, rng', hsign⟩ := exists_sign_sample hv.1 (Stream'.const (Bytes.replicate 64 0))
  obtain ⟨txPrefix, proofs, htx, hiff⟩ := fee_sufficient_iff (lawful_soloFrost instanceCtx)
    (.new (new_sample_payment hv.1)) (by decide) (.sign hsign)
  have hrate : ∀ weight, FeeRate.calculateFeeFromWeight ⟨1, 1, by decide⟩ weight = weight := by
    intro weight
    simp [FeeRate.calculateFeeFromWeight]
  have hpays := hiff.2 ((paysForItsFee_sample hv.2).2 fun k _ hlong => by
    have hk : k < 2 := by
      by_contra hk
      have hpow : 2 ^ 14 ≤ 2 ^ (7 * k) := Nat.pow_le_pow_right (by omega) (by omega)
      have hamount : (2002 : UInt64).toNat = 2002 := rfl
      omega
    rw [hrate]
    change 1502 + k + 1 ≤ 2000
    omega)
  refine ⟨tx, rng', hsign, txPrefix, proofs, htx, ?_⟩
  exact (hrate tx.weight).symm.le.trans hpays

/-- The whole surplus is `2 ^ 28`, a fee of five bytes, where that for four would have been enough. -/
theorem fee_insufficient_sample :
    ∃ (t : SignableTransaction instanceCtx) (tx : Transaction NotPruned) (rng' : Rng) (txPrefix : TransactionPrefix)
      (proofs : RctProofs),
      SignableTransaction.new .ClsagBulletproofPlus (Bytes.replicate 32 0) [sampleInput 268435458]
        [(sampleAddress, 1), (sampleAddress, 1)] none [] ⟨178200, 10000, by decide⟩ = .ok t ∧
      t.sign (Stream'.const (Bytes.replicate 64 0)) 1 = .ok (tx, rng') ∧ tx = .V2 txPrefix (some proofs) ∧
      proofs.base.fee.toNat < t.feeRate.calculateFeeFromWeight tx.weight := by
  have hv := @valid_sample_payment 268435458 ⟨178200, 10000, by decide⟩ 4 (by decide) (by decide)
    (by decide) (by decide)
  obtain ⟨tx, rng', hsign⟩ := exists_sign_sample hv.1 (Stream'.const (Bytes.replicate 64 0))
  obtain ⟨⟨txPrefix, proofs, htx, hbase⟩, hweight⟩ := fee_weight_of_signsTo (lawful_soloFrost instanceCtx) hv.1 (.sign hsign)
  refine ⟨_, tx, rng', txPrefix, proofs, new_sample_payment hv.1, hsign, htx, ?_⟩
  rw [hweight, hbase, hv.1.feeOf_eq_surplus (by decide)]
  refine lt_of_not_ge fun hpays => ?_
  have hmore := (paysForItsFee_sample hv.2).1 (hv.1.paysForItsFee_iff.1 hpays) 4 (by decide) (by decide)
  exact absurd hmore (by decide)

end SignableTransaction

end MoneroOxide
