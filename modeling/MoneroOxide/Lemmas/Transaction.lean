import MoneroOxide.Transaction

/-!
# How long a transaction is

The weight of a transaction with CLSAGs depends on lengths only, those of `Lengths`. A transaction whose rings, range proof and
output types are those of its kind, `HasLengths`, has the weight `Lengths.weight` of them.
-/

namespace MoneroOxide

namespace VarInt

theorem log2_div_128 {n : ℕ} (h : 128 ≤ n) : n.log2 = (n / 128).log2 + 7 := by
  have hn : n ≠ 0 := by omega
  have hd : n / 128 ≠ 0 := by omega
  refine le_antisymm ?_ ?_
  · have hlt : n / 128 < 2 ^ ((n / 128).log2 + 1) := (Nat.log2_lt hd).1 (Nat.lt_succ_self _)
    refine Nat.lt_succ_iff.1 ((Nat.log2_lt hn).2 ?_)
    rw [show ((n / 128).log2 + 7).succ = (n / 128).log2 + 1 + 7 by omega, pow_add]
    omega
  · have hle : 2 ^ (n / 128).log2 ≤ n / 128 := (Nat.le_log2 hd).1 le_rfl
    refine (Nat.le_log2 hn).2 ?_
    rw [pow_add]
    omega

/-- `varint_len` is the amount of bytes written. -/
theorem length_write (n : ℕ) : (write n).length = varintLen n := by
  induction n using Nat.strongRecOn with
  | ind n ih =>
    by_cases h : n < 128
    · rw [write_of_lt h, List.length_singleton, varintLen]
      by_cases h0 : n = 0
      · simp [h0]
      · have hlog : n.log2 < 7 := (Nat.log2_lt h0).2 h
        simp only [h0, if_false]
        omega
    · have hlog := log2_div_128 (n := n) (by omega)
      rw [write_of_le (by omega), List.length_cons, ih (n / 128) (by omega), varintLen, varintLen, if_neg (by omega),
        if_neg (by omega)]
      omega

/-- The numbers which are written in at most `k` bytes. -/
theorem varintLen_le_iff {n k : ℕ} (hk : 1 ≤ k) : varintLen n ≤ k ↔ n < 2 ^ (7 * k) := by
  by_cases h0 : n = 0
  · simp [varintLen, h0, hk]
  · rw [← Nat.log2_lt h0, varintLen, if_neg h0]
    omega

theorem one_le_varintLen (n : ℕ) : 1 ≤ varintLen n := le_max_right _ _

theorem varintLen_mono {m n : ℕ} (h : m ≤ n) : varintLen m ≤ varintLen n :=
  (varintLen_le_iff (one_le_varintLen n)).2 (lt_of_le_of_lt h ((varintLen_le_iff (one_le_varintLen n)).1 le_rfl))

theorem varintLen_of_lt {n : ℕ} (h : n < 128) : varintLen n = 1 :=
  le_antisymm ((varintLen_le_iff le_rfl).2 h) (one_le_varintLen n)

end VarInt

/-! ## The lengths of what is written -/

theorem length_writeRawVec {α : Type} (w : α → List UInt8) (as : List α) :
    (writeRawVec w as).length = (as.map fun a => (w a).length).sum := by
  simp [writeRawVec, List.length_flatMap]

/-- Elements of one length. -/
theorem length_writeRawVec_const {α : Type} {w : α → List UInt8} {k : ℕ} {as : List α} (h : ∀ a ∈ as, (w a).length = k) :
    (writeRawVec w as).length = as.length * k := by
  rw [length_writeRawVec, List.map_congr_left h, List.map_const', List.sum_replicate, smul_eq_mul]

@[simp]
theorem CompressedPoint.length_write (P : CompressedPoint) : P.write.length = 32 := P.length_toList

@[simp]
theorem Scalar.length_write (s : Scalar) : s.write.length = 32 := s.toBytes.length_toList

theorem length_writeVec {α : Type} (w : α → List UInt8) (as : List α) :
    (writeVec w as).length = VarInt.varintLen as.length + (as.map fun a => (w a).length).sum := by
  rw [writeVec, List.length_append, VarInt.length_write, length_writeRawVec]

/-- The length of an input which spends an output, by its offsets. -/
def Input.size (keyOffsets : List UInt64) : ℕ :=
  34 + VarInt.varintLen keyOffsets.length + (keyOffsets.map fun offset => VarInt.varintLen offset.toNat).sum

theorem Input.length_write (keyOffsets : List UInt64) (keyImage : CompressedPoint) :
    (Input.write (.ToKey none keyOffsets keyImage)).length = Input.size keyOffsets := by
  simp only [Input.write, List.length_append, VarInt.length_write, length_writeVec, CompressedPoint.length_write, Input.size,
    List.length_singleton]
  rw [show VarInt.varintLen ((none : Option UInt64).getD 0).toNat = 1 from VarInt.varintLen_of_lt (by decide)]
  omega

/-- The length of an output with or without a view tag. -/
def Output.size (viewTag : Bool) : ℕ := if viewTag then 35 else 34

theorem Output.length_write {output : Output} (h : output.amount = none) :
    output.write.length = Output.size output.viewTag.isSome := by
  have hzero : VarInt.varintLen ((none : Option UInt64).getD 0).toNat = 1 := VarInt.varintLen_of_lt (by decide)
  rw [Output.write, h]
  simp only [List.length_append, VarInt.length_write, hzero, List.length_singleton, Bytes.length_toList, Output.size]
  cases output.viewTag <;> rfl

theorem Clsag.length_write (clsag : Clsag) : clsag.write.length = 32 * clsag.s.length + 64 := by
  simp only [Clsag.write, List.length_append, length_writeRawVec_const fun s _ => Scalar.length_write s, Scalar.length_write,
    CompressedPoint.length_write]
  omega

/-- The length of a range proof, by that of `L` and `R`. -/
def Bulletproof.size (plus : Bool) (lrLen : ℕ) : ℕ := bpFields plus * 32 + 2 * (VarInt.varintLen lrLen + lrLen * 32)

theorem Bulletproof.length_write {bp : Bulletproof} {lrLen : ℕ} (hL : bp.LR.1.length = lrLen) (hR : bp.LR.2.length = lrLen) :
    bp.write.length = Bulletproof.size (!bp.isOriginal) lrLen := by
  have hpoints : ∀ Ps : List CompressedPoint, (writeVec CompressedPoint.write Ps).length =
      VarInt.varintLen Ps.length + Ps.length * 32 := by
    intro Ps
    rw [writeVec, List.length_append, VarInt.length_write, length_writeRawVec_const fun P _ => CompressedPoint.length_write P]
  cases bp with
  | original bp =>
    simp only [LR] at hL hR
    simp only [write, writeCore, List.length_append, hpoints, CompressedPoint.length_write, Scalar.length_write, hL, hR, size,
      isOriginal, bpFields, Bool.not_true, Bool.false_eq_true, if_false]
    omega
  | plus bp =>
    simp only [LR] at hL hR
    simp only [write, writeCore, List.length_append, hpoints, CompressedPoint.length_write, Scalar.length_write, hL, hR, size,
      isOriginal, bpFields, Bool.not_false, if_true]
    omega

/-! ## The weight of a transaction with CLSAGs -/

/-- The lengths the weight of a transaction with CLSAGs depends on. -/
structure Lengths where
  plus : Bool
  inputs : ℕ
  inputsSize : ℕ
  outputs : ℕ
  extra : ℕ
  fee : ℕ

namespace Lengths

/-- The length of the rings of the two types of proofs with CLSAGs. -/
def ringLen (plus : Bool) : ℕ := if plus then 16 else 11

/-- The length of `L` and `R` of the range proof of this many outputs. -/
def lrLen (outputs : ℕ) : ℕ := 6 + Bulletproof.padLoop outputs 0

/-- The weight of everything but the fee. -/
def baseWeight (l : Lengths) : ℕ :=
  -- The version, the timelock, the type of the proofs and the amount of range proofs
  4 + (VarInt.varintLen l.inputs + l.inputsSize) + (VarInt.varintLen l.outputs + l.outputs * Output.size l.plus) +
    (VarInt.varintLen l.extra + l.extra) + l.outputs * (8 + 32) + Bulletproof.size l.plus (lrLen l.outputs) +
    l.inputs * (32 * ringLen l.plus + 64 + 32) + (Bulletproof.calculateClawback l.plus l.outputs).1

/-- The weight of a transaction of these lengths. -/
def weight (l : Lengths) : ℕ := l.baseWeight + l.fee

end Lengths

/-- A transaction with CLSAGs has these lengths, and rings and a range proof as they should be. -/
structure HasLengths (l : Lengths) (txPrefix : TransactionPrefix) (base : RctBase) (clsags : List Clsag)
    (pseudoOuts : List CompressedPoint) (bulletproof : Bulletproof) : Prop where
  timelock : txPrefix.additionalTimelock = .None
  inputs : txPrefix.inputs.length = l.inputs
  inputsSize : (txPrefix.inputs.map fun input => input.write.length).sum = l.inputsSize
  outputs : txPrefix.outputs.length = l.outputs
  output : ∀ output ∈ txPrefix.outputs, output.amount = none ∧ output.viewTag.isSome = l.plus
  extra : txPrefix.extra.length = l.extra
  fee : VarInt.varintLen base.fee.toNat = l.fee
  encryptedAmounts : base.encryptedAmounts.length = l.outputs
  compact : ∀ amount ∈ base.encryptedAmounts, amount.isCompact = true
  commitments : base.commitments.length = l.outputs
  responses : ∀ clsag ∈ clsags, clsag.s.length = Lengths.ringLen l.plus
  clsags : clsags.length = l.inputs
  pseudoOuts : pseudoOuts.length = l.inputs
  kind : bulletproof.isOriginal = !l.plus
  L : bulletproof.LR.1.length = Lengths.lrLen l.outputs
  R : bulletproof.LR.2.length = Lengths.lrLen l.outputs

namespace HasLengths

variable {l : Lengths} {txPrefix : TransactionPrefix} {base : RctBase} {clsags : List Clsag} {pseudoOuts : List CompressedPoint}
  {bulletproof : Bulletproof}

theorem length_prefix (h : HasLengths l txPrefix base clsags pseudoOuts bulletproof) :
    txPrefix.write.length = 1 + (VarInt.varintLen l.inputs + l.inputsSize) +
      (VarInt.varintLen l.outputs + l.outputs * Output.size l.plus) + (VarInt.varintLen l.extra + l.extra) := by
  have houtputs : (txPrefix.outputs.map fun output => output.write.length).sum = l.outputs * Output.size l.plus := by
    rw [← length_writeRawVec, length_writeRawVec_const fun output hout => ?_, h.outputs]
    obtain ⟨hamount, htag⟩ := h.output output hout
    rw [Output.length_write hamount, htag]
  have htimelock : (Timelock.write .None).length = 1 := by
    rw [Timelock.write, VarInt.length_write]
    rfl
  simp only [TransactionPrefix.write, List.length_append, length_writeVec, h.inputs, h.inputsSize, h.outputs, houtputs, h.timelock,
    htimelock, VarInt.length_write, h.extra]
  omega

theorem rctType_eq (h : HasLengths l txPrefix base clsags pseudoOuts bulletproof) :
    RctProofs.rctType { base, prunable := .Clsag clsags pseudoOuts bulletproof } =
      if l.plus then .ClsagBulletproofPlus else .ClsagBulletproof := by
  simp only [RctProofs.rctType, h.kind]
  cases l.plus <;> rfl

theorem length_base (h : HasLengths l txPrefix base clsags pseudoOuts bulletproof) {rctType : RctType}
    (htype : rctType ≠ .MlsagBorromean) : (base.write rctType).length = 1 + l.fee + l.outputs * (8 + 32) := by
  have hamounts : (writeRawVec EncryptedAmount.write base.encryptedAmounts).length = l.outputs * 8 := by
    rw [length_writeRawVec_const (fun amount hamount => ?_), h.encryptedAmounts]
    have hcompact := h.compact amount hamount
    cases amount with
    | original mask amount => exact absurd hcompact Bool.false_ne_true
    | compact amount => exact amount.length_toList
  have hcommitments : (writeRawVec CompressedPoint.write base.commitments).length = l.outputs * 32 := by
    rw [length_writeRawVec_const fun P _ => CompressedPoint.length_write P, h.commitments]
  rw [RctBase.write, if_neg htype]
  simp only [List.length_append, List.length_singleton, VarInt.length_write, h.fee, hamounts, hcommitments, List.length_nil]
  omega

theorem length_prunable (h : HasLengths l txPrefix base clsags pseudoOuts bulletproof) (rctType : RctType) :
    ((RctPrunable.Clsag clsags pseudoOuts bulletproof).write rctType).length =
      1 + Bulletproof.size l.plus (Lengths.lrLen l.outputs) + l.inputs * (32 * Lengths.ringLen l.plus + 64 + 32) := by
  have hclsags : (writeRawVec Clsag.write clsags).length = l.inputs * (32 * Lengths.ringLen l.plus + 64) := by
    rw [length_writeRawVec_const fun clsag hin => ?_, h.clsags]
    rw [Clsag.length_write, h.responses clsag hin]
  have hpseudoOuts : (writeRawVec CompressedPoint.write pseudoOuts).length = l.inputs * 32 := by
    rw [length_writeRawVec_const fun P _ => CompressedPoint.length_write P, h.pseudoOuts]
  have hbp : bulletproof.write.length = Bulletproof.size l.plus (Lengths.lrLen l.outputs) := by
    rw [Bulletproof.length_write h.L h.R, h.kind, Bool.not_not]
  simp only [RctPrunable.write, List.length_append, List.length_singleton, hclsags, hpseudoOuts, hbp, Nat.mul_add]
  omega

/-- The weight of a transaction is that of its lengths. -/
theorem weight_eq (h : HasLengths l txPrefix base clsags pseudoOuts bulletproof) :
    (Transaction.V2 txPrefix (some { base, prunable := .Clsag clsags pseudoOuts bulletproof : RctProofs }) :
      Transaction NotPruned).weight = l.weight := by
  set proofs : RctProofs := { base, prunable := .Clsag clsags pseudoOuts bulletproof }
  have htype : proofs.rctType = if l.plus then .ClsagBulletproofPlus else .ClsagBulletproof := h.rctType_eq
  have hne : proofs.rctType ≠ .MlsagBorromean := by
    rw [htype]
    cases l.plus <;> decide
  have hblob : (Transaction.V2 txPrefix (some proofs) : Transaction NotPruned).write.length =
      1 + (txPrefix.write.length + ((base.write proofs.rctType).length + (proofs.prunable.write proofs.rctType).length)) := by
    rw [Transaction.write_V2]
    simp only [List.length_append, VarInt.length_write]
    rw [VarInt.varintLen_of_lt (by decide)]
    congr 2
    exact List.length_append
  have hbulletproof : (Transaction.V2 txPrefix (some proofs) : Transaction NotPruned).isRctBulletproof = !l.plus := by
    change proofs.rctType.bulletproof = _
    rw [htype]
    cases l.plus <;> rfl
  have hplus : (Transaction.V2 txPrefix (some proofs) : Transaction NotPruned).isRctBulletproofPlus = l.plus := by
    change proofs.rctType.bulletproofPlus = _
    rw [htype]
    cases l.plus <;> rfl
  have hweight : (Transaction.V2 txPrefix (some proofs) : Transaction NotPruned).weight =
      (Transaction.V2 txPrefix (some proofs) : Transaction NotPruned).write.length +
        (Bulletproof.calculateClawback l.plus txPrefix.outputs.length).1 := by
    rw [Transaction.weight, hbulletproof, hplus]
    cases l.plus <;> rfl
  rw [hweight, hblob, h.length_prefix, h.length_base hne, h.length_prunable, h.outputs, Lengths.weight, Lengths.baseWeight]
  omega

end HasLengths

end MoneroOxide
