import MoneroOxide.Eventuality
import MoneroOxide.Lemmas.Address
import MoneroOxide.Lemmas.Send
import MoneroOxide.Lemmas.WalletOutput

/-!
# The encoding of transactions to be signed

Each part is read from what was written of it. The bounds on lengths a reader has are met by what was checked when the transaction
was made: its weight bounds the inputs, and the length of its extra bounds the data.
-/

namespace MoneroOxide

variable {Γ : Ctx}

/-! ## Outputs with decoys -/

theorem Decoys.new_eq_some {offsets : List UInt64} {signerIndex : UInt8} {ring : List (Γ.Point × Γ.Point)} {decoys : Decoys Γ} :
    Decoys.new offsets signerIndex ring = some decoys ↔
      decoys.offsets = offsets ∧ decoys.signerIndex = signerIndex ∧ decoys.ring = ring := by
  rw [Decoys.new]
  constructor
  · intro h
    split at h
    case isTrue hcheck =>
      obtain rfl := Option.some.inj h
      exact ⟨rfl, rfl, rfl⟩
    case isFalse => cases h
  · rintro ⟨rfl, rfl, rfl⟩
    exact dif_pos decoys.valid

theorem Decoys.reads_read : Reader.Reads (Decoys.read Γ) (fun _ => True) Decoys.write := by
  intro s decoys rest
  have hpair : Reader.Reads (do
      let key ← readPoint Γ "Decoys had invalid key in ring"
      let commitment ← readPoint Γ "Decoys had invalid commitment in ring"
      pure (key, commitment)) (fun _ => True) fun pair => (Γ.compress pair.1).write ++ (Γ.compress pair.2).write := by
    intro s pair rest
    obtain ⟨key, commitment⟩ := pair
    simp [(reads_readPoint _).iff]
  have hring := fun len => reads_readRawVec hpair len
  have hoffsets := reads_readVec VarInt.reads_readU64 (some MAX_RING_SIZE.toNat)
  have hlen : decoys.offsets.length ≤ 255 ∧ decoys.ring.length = decoys.offsets.length := by
    obtain ⟨hmax, -, hlen, -⟩ := Decoys.check_iff.1 decoys.valid
    omega
  simp only [Decoys.read, Reader.bind_ok, hoffsets.iff, readByte_ok, (hring _).iff, true_and]
  constructor
  · rintro ⟨offsets, _, ⟨-, rfl⟩, signerIndex, _, rfl, ring, _, ⟨-, rfl⟩, h⟩
    cases hnew : Decoys.new offsets signerIndex ring with
    | none =>
      rw [hnew] at h
      cases h
    | some decoys' =>
      rw [hnew] at h
      obtain ⟨rfl, rfl⟩ := Reader.pure_ok.1 h
      obtain ⟨rfl, rfl, rfl⟩ := Decoys.new_eq_some.1 hnew
      simp [Decoys.write]
  · rintro rfl
    refine ⟨decoys.offsets, _, ⟨⟨⟨?_, ?_⟩, by simp⟩, ?_⟩, decoys.signerIndex, _, rfl, decoys.ring, rest,
      ⟨⟨hlen.2, by simp⟩, rfl⟩, ?_⟩
    · omega
    · rintro b hb
      obtain rfl := Option.some.inj hb
      exact hlen.1
    · simp [Decoys.write]
    · rw [Decoys.new_eq_some.2 ⟨rfl, rfl, rfl⟩]
      rfl

theorem OutputWithDecoys.reads_read : Reader.Reads (OutputWithDecoys.read Γ) (fun _ => True) OutputWithDecoys.write := by
  intro s input rest
  obtain ⟨output, decoys⟩ := input
  simp [OutputWithDecoys.read, OutputWithDecoys.write, OutputData.reads_read.iff, Decoys.reads_read.iff]

theorem FeeRate.reads_read : Reader.Reads FeeRate.read (fun _ => True) FeeRate.write := by
  intro s feeRate rest
  simp only [FeeRate.read, Reader.bind_ok, reads_readU64.iff, true_and]
  constructor
  · rintro ⟨perWeight, _, rfl, mask, _, rfl, h⟩
    by_cases hzero : perWeight = 0 ∨ mask = 0
    · rw [FeeRate.new, dif_pos hzero] at h
      cases h
    · rw [FeeRate.new, dif_neg hzero] at h
      obtain ⟨rfl, rfl⟩ := Reader.pure_ok.1 h
      simp [FeeRate.write]
  · rintro rfl
    refine ⟨feeRate.perWeight, _, by rw [FeeRate.write, List.append_assoc], feeRate.mask, rest, rfl, ?_⟩
    rw [FeeRate.new, dif_neg feeRate.valid]
    rfl

/-! ## Payments -/

theorem nodup_MONERO_BYTES : MONERO_BYTES.all.Nodup := by decide +kernel

/-- All chunks but the last are whole. -/
theorem Base58.Chunked.length_mul_lt {α : Type} {n : ℕ} (hn : 0 < n) {cs : List (List α)} (h : Chunked n cs) :
    cs.length * n < cs.flatten.length + n := by
  induction cs with
  | nil => simpa using hn
  | cons c cs ih =>
    have htail := ih h.tail
    rw [List.length_cons, List.flatten_cons, List.length_append, Nat.add_mul, Nat.one_mul]
    cases cs with
    | nil =>
      have := h.1
      rw [List.length_nil, List.flatten_nil, List.length_nil]
      omega
    | cons d ds =>
      have := h.1
      omega

/-- The length of an encoding, as if its last chunk was a whole one. -/
theorem Base58.length_encode_le (bytes : List UInt8) :
    (encode bytes).length ≤ (bytes.length + 7) / 8 * 11 := by
  have hchunked := chunked_chunks (n := BLOCK_LEN) (by decide) bytes
  have hlen := hchunked.length_mul_lt (by decide)
  rw [flatten_chunks] at hlen
  have hle : ∀ chunk ∈ chunks BLOCK_LEN bytes, (encodeChunk chunk).length ≤ 11 := by
    intro chunk hin
    have hchunk := (hchunked.length_of_mem (by decide) hin).2
    exact (length_encodeChunk hchunk).le.trans (encodedLenForBytes_le hchunk)
  have hsum : (encode bytes).length ≤ (chunks BLOCK_LEN bytes).length * 11 := by
    rw [encode, List.length_flatMap]
    have := List.sum_le_card_nsmul ((chunks BLOCK_LEN bytes).map fun chunk => (encodeChunk chunk).length) 11 (by
      intro n hn
      obtain ⟨chunk, hin, rfl⟩ := List.mem_map.1 hn
      exact hle chunk hin)
    rwa [List.length_map, smul_eq_mul] at this
  have hcount : (chunks BLOCK_LEN bytes).length ≤ (bytes.length + 7) / 8 := by
    change (chunks BLOCK_LEN bytes).length * 8 < bytes.length + 8 at hlen
    omega
  omega

theorem Address.length_toString_le (bytes : NetworkedAddressBytes) (address : Address Γ) :
    (address.toString bytes).length ≤ Address.SIZE_UPPER_BOUND := by
  have hsuffix : (Address.suffix address.kind).length ≤ 9 := by
    have hfeatures : ∀ subaddress integrated guaranteed,
        (VarInt.write (Address.featuresUint subaddress integrated guaranteed)).length = 1 := by
      intro subaddress integrated guaranteed
      rw [VarInt.write_of_lt (by cases subaddress <;> cases integrated <;> cases guaranteed <;> decide)]
      rfl
    rcases address.kind with _ | id | _ | ⟨subaddress, _ | id, guaranteed⟩
    · exact Nat.zero_le _
    · change id.toList.length ≤ 9
      rw [Bytes.length_toList]
      omega
    · exact Nat.zero_le _
    · rw [Address.suffix, List.length_append, hfeatures]
      exact Nat.le_add_right 1 8
    · rw [Address.suffix, List.length_append, hfeatures]
      change 1 + id.toList.length ≤ 9
      rw [Bytes.length_toList]
  have hraw : (address.raw bytes).length ≤ 74 := by
    rw [Address.raw, List.length_cons, List.length_append, List.length_append, Bytes.length_toList, Bytes.length_toList]
    omega
  have hencode := Base58.length_encode_le (address.raw bytes ++ (Γ.keccak256 (address.raw bytes)).toList.take Base58.CHECKSUM_LEN)
  rw [List.length_append, List.length_take, Bytes.length_toList] at hencode
  rw [Address.toString_eq, Base58.encodeCheck]
  have hbound : Address.SIZE_UPPER_BOUND = 154 := by decide
  have hchecksum : min Base58.CHECKSUM_LEN 32 = 4 := rfl
  omega

theorem reads_readAddress : Reader.Reads (SignableTransaction.readAddress Γ) (fun _ => True) SignableTransaction.writeAddress := by
  intro s address rest
  have hbytes := reads_readVec reads_readByte (some Address.SIZE_UPPER_BOUND)
  have hlen := address.length_toString_le MONERO_BYTES
  simp only [SignableTransaction.readAddress, Reader.bind_ok, hbytes.iff, true_and]
  constructor
  · rintro ⟨text, _, ⟨-, rfl⟩, h⟩
    cases haddress : Address.fromStrWithUncheckedNetwork Γ MONERO_BYTES text with
    | error e =>
      rw [haddress] at h
      cases h
    | ok address' =>
      rw [haddress] at h
      obtain ⟨rfl, rfl⟩ := Reader.pure_ok.1 h
      rw [← (Address.fromStrWithUncheckedNetwork_eq_ok nodup_MONERO_BYTES).1 haddress]
      rfl
  · rintro rfl
    refine ⟨address.toString MONERO_BYTES, rest, ⟨⟨⟨?_, ?_⟩, by simp⟩, rfl⟩, ?_⟩
    · have hbound : Address.SIZE_UPPER_BOUND = 154 := by decide
      omega
    · rintro b hb
      obtain rfl := Option.some.inj hb
      exact hlen
    · rw [(Address.fromStrWithUncheckedNetwork_eq_ok nodup_MONERO_BYTES).2 rfl]
      rfl

theorem reads_readViewPair (message : String) : Reader.Reads (SignableTransaction.readViewPair Γ message) (fun _ => True)
    fun pair => (Γ.compress pair.spend).write ++ pair.view.write := by
  intro s pair rest
  simp only [SignableTransaction.readViewPair, Reader.bind_ok, (reads_readPoint _).iff, Scalar.read_ok, true_and]
  constructor
  · rintro ⟨spend, _, rfl, view, _, rfl, h⟩
    by_cases htorsion : Γ.TorsionFree spend
    · rw [ViewPair.new, dif_pos htorsion] at h
      obtain ⟨rfl, rfl⟩ := Reader.pure_ok.1 h
      simp
    · rw [ViewPair.new, dif_neg htorsion] at h
      cases h
  · rintro rfl
    refine ⟨pair.spend, _, by rw [List.append_assoc], pair.view, rest, rfl, ?_⟩
    rw [ViewPair.new, dif_pos pair.torsionFree]
    rfl

/-- The primary address is that of zeros, which is no subaddress. -/
theorem reads_readSubaddress :
    Reader.Reads SignableTransaction.readSubaddress (fun _ => True) SignableTransaction.writeSubaddress := by
  intro s subaddress rest
  simp only [SignableTransaction.readSubaddress, Reader.bind_ok, reads_readU32.iff, Reader.pure_ok, true_and]
  constructor
  · rintro ⟨account, _, rfl, address, _, rfl, rfl, rfl⟩
    by_cases hzero : account = 0 ∧ address = 0
    · rw [SubaddressIndex.new, dif_pos hzero, hzero.1, hzero.2]
      simp [SignableTransaction.writeSubaddress]
    · rw [SubaddressIndex.new, dif_neg hzero]
      simp [SignableTransaction.writeSubaddress]
  · rintro rfl
    cases subaddress with
    | none => exact ⟨0, _, by rw [SignableTransaction.writeSubaddress, List.append_assoc], 0, rest, rfl, rfl, rfl⟩
    | some index =>
      refine ⟨index.account, _, by rw [SignableTransaction.writeSubaddress, List.append_assoc], index.address, rest, rfl, ?_, rfl⟩
      rw [SubaddressIndex.new, dif_neg index.valid]

theorem reads_readPayment : Reader.Reads (SignableTransaction.readPayment Γ) (fun _ => True) SignableTransaction.writePayment := by
  intro s payment rest
  simp only [SignableTransaction.readPayment, Reader.bind_ok, readByte_ok, Reader.ite_ok, reads_readAddress.iff, reads_readU64.iff,
    (reads_readViewPair _).iff, reads_readSubaddress.iff, Reader.pure_ok, Reader.throw_ok, true_and]
  constructor
  · rintro ⟨kind, _, rfl, h⟩
    rcases h with ⟨rfl, address, _, rfl, amount, _, rfl, rfl, rfl⟩ | ⟨-, h⟩
    · simp [SignableTransaction.writePayment]
    rcases h with ⟨rfl, address, _, rfl, rfl, rfl⟩ | ⟨-, h⟩
    · simp [SignableTransaction.writePayment]
    rcases h with ⟨rfl, pair, _, rfl, subaddress, _, rfl, rfl, rfl⟩ | ⟨-, h⟩
    · simp [SignableTransaction.writePayment]
    rcases h with ⟨rfl, pair, _, rfl, subaddress, _, rfl, rfl, rfl⟩ | ⟨-, h⟩
    · simp [SignableTransaction.writePayment]
    · exact h.elim
  · rintro rfl
    cases payment with
    | Payment address amount =>
      exact ⟨0, _, rfl, .inl ⟨rfl, address, _, List.append_assoc _ _ _, amount, rest, rfl, rfl, rfl⟩⟩
    | Change change =>
      cases change with
      | AddressOnly address => exact ⟨1, _, rfl, .inr ⟨by decide, .inl ⟨rfl, address, rest, rfl, rfl, rfl⟩⟩⟩
      | Standard pair subaddress =>
        exact ⟨2, _, rfl, .inr ⟨by decide, .inr ⟨by decide, .inl ⟨rfl, pair, _, by simp, subaddress, rest, rfl, rfl, rfl⟩⟩⟩⟩
      | Guaranteed pair subaddress =>
        exact ⟨3, _, rfl, .inr ⟨by decide, .inr ⟨by decide, .inr ⟨by decide, .inl ⟨rfl, pair.pair, _, by simp, subaddress, rest,
          rfl, rfl, rfl⟩⟩⟩⟩⟩

namespace SignableTransaction

/-! ## The transaction -/

/-- The lengths which a reader accepts. -/
structure Bounded (t : SignableTransaction Γ) : Prop where
  inputs : t.inputs.length ≤ TransactionPrefix.INPUTS_UPPER_BOUND
  payments : t.payments.length ≤ Bulletproof.MAX_COMMITMENTS
  data : t.data.length ≤ MAX_EXTRA_SIZE_BY_RELAY_RULE
  part : ∀ part ∈ t.data, part.length ≤ MAX_ARBITRARY_DATA_SIZE

theorem lengthOk_iff {bound n : ℕ} (h : bound < 2 ^ 64) : lengthOk (some bound) n ↔ n ≤ bound := by
  constructor
  · intro hok
    exact hok.2 bound rfl
  · intro hle
    refine ⟨by omega, fun b hb => ?_⟩
    obtain rfl := Option.some.inj hb
    exact hle

theorem write_append (t : SignableTransaction Γ) (rest : List UInt8) :
    t.write ++ rest = t.rctType.toU8 :: (t.outgoingViewKey.toList ++
    (writeVec OutputWithDecoys.write t.inputs ++ (writeVec writePayment t.payments ++
      (writeVec (writeVec fun byte => [byte]) t.data ++ (t.feeRate.write ++ rest))))) := by
  rw [write]
  simp only [List.append_assoc]
  rfl

theorem reads_readFields : Reader.Reads (readFields Γ) Bounded write := by
  have hinputs := reads_readVec (OutputWithDecoys.reads_read (Γ := Γ)) (some TransactionPrefix.INPUTS_UPPER_BOUND)
  have hpayments := reads_readVec (reads_readPayment (Γ := Γ)) (some Bulletproof.MAX_COMMITMENTS)
  have hdata := reads_readVec (reads_readVec reads_readByte (some MAX_ARBITRARY_DATA_SIZE)) (some MAX_EXTRA_SIZE_BY_RELAY_RULE)
  intro s t rest
  have hrest : ∀ (rctType : RctType) (u : List UInt8), (do
      let outgoingViewKey ← readBytes 32
      let inputs ← readVec (OutputWithDecoys.read Γ) (some TransactionPrefix.INPUTS_UPPER_BOUND)
      let payments ← readVec (readPayment Γ) (some Bulletproof.MAX_COMMITMENTS)
      let data ← readVec (readVec readByte (some MAX_ARBITRARY_DATA_SIZE)) (some MAX_EXTRA_SIZE_BY_RELAY_RULE)
      let feeRate ← FeeRate.read
      pure { rctType, outgoingViewKey, inputs, payments, data, feeRate } : Read (SignableTransaction Γ)) u = .ok t rest ↔
        t.rctType = rctType ∧ t.Bounded ∧ t.rctType.toU8 :: u = t.write ++ rest := by
    intro rctType u
    simp only [Reader.bind_ok, readBytes_ok, hinputs.iff, hpayments.iff, hdata.iff, FeeRate.reads_read.iff,
      Reader.pure_ok, true_and, lengthOk_iff (show TransactionPrefix.INPUTS_UPPER_BOUND < 2 ^ 64 by decide),
      lengthOk_iff (show Bulletproof.MAX_COMMITMENTS < 2 ^ 64 by decide),
      lengthOk_iff (show MAX_EXTRA_SIZE_BY_RELAY_RULE < 2 ^ 64 by decide),
      lengthOk_iff (show MAX_ARBITRARY_DATA_SIZE < 2 ^ 64 by decide)]
    constructor
    · rintro ⟨outgoingViewKey, _, rfl, inputs, _, ⟨⟨hlenInputs, -⟩, rfl⟩, payments, _, ⟨⟨hlenPayments, -⟩, rfl⟩, data, _,
        ⟨⟨hlenData, hparts⟩, rfl⟩, feeRate, _, rfl, rfl, rfl⟩
      refine ⟨rfl, ⟨hlenInputs, hlenPayments, hlenData, fun part hin => (hparts part hin).1⟩, ?_⟩
      rw [write_append]
    · rintro ⟨rfl, hbounded, hwritten⟩
      obtain rfl := List.tail_eq_of_cons_eq (hwritten.trans (write_append t rest))
      exact ⟨t.outgoingViewKey, _, rfl, t.inputs, _, ⟨⟨hbounded.inputs, by simp⟩, rfl⟩, t.payments, _,
        ⟨⟨hbounded.payments, by simp⟩, rfl⟩, t.data, _, ⟨⟨hbounded.data, fun part hin => ⟨hbounded.part part hin, by simp⟩⟩, rfl⟩,
        t.feeRate, rest, rfl, rfl, rfl⟩
  simp only [readFields, Reader.bind_ok, readByte_ok]
  constructor
  · rintro ⟨byte, u, rfl, h⟩
    cases hbyte : RctType.ofU8 byte with
    | none =>
      rw [hbyte] at h
      cases h
    | some rctType =>
      rw [hbyte] at h
      obtain ⟨rfl, hbounded, hwritten⟩ := (hrest rctType u).1 h
      rw [RctType.ofU8_eq_some.1 hbyte]
      exact ⟨hbounded, hwritten⟩
  · rintro ⟨hbounded, rfl⟩
    refine ⟨t.rctType.toU8, _, rfl, ?_⟩
    rw [RctType.ofU8_eq_some.2 rfl]
    exact (hrest t.rctType _).2 ⟨rfl, hbounded, rfl⟩

/-- What was checked bounds the lengths. -/
theorem Valid.bounded {t : SignableTransaction Γ} (hv : t.Valid) : t.Bounded where
  inputs := by
    obtain ⟨k, -, hnecessary⟩ := hv.chosen
    have hweight := hv.weight_lt
    rw [hnecessary] at hweight
    have hbase : t.inputs.length * 96 ≤ t.baseWeight := by
      have hinputs : t.inputs.length * 96 ≤ t.inputs.length * (32 * Lengths.ringLen t.plus + 64 + 32) :=
        Nat.mul_le_mul_left _ (by omega)
      rw [baseWeight, Lengths.baseWeight]
      exact hinputs.trans ((Nat.le_add_left _ _).trans (Nat.le_add_right _ _))
    have hmax : MAX_TX_SIZE = 149400 := rfl
    have hbound : TransactionPrefix.INPUTS_UPPER_BOUND = 28571 := by decide
    change t.baseWeight + k < MAX_TX_SIZE at hweight
    omega
  payments := hv.length_le
  data := by
    have hextra := hv.extra_le
    have hparts : t.data.length ≤ (t.data.map fun part => nonceSize (part.length + 1)).sum := by
      have hle := List.length_le_sum_of_one_le (t.data.map fun part => nonceSize (part.length + 1)) (by
        intro size hsize
        obtain ⟨part, -, rfl⟩ := List.mem_map.1 hsize
        exact Nat.le_add_right 1 _)
      rwa [List.length_map] at hle
    rw [extraLength] at hextra
    omega
  part := hv.data_le

/-- A transaction which passes its checks is read back. -/
theorem Valid.read_write {t : SignableTransaction Γ} (hv : t.Valid) (rest : List UInt8) :
    read Γ (t.write ++ rest) = .ok (t, rest) := by
  rw [read, reads_readFields.read_back hv.bounded rest]
  dsimp only
  rw [validate_eq_ok.2 hv]

end SignableTransaction

end MoneroOxide
