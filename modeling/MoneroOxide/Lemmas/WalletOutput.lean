import MoneroOxide.Lemmas.Extra
import MoneroOxide.WalletOutput

/-!
# The encoding of outputs

The parts of an output are read from what is written of them. The payment ID is not: what is no payment ID is read as well.
-/

namespace MoneroOxide

variable {Γ : Ctx}

theorem reads_readPoint (message : String) :
    Reader.Reads (readPoint Γ message) (fun _ => True) fun point => (Γ.compress point).write := by
  intro s point rest
  simp only [readPoint, Reader.bind_ok, CompressedPoint.read_ok, true_and]
  constructor
  · rintro ⟨compressed, t, rfl, h⟩
    cases hpoint : CompressedPoint.decompress Γ compressed with
    | none =>
      rw [hpoint] at h
      cases h
    | some point' =>
      rw [hpoint] at h
      obtain ⟨rfl, rfl⟩ := Reader.pure_ok.1 h
      rw [CompressedPoint.decompress_eq_some.1 hpoint]
  · rintro rfl
    refine ⟨_, rest, rfl, ?_⟩
    rw [CompressedPoint.decompress_compress]
    rfl

theorem Commitment.reads_read : Reader.Reads Commitment.read (fun _ => True) Commitment.write := by
  intro s c rest
  obtain ⟨mask, amount⟩ := c
  simp [Commitment.read, Commitment.write, reads_readU64.iff]

theorem OutputData.reads_read : Reader.Reads (OutputData.read Γ) (fun _ => True) OutputData.write := by
  intro s data rest
  obtain ⟨key, keyOffset, commitment⟩ := data
  simp [OutputData.read, OutputData.write, (reads_readPoint _).iff, Commitment.reads_read.iff, CompressedPoint.write]

theorem AbsoluteId.reads_read : Reader.Reads AbsoluteId.read (fun _ => True) AbsoluteId.write := by
  intro s id rest
  obtain ⟨transaction, indexInTransaction⟩ := id
  simp [AbsoluteId.read, AbsoluteId.write, reads_readU64.iff]

theorem RelativeId.reads_read : Reader.Reads RelativeId.read (fun _ => True) RelativeId.write := by
  intro s id rest
  obtain ⟨indexOnBlockchain⟩ := id
  simp [RelativeId.read, RelativeId.write, reads_readU64.iff]

namespace Metadata

theorem reads_readSubaddress : Reader.Reads readSubaddress (fun _ => True) writeSubaddress := by
  intro s subaddress rest
  simp only [readSubaddress, Reader.bind_ok, readByte_ok, Reader.ite_ok, Reader.pure_ok, reads_readU32.iff,
    Reader.throw_ok, true_and]
  constructor
  · rintro ⟨isSome, _, rfl, ⟨rfl, rfl, rfl⟩ | ⟨-, ⟨rfl, account, _, rfl, address, _, rfl, h⟩ | ⟨-, h⟩⟩⟩
    · rfl
    · by_cases hzero : account = 0 ∧ address = 0
      · rw [SubaddressIndex.new, dif_pos hzero] at h
        cases h
      · rw [SubaddressIndex.new, dif_neg hzero] at h
        obtain ⟨rfl, rfl⟩ := Reader.pure_ok.1 h
        simp [writeSubaddress]
    · contradiction
  · rintro rfl
    cases subaddress with
    | none => exact ⟨0, rest, rfl, Or.inl ⟨rfl, rfl, rfl⟩⟩
    | some index =>
      refine ⟨1, _, rfl, Or.inr ⟨by decide, Or.inl ⟨rfl, index.account, _, rfl, index.address, rest, rfl, ?_⟩⟩⟩
      rw [SubaddressIndex.new, dif_neg index.valid]
      rfl

/-- The chunks that can be read after others. -/
def ChunksOk (totalLen : ℕ) (data : List (List UInt8)) : Prop :=
  (∀ part ∈ data, part.length < 2 ^ 8) ∧ (data = [] ∨ totalLen + (data.map List.length).sum ≤ MAX_EXTRA_SIZE_BY_RELAY_RULE)

/-- The pieces of arbitrary data, each after its length. -/
def writeParts (data : List (List UInt8)) : List UInt8 := data.flatMap fun part => UInt8.ofNat part.length :: part

theorem reads_readChunks (chunks totalLen : ℕ) :
    Reader.Reads (readChunks chunks totalLen) (fun data => data.length = chunks ∧ ChunksOk totalLen data) writeParts := by
  induction chunks generalizing totalLen with
  | zero =>
    intro s data rest
    simp only [readChunks, Reader.pure_ok, List.length_eq_zero_iff]
    constructor
    · rintro ⟨rfl, rfl⟩
      exact ⟨⟨rfl, by simp [ChunksOk]⟩, rfl⟩
    · rintro ⟨⟨rfl, -⟩, rfl⟩
      exact ⟨rfl, rfl⟩
  | succ chunks ih =>
    intro s data rest
    simp only [readChunks, Reader.bind_ok, readByte_ok, (reads_readRawBytes _).iff, Reader.ite_ok, Reader.throw_ok, and_false,
      false_or, (ih _).iff, Reader.pure_ok, id_eq, not_lt]
    constructor
    · rintro ⟨len, _, rfl, chunk, _, ⟨hlen, rfl⟩, hle, parts, _, ⟨⟨rfl, hparts, htotal⟩, rfl⟩, rfl, rfl⟩
      refine ⟨⟨rfl, List.forall_mem_cons.2 ⟨hlen ▸ len.toNat_lt, hparts⟩, Or.inr ?_⟩, ?_⟩
      · rcases htotal with rfl | htotal
        · simpa using hle
        · rw [List.map_cons, List.sum_cons]
          omega
      · simp [writeParts, hlen]
    · rintro ⟨⟨hlen, hparts, htotal⟩, rfl⟩
      obtain ⟨chunk, parts, rfl⟩ := List.exists_cons_of_length_eq_add_one hlen
      obtain ⟨hchunk, hparts⟩ := List.forall_mem_cons.1 hparts
      have htotal := htotal.resolve_left (by simp)
      rw [List.map_cons, List.sum_cons] at htotal
      refine ⟨UInt8.ofNat chunk.length, chunk ++ (writeParts parts ++ rest), by simp [writeParts], chunk, writeParts parts ++ rest,
        ⟨?_, rfl⟩, by omega, parts, rest, ⟨⟨by simpa using hlen, hparts, Or.inr (by omega)⟩, rfl⟩, rfl, rfl⟩
      rw [UInt8.toNat_ofNat', Nat.mod_eq_of_lt hchunk]

/-- The arbitrary data that can be read. -/
structure DataOk (data : List (List UInt8)) : Prop where
  chunks_le : data.length ≤ MAX_EXTRA_SIZE_BY_RELAY_RULE
  part_lt : ∀ part ∈ data, part.length < 2 ^ 8
  total_le : (data.map List.length).sum ≤ MAX_EXTRA_SIZE_BY_RELAY_RULE

theorem reads_readArbitraryData :
    Reader.Reads readArbitraryData DataOk fun data => VarInt.write data.length ++ writeParts data := by
  intro s data rest
  simp only [readArbitraryData, Reader.bind_ok, VarInt.reads_readU64.iff, Reader.ite_ok, Reader.throw_ok, and_false, false_or,
    (reads_readChunks _ _).iff, not_lt, true_and]
  constructor
  · rintro ⟨chunks, _, rfl, hle, ⟨hlen, hparts, htotal⟩, rfl⟩
    refine ⟨⟨hlen ▸ hle, hparts, ?_⟩, by rw [hlen, List.append_assoc]⟩
    rcases htotal with rfl | htotal
    · exact Nat.zero_le _
    · rwa [Nat.zero_add] at htotal
  · rintro ⟨⟨hle, hparts, htotal⟩, rfl⟩
    have hlt : data.length < 2 ^ 64 := lt_of_le_of_lt hle (by decide)
    have hchunks : (UInt64.ofNat data.length).toNat = data.length := UInt64.toNat_ofNat_of_lt' hlt
    refine ⟨UInt64.ofNat data.length, writeParts data ++ rest, by rw [hchunks, List.append_assoc], by rwa [hchunks],
      ⟨hchunks.symm, hparts, Or.inr (by rwa [Nat.zero_add])⟩, rfl⟩

/-- Each piece of arbitrary data is in a nonce, which is longer when written. -/
theorem sum_dataOf_le (extra : Extra) :
    (((extra.filterMap Extra.nonceOf).filterMap Extra.dataOf).map fun part => part.length + 1).sum ≤
      (extra.map fun field => field.write.length).sum := by
  induction extra with
  | nil => rfl
  | cons field extra ih =>
    rw [List.map_cons, List.sum_cons]
    cases field with
    | Nonce nonce =>
      have hnonce : nonce.length < (ExtraField.Nonce nonce).write.length := by
        rw [ExtraField.write, writeVec, List.length_append, List.length_append, writeRawVec]
        have hbytes : (nonce.flatMap ExtraField.writeByte).length = nonce.length := by simp [ExtraField.writeByte]
        rw [hbytes, List.length_singleton]
        omega
      change (((nonce :: extra.filterMap Extra.nonceOf).filterMap Extra.dataOf).map fun part => part.length + 1).sum ≤ _
      cases hdata : Extra.dataOf nonce with
      | none =>
        rw [List.filterMap_cons_none hdata]
        omega
      | some part =>
        have hpart : part.length ≤ nonce.length := by
          unfold Extra.dataOf at hdata
          split at hdata
          · rw [← Option.some.inj hdata, List.length_tail]
            omega
          · cases hdata
        rw [List.filterMap_cons_some hdata, List.map_cons, List.sum_cons]
        omega
    | Padding | PublicKey | MergeMining | PublicKeys | MysteriousMinergate => exact Nat.le_trans ih (Nat.le_add_left _ _)

/-- The arbitrary data of any extra can be read: what it is taken from is not longer than what is relayed. -/
theorem dataOk_arbitraryData (extra : Extra) : DataOk extra.arbitraryData := by
  have htotal : ((extra.arbitraryData).map fun part => part.length + 1).sum ≤ MAX_EXTRA_SIZE_BY_RELAY_RULE := by
    rw [Extra.arbitraryData_eq]
    refine (sum_dataOf_le _).trans ((Extra.length_read_le _).trans ?_)
    exact List.length_take_le _ _
  rw [List.sum_map_add, List.map_const', List.sum_replicate, smul_eq_mul, Nat.mul_one] at htotal
  refine ⟨by omega, ?_, by omega⟩
  intro part hpart
  rw [Extra.arbitraryData_eq] at hpart
  obtain ⟨nonce, hnonce, hdata⟩ := List.mem_filterMap.1 hpart
  obtain ⟨field, hfield, hof⟩ := List.mem_filterMap.1 hnonce
  have hreadable := (Extra.wellFormed_read _).readable field hfield
  cases field with
  | Nonce nonce' =>
    obtain rfl := Option.some.inj hof
    have hle : nonce'.length ≤ MAX_TX_EXTRA_NONCE_SIZE := hreadable
    rw [MAX_TX_EXTRA_NONCE_SIZE] at hle
    unfold Extra.dataOf at hdata
    split at hdata
    · rw [← Option.some.inj hdata, List.length_tail]
      omega
    · cases hdata
  | Padding | PublicKey | MergeMining | PublicKeys | MysteriousMinergate => cases hof

/-- Arbitrary data the parts of which have lengths that are a `u8` is written. -/
theorem mapM_writePart {data : List (List UInt8)} (h : ∀ part ∈ data, part.length < 2 ^ 8) :
    data.mapM writePart = some (data.map fun part => UInt8.ofNat part.length :: part) := by
  induction data with
  | nil => rfl
  | cons part data ih =>
    obtain ⟨hpart, hdata⟩ := List.forall_mem_cons.1 h
    rw [List.mapM_cons, writePart, if_pos hpart, ih hdata]
    rfl

/-- The start of the encoding of metadata, until the payment ID. -/
def writeStart (metadata : Metadata) : List UInt8 := metadata.additionalTimelock.write ++ writeSubaddress metadata.subaddress

/-- The end of the encoding of metadata, from the arbitrary data on. -/
def writeEnd (metadata : Metadata) : List UInt8 :=
  VarInt.write metadata.arbitraryData.length ++ writeParts metadata.arbitraryData

theorem write_eq {metadata : Metadata} (h : ∀ part ∈ metadata.arbitraryData, part.length < 2 ^ 8) :
    metadata.write = some (metadata.writeStart ++ (writePaymentId metadata.paymentId ++ metadata.writeEnd)) := by
  simp [write, mapM_writePart h, writeStart, writeEnd, writeParts, List.flatMap_def]

/-- A section for a payment ID as it is written: without one, or with one that can be read. -/
def PaymentIdSection (s : List UInt8) : Prop := ∃ paymentId rest, s = writePaymentId paymentId ++ rest

theorem readPaymentId_write (paymentId : Option PaymentId) (rest : List UInt8) :
    readPaymentId (writePaymentId paymentId ++ rest) = .ok paymentId rest := by
  cases paymentId with
  | none => rfl
  | some paymentId =>
    have h := PaymentId.reads_read.read_back (a := paymentId) trivial rest
    change readOk PaymentId.read (paymentId.write ++ rest) = _
    rw [readOk, h]

/-- A payment ID is what would be written of it exactly if the section for it is one. Otherwise there is none, and a zero would be
written where there was none. -/
theorem readPaymentId_ok {s rest : List UInt8} {paymentId : Option PaymentId} (h : readPaymentId s = .ok paymentId rest) :
    s = writePaymentId paymentId ++ rest ↔ PaymentIdSection s := by
  constructor
  · intro hs
    exact ⟨paymentId, rest, hs⟩
  · rintro ⟨paymentId', rest', rfl⟩
    rw [readPaymentId_write] at h
    cases h
    rfl

end Metadata

namespace WalletOutput

/-- The start of the encoding of an output, until the payment ID. -/
def writeStart (output : WalletOutput Γ) : List UInt8 :=
  output.absoluteId.write ++ (output.relativeId.write ++ (output.data.write ++ output.metadata.writeStart))

/-- The outputs whose encoding is read back. -/
structure Persists (output : WalletOutput Γ) : Prop where
  additionalTimelock : output.metadata.additionalTimelock.Readable
  arbitraryData : Metadata.DataOk output.metadata.arbitraryData

theorem serialize_eq {output : WalletOutput Γ} (h : Metadata.DataOk output.metadata.arbitraryData) :
    output.serialize =
      some (output.writeStart ++ (Metadata.writePaymentId output.metadata.paymentId ++ output.metadata.writeEnd)) := by
  simp [serialize, Metadata.write_eq h.part_lt, writeStart]

/-- Reading an output: all of it is what would be written, but for the section of the payment ID. -/
theorem read_ok {s rest : List UInt8} {output : WalletOutput Γ} :
    read Γ s = .ok output rest ↔ output.Persists ∧ ∃ section', s = output.writeStart ++ section' ∧
      Metadata.readPaymentId section' = .ok output.metadata.paymentId (output.metadata.writeEnd ++ rest) := by
  obtain ⟨absoluteId, relativeId, data, additionalTimelock, subaddress, paymentId, arbitraryData⟩ := output
  simp only [read, Metadata.read, Reader.bind_ok, AbsoluteId.reads_read.iff, RelativeId.reads_read.iff, OutputData.reads_read.iff,
    Timelock.reads_read.iff, Metadata.reads_readSubaddress.iff, Metadata.reads_readArbitraryData.iff, Reader.pure_ok, true_and]
  constructor
  · rintro ⟨_, _, rfl, _, _, rfl, _, _, rfl, _, _, ⟨_, _, ⟨htimelock, rfl⟩, _, _, rfl, _, _, hpaymentId, _, _,
      ⟨hdata, rfl⟩, rfl, rfl⟩,
      heq, rfl⟩
    cases heq
    exact ⟨⟨htimelock, hdata⟩, _, by simp only [writeStart, Metadata.writeStart, List.append_assoc], hpaymentId⟩
  · rintro ⟨⟨htimelock, hdata⟩, section', rfl, hpaymentId⟩
    refine ⟨absoluteId, _, by simp only [writeStart, Metadata.writeStart, List.append_assoc], relativeId, _, rfl, data, _, rfl, _,
      rest, ⟨additionalTimelock, _, ⟨htimelock, rfl⟩, subaddress, _, rfl, paymentId, _, hpaymentId, arbitraryData,
        rest, ⟨hdata, rfl⟩,
      rfl, rfl⟩, rfl, rfl⟩

end WalletOutput

end MoneroOxide
