import MoneroOxide.Lemmas.Extra
import MoneroOxide.Lemmas.Sign

/-!
# What is read of an extra

Whatever an extra is read from, writing it and reading that again only sorts its fields. The extra of a transaction that is sent is
sorted, so that all that was put in it is found in it.
-/

namespace MoneroOxide

namespace Extra

/-- An extra that was read has a padding at the end at most, and reading it again, from what is written of it, sorts its fields and
keeps the order of those of one kind. Writing that gives the same bytes, and the keys and the payment ID found are the same. -/
theorem normalisation_stable (Γ : Ctx) (s : List UInt8) :
    (∀ field ∈ (read s).dropLast, field.isPadding = false) ∧ ((read s).filter ExtraField.isPadding).length ≤ 1 ∧
      read (read s).write = (read s).mergeSort (fun a b => a.sortOrder ≤ b.sortOrder) ∧
      (read (read s).write).write = (read s).write ∧
      (read (read s).write).keys Γ = (read s).keys Γ ∧ (read (read s).write).paymentId = (read s).paymentId := by
  have hwf := wellFormed_read s
  have hread := hwf.read_write
  refine ⟨hwf.padding_last, ?_, hread, ?_, ?_, ?_⟩
  · rcases hwf.filter_isPadding with hnil | ⟨size, hsize⟩
    · rw [hnil]
      exact Nat.zero_le 1
    · rw [hsize]
      exact Nat.le_refl 1
  · rw [hread, write_eq, write_eq, sorted_sorted]
  · rw [hread, keys_sorted]
  · rw [hread, paymentId_sorted]

end Extra

namespace SignableTransaction

variable {Γ : Ctx} {t : SignableTransaction Γ}

/-! ## The extra of what is sent -/

theorem Valid.nonces_le (h : t.Valid) : ∀ nonce ∈ t.nonces, nonce.length ≤ MAX_TX_EXTRA_NONCE_SIZE := by
  intro nonce hnonce
  rcases List.mem_append.1 hnonce with hid | hdata
  · obtain ⟨id, hfield, rfl⟩ := List.mem_map.1 hid
    obtain ⟨bytes, rfl⟩ := encrypted_of_paymentIdField (Option.mem_toList.1 hfield)
    simp [PaymentId.write, MAX_TX_EXTRA_NONCE_SIZE]
  · obtain ⟨part, hpart, rfl⟩ := List.mem_map.1 hdata
    have hle := h.data_le part hpart
    rw [MAX_ARBITRARY_DATA_SIZE, MAX_TX_EXTRA_NONCE_SIZE] at hle
    rw [List.length_cons, MAX_TX_EXTRA_NONCE_SIZE]
    omega

theorem Valid.readable_extraFields (h : t.Valid) : ∀ field ∈ t.extraFields, field.Readable ∧ field.isPadding = false := by
  have hkeys : t.additionalKeysPub.length < 2 ^ 64 := by
    have hle := h.length_le
    rw [length_additionalKeysPub]
    split
    · exact lt_of_le_of_lt hle (by decide)
    · decide
  intro field hfield
  rcases List.mem_append.1 hfield with hnew | hnonce
  · rw [Extra.new] at hnew
    rcases List.mem_cons.1 hnew with rfl | hadditional
    · exact ⟨trivial, rfl⟩
    · split at hadditional
      · simp at hadditional
      · obtain rfl := List.mem_singleton.1 hadditional
        exact ⟨hkeys, rfl⟩
  · obtain ⟨nonce, hmem, rfl⟩ := List.mem_map.1 hnonce
    exact ⟨h.nonces_le nonce hmem, rfl⟩

/-- The fields are read back as they were pushed. -/
theorem Valid.read_extraFields (h : t.Valid) : Extra.read t.extraFields.write = t.extraFields := by
  have hread := Extra.read_flatMap (fun field hfield => (h.readable_extraFields field hfield).1)
    (fun field hfield => (h.readable_extraFields field hfield).2) []
  rw [write_extraFields]
  simpa [Extra.read_nil] using hread

/-- The points of the additional keys. -/
def additionalPoints (t : SignableTransaction Γ) : List Γ.Point :=
  (t.transactionKeys.2.zip t.payments).map fun pair =>
    pair.1 • if pair.2.address.isSubaddress then pair.2.address.spend else Γ.G

theorem map_compress_additionalPoints (t : SignableTransaction Γ) : t.additionalPoints.map Γ.compress = t.additionalKeysPub := by
  rw [additionalPoints, additionalKeysPub, List.map_map]
  refine List.map_congr_left fun pair _ => ?_
  rw [Function.comp_apply, additionalKeyPub]
  split <;> rfl

theorem keys_extraFields (t : SignableTransaction Γ) :
    t.extraFields.keys Γ = some ([t.txKeyPub], if t.additionalPoints.isEmpty then none else some t.additionalPoints) := by
  have hnonces : ∀ {β : Type} (f : ExtraField → Option β), (∀ data, f (.Nonce data) = none) →
      (t.nonces.map ExtraField.Nonce).filterMap f = [] := by
    intro β f hf
    rw [List.filterMap_map]
    exact List.filterMap_eq_nil_iff.2 fun data _ => hf data
  have hpoints : (t.additionalKeysPub.map fun key => (CompressedPoint.decompress Γ key).getD 0) = t.additionalPoints := by
    rw [← map_compress_additionalPoints, List.map_map]
    refine (List.map_congr_left fun P _ => ?_).trans (List.map_id _)
    rw [Function.comp_apply, CompressedPoint.decompress_compress, Option.getD_some, id]
  have hempty : t.additionalKeysPub.isEmpty = t.additionalPoints.isEmpty := by
    rw [← map_compress_additionalPoints, List.isEmpty_map]
  rw [Extra.keys, Extra.keysAndAdditional_eq, extraFields, List.filterMap_append, List.filterMap_append,
    hnonces (Extra.keyOf Γ) fun _ => rfl, hnonces (Extra.additionalKeysOf Γ) fun _ => rfl, Extra.new, hempty]
  cases t.additionalPoints.isEmpty with
  | true => simp [Extra.keyOf, Extra.additionalKeysOf, CompressedPoint.decompress_compress]
  | false => simp [Extra.keyOf, Extra.additionalKeysOf, CompressedPoint.decompress_compress, List.findSome?, hpoints]

theorem nonceOf_extraFields (t : SignableTransaction Γ) : t.extraFields.filterMap Extra.nonceOf = t.nonces := by
  have hnew : (Extra.new (Γ.compress t.txKeyPub) t.additionalKeysPub).filterMap Extra.nonceOf = [] := by
    rw [Extra.new]
    split <;> rfl
  have hnonces : (t.nonces.map ExtraField.Nonce).filterMap Extra.nonceOf = t.nonces := by
    rw [List.filterMap_map]
    exact List.filterMap_some
  rw [extraFields, List.filterMap_append, hnew, hnonces, List.nil_append]

/-- The first nonce is that of the payment ID, if there is one, and arbitrary data is not taken for one. -/
theorem paymentId_extraFields (t : SignableTransaction Γ) : t.extraFields.paymentId = t.paymentIdField := by
  rw [Extra.paymentId_eq, nonceOf_extraFields, nonces]
  cases hfield : t.paymentIdField with
  | some id =>
    have hread : PaymentId.read id.write = .ok id [] := by
      have := PaymentId.reads_read.read_back (a := id) trivial []
      rwa [List.append_nil] at this
    simp [hread]
  | none =>
    cases t.data with
    | nil => rfl
    | cons part parts => rfl

end SignableTransaction

end MoneroOxide
