import MoneroOxide.Extra
import MoneroOxide.Lemmas.Transaction
import MoneroOxide.Lib.Sorting

/-!
# Reading an extra

The fields which were read can be written and read again, whatever comes after them. Only a padding cannot, which has to be at the
end and was there. So an extra that was read is read back from what is written of it, in the order it is written in.
-/

namespace MoneroOxide

theorem reads_readRawBytes (len : ℕ) : Reader.Reads (readRawVec readByte len) (fun part => part.length = len) id :=
  (reads_readRawVec reads_readByte len).congr (by simp) (by simp [writeRawVec])

theorem PaymentId.reads_read : Reader.Reads PaymentId.read (fun _ => True) PaymentId.write := by
  intro s id rest
  simp only [PaymentId.read, Reader.bind_ok, readByte_ok, Reader.ite_ok, Reader.map_ok, readBytes_ok, Reader.throw_ok, true_and]
  constructor
  · rintro ⟨kind, _, rfl, ⟨rfl, bytes, rfl, rfl⟩ | ⟨-, ⟨rfl, bytes, rfl, rfl⟩ | ⟨-, h⟩⟩⟩
    · rfl
    · rfl
    · contradiction
  · rintro rfl
    cases id with
    | Unencrypted bytes => exact ⟨0, _, rfl, Or.inl ⟨rfl, bytes, rfl, rfl⟩⟩
    | Encrypted bytes => exact ⟨1, _, rfl, Or.inr ⟨by decide, Or.inl ⟨rfl, bytes, rfl, rfl⟩⟩⟩

namespace ExtraField

/-- A padding. -/
def isPadding : ExtraField → Bool
  | Padding _ => true
  | _ => false

/-- The fields that can be read. -/
def Readable : ExtraField → Prop
  | Nonce data => data.length ≤ MAX_TX_EXTRA_NONCE_SIZE
  | PublicKeys keys => keys.length < 2 ^ 64
  | MysteriousMinergate data => data.length < 2 ^ 64
  | Padding _ | PublicKey _ | MergeMining .. => True

theorem reads_readData (bound : Option ℕ) :
    Reader.Reads (readVec readByte bound) (fun data => lengthOk bound data.length) (writeVec writeByte) :=
  (reads_readVec reads_readByte bound).congr (by simp) (fun _ _ => rfl)

theorem lengthOk_none {n : ℕ} : lengthOk none n ↔ n < 2 ^ 64 := by
  simp [lengthOk]

theorem readMergeMining_ok {s rest : List UInt8} {field : ExtraField} :
    readMergeMining s = .ok field rest ↔ ∃ (fieldLen depth : UInt64) (merkleRoot : Bytes 32) (skipped : List UInt8),
      field = MergeMining depth merkleRoot ∧ VarInt.varintLen depth.toNat + 32 + skipped.length = fieldLen.toNat ∧
        s = VarInt.write fieldLen.toNat ++ (VarInt.write depth.toNat ++ (merkleRoot.toList ++ (skipped ++ rest))) := by
  simp only [readMergeMining, Reader.bind_ok, VarInt.readU64_ok, readBytes_ok, Reader.ite_ok, Reader.throw_ok, and_false, false_or,
    (reads_readRawBytes _).iff, Reader.pure_ok, id_eq, not_lt]
  constructor
  · rintro ⟨fieldLen, _, rfl, depth, _, rfl, merkleRoot, _, rfl, hle, skipped, _, ⟨hskipped, rfl⟩, rfl, rfl⟩
    exact ⟨fieldLen, depth, merkleRoot, skipped, rfl, by omega, rfl⟩
  · rintro ⟨fieldLen, depth, merkleRoot, skipped, rfl, hlen, rfl⟩
    exact ⟨fieldLen, _, rfl, depth, _, rfl, merkleRoot, _, rfl, by omega, skipped, rest, ⟨by omega, rfl⟩, rfl, rfl⟩

/-- A padding is as long as what was left. -/
theorem readPadding_ok {size size' : UInt8} {s : List UInt8} (h : readPadding size s = .ok size') :
    size'.toNat = size.toNat + s.length := by
  induction s generalizing size with
  | nil =>
    cases h
    rfl
  | cons v s ih =>
    rw [readPadding] at h
    split at h
    · cases h
    · split at h
      · cases h
      · rename_i hmax
        have hlt := size.toNat_lt
        have hne : size.toNat ≠ 255 := fun heq => hmax (UInt8.toNat_inj.1 heq)
        rw [ih h, List.length_cons, UInt8.toNat_add, UInt8.toNat_one]
        omega

theorem readPadding_zeros {size : UInt8} {n : ℕ} (h : size.toNat + n < 2 ^ 8) :
    readPadding size (List.replicate n 0) = .ok (size + UInt8.ofNat n) := by
  induction n generalizing size with
  | zero => simp [readPadding]
  | succ n ih =>
    have hmax : size ≠ 255 := by
      rintro rfl
      rw [show (255 : UInt8).toNat = 255 from rfl] at h
      omega
    have hadd : (size + 1).toNat = size.toNat + 1 := by
      rw [UInt8.toNat_add, UInt8.toNat_one]
      omega
    rw [List.replicate_succ, readPadding, if_neg (by simp), if_neg hmax, ih (by omega), UInt8.add_assoc]
    congr 2
    rw [Nat.add_comm, UInt8.ofNat_add]
    rfl

/-- A padding is read back, with nothing after it. -/
theorem read_padding (size : { size : UInt8 // size ≠ 0 }) : read (Padding size).write = .ok (Padding size) [] := by
  obtain ⟨size, hsize⟩ := size
  have hpos : size.toNat ≠ 0 := fun heq => hsize (UInt8.toNat_inj.1 heq)
  have hlt := size.toNat_lt
  have hread : readPadding 1 (List.replicate (size.toNat - 1) 0) = .ok size := by
    rw [readPadding_zeros (by rw [UInt8.toNat_one]; omega)]
    congr 1
    refine UInt8.toNat_inj.1 ?_
    rw [UInt8.toNat_add, UInt8.toNat_one, UInt8.toNat_ofNat']
    omega
  change readPaddingField (List.replicate (size.toNat - 1) 0) = _
  rw [readPaddingField, hread]
  exact dif_pos hsize

/-- Any other field is read back, whatever comes after it. -/
theorem read_write {field : ExtraField} (h : field.Readable) (hpadding : field.isPadding = false) (rest : List UInt8) :
    read (field.write ++ rest) = .ok field rest := by
  cases field with
  | Padding size => contradiction
  | PublicKey key =>
    change (PublicKey <$> CompressedPoint.read) (key.write ++ rest) = _
    exact Reader.map_ok.2 ⟨key, CompressedPoint.reads_read.read_back trivial rest, rfl⟩
  | Nonce data =>
    change (Nonce <$> readVec readByte (some MAX_TX_EXTRA_NONCE_SIZE)) (writeVec writeByte data ++ rest) = _
    exact Reader.map_ok.2 ⟨data, (reads_readData _).read_back ((lengthOk_some (by decide)).2 h) rest, rfl⟩
  | MergeMining depth merkleRoot =>
    change readMergeMining (VarInt.write _ ++ VarInt.write depth.toNat ++ merkleRoot.toList ++ rest) = _
    have hle : VarInt.varintLen depth.toNat ≤ 10 :=
      (VarInt.varintLen_le_iff (by omega)).2 (lt_trans depth.toNat_lt (by decide))
    have hlen : (UInt64.ofNat (VarInt.varintLen depth.toNat + 32)).toNat = VarInt.varintLen depth.toNat + 32 :=
      UInt64.toNat_ofNat_of_lt' (by norm_num; omega)
    refine readMergeMining_ok.2 ⟨UInt64.ofNat (VarInt.varintLen depth.toNat + 32), depth, merkleRoot, [], rfl, ?_, ?_⟩
    · rw [hlen, List.length_nil]
    · rw [hlen, List.nil_append, List.append_assoc, List.append_assoc]
  | PublicKeys keys =>
    change (PublicKeys <$> readVec CompressedPoint.read none) (writeVec CompressedPoint.write keys ++ rest) = _
    exact Reader.map_ok.2 ⟨keys,
      (reads_readVec CompressedPoint.reads_read none).read_back ⟨lengthOk_none.2 h, fun _ _ => trivial⟩ rest, rfl⟩
  | MysteriousMinergate data =>
    change (MysteriousMinergate <$> readVec readByte none) (writeVec writeByte data ++ rest) = _
    exact Reader.map_ok.2 ⟨data, (reads_readData _).read_back (lengthOk_none.2 h) rest, rfl⟩

/-- How a field that was read relates to what it was read from. -/
theorem of_read {s rest : List UInt8} {field : ExtraField} (h : read s = .ok field rest) :
    field.Readable ∧ (field.isPadding = true → rest = []) ∧ field.write.length + rest.length ≤ s.length := by
  simp only [read, Reader.bind_ok, readByte_ok, Reader.ite_ok, Reader.map_ok, Reader.throw_ok, CompressedPoint.read_ok,
    (reads_readData _).iff, (reads_readVec CompressedPoint.reads_read _).iff, readMergeMining_ok] at h
  obtain ⟨kind, t, rfl, h⟩ := h
  rcases h with ⟨rfl, h⟩ | ⟨-, h⟩
  · unfold readPaddingField at h
    split at h
    · rename_i size hread
      split at h
      · cases h
        have hlen := readPadding_ok hread
        refine ⟨trivial, fun _ => rfl, ?_⟩
        simp only [write, List.length_append, List.length_replicate, List.length_cons, List.length_nil, hlen]
        rw [UInt8.toNat_one]
        omega
      · cases h
    · cases h
  rcases h with ⟨rfl, key, rfl, rfl⟩ | ⟨-, h⟩
  · exact ⟨trivial, by simp [isPadding], by simp [write, CompressedPoint.write]; omega⟩
  rcases h with ⟨rfl, data, ⟨hlen, rfl⟩, rfl⟩ | ⟨-, h⟩
  · exact ⟨(lengthOk_some (by decide)).1 hlen, by simp [isPadding], by simp [write]; omega⟩
  rcases h with ⟨rfl, fieldLen, depth, merkleRoot, skipped, rfl, hlen, rfl⟩ | ⟨-, h⟩
  · refine ⟨trivial, by simp [isPadding], ?_⟩
    have hmono := VarInt.varintLen_mono (show VarInt.varintLen depth.toNat + 32 ≤ fieldLen.toNat by omega)
    simp only [write, List.length_append, List.length_cons, List.length_nil, VarInt.length_write, Bytes.length_toList]
    omega
  rcases h with ⟨rfl, keys, ⟨⟨hlen, -⟩, rfl⟩, rfl⟩ | ⟨-, h⟩
  · exact ⟨lengthOk_none.1 hlen, by simp [isPadding], by simp [write]; omega⟩
  rcases h with ⟨rfl, data, ⟨hlen, rfl⟩, rfl⟩ | ⟨-, h⟩
  · exact ⟨lengthOk_none.1 hlen, by simp [isPadding], by simp [write]; omega⟩
  · contradiction

end ExtraField

namespace Extra

/-! ## The loop -/

/-- More iterations than there are bytes do not change what is read. -/
theorem readLoop_eq_read {iterations : ℕ} {s : List UInt8} (h : s.length ≤ iterations) : readLoop iterations s = read s := by
  induction iterations using Nat.strongRecOn generalizing s with
  | ind iterations ih =>
    cases s with
    | nil => cases iterations <;> rfl
    | cons byte s =>
      rw [List.length_cons] at h
      obtain ⟨iterations, rfl⟩ := Nat.exists_eq_add_of_le' (Nat.le_trans (Nat.le_add_left 1 _) h)
      rw [read, List.length_cons, readLoop, readLoop]
      cases hread : ExtraField.read (byte :: s) with
      | error e rest => rfl
      | ok field rest =>
        obtain ⟨-, -, hlen⟩ := ExtraField.of_read hread
        have hpos : 0 < field.write.length := by cases field <;> simp [ExtraField.write]
        rw [List.length_cons] at hlen
        have hleft := ih iterations (by omega) (s := rest) (by omega)
        have hright := ih s.length (by omega) (s := rest) (by omega)
        simp only [hleft, hright]

theorem read_nil : read [] = [] := rfl

theorem read_cons {s rest : List UInt8} {field : ExtraField} (h : ExtraField.read s = .ok field rest) :
    read s = field :: read rest := by
  cases s with
  | nil => cases h
  | cons byte s =>
    obtain ⟨-, -, hlen⟩ := ExtraField.of_read h
    have hpos : 0 < field.write.length := by cases field <;> simp [ExtraField.write]
    rw [List.length_cons] at hlen
    rw [read, List.length_cons, readLoop, h]
    simp only [List.isEmpty_cons, Bool.false_eq_true, if_false]
    rw [readLoop_eq_read (by omega)]

theorem read_of_error {s rest : List UInt8} {e : IoError} (h : ExtraField.read s = .error e rest) : read s = [] := by
  cases s with
  | nil => rfl
  | cons byte s =>
    rw [read, List.length_cons, readLoop, h]
    rfl

/-- What holds of the extras that were read: a padding is only at their end. -/
structure WellFormed (extra : Extra) : Prop where
  readable : ∀ field ∈ extra, field.Readable
  padding_last : ∀ field ∈ extra.dropLast, field.isPadding = false

/-- To show something of what is read, show it of nothing and of a field before what is read after it. -/
theorem read_induction {P : List UInt8 → Extra → Prop} (hnil : ∀ s, P s [])
    (hcons : ∀ s rest field, ExtraField.read s = .ok field rest → P rest (read rest) → P s (field :: read rest)) (s : List UInt8) :
    P s (read s) := by
  induction hn : s.length using Nat.strongRecOn generalizing s with
  | ind n ih =>
    cases hread : ExtraField.read s with
    | error e rest =>
      rw [read_of_error hread]
      exact hnil s
    | ok field rest =>
      obtain ⟨-, -, hlen⟩ := ExtraField.of_read hread
      have hpos : 0 < field.write.length := by cases field <;> simp [ExtraField.write]
      rw [read_cons hread]
      exact hcons s rest field hread (ih rest.length (by omega) rest rfl)

theorem wellFormed_read (s : List UInt8) : (read s).WellFormed := by
  refine read_induction (P := fun _ extra => extra.WellFormed) ?_ ?_ s
  · intro s
    exact ⟨by simp, by simp⟩
  · intro s rest field hread ih
    obtain ⟨hreadable, hpadding, -⟩ := ExtraField.of_read hread
    refine ⟨List.forall_mem_cons.2 ⟨hreadable, ih.readable⟩, ?_⟩
    cases hrest : read rest with
    | nil => simp
    | cons next fields =>
      rw [List.dropLast_cons_of_ne_nil (by simp), ← hrest]
      refine List.forall_mem_cons.2 ⟨?_, ih.padding_last⟩
      by_contra hne
      rw [hpadding (by simpa using hne), read_nil] at hrest
      contradiction

/-- What is written of the fields that were read is not longer than what they were read from. -/
theorem length_read_le (s : List UInt8) : ((read s).map fun field => field.write.length).sum ≤ s.length := by
  refine read_induction (P := fun s extra => (extra.map fun field => field.write.length).sum ≤ s.length) ?_ ?_ s
  · intro s
    exact Nat.zero_le _
  · intro s rest field hread ih
    obtain ⟨-, -, hlen⟩ := ExtraField.of_read hread
    rw [List.map_cons, List.sum_cons]
    omega

/-- Fields are read back, with what is read after them. -/
theorem read_flatMap {fields : Extra} (h : ∀ field ∈ fields, field.Readable) (hpadding : ∀ field ∈ fields, field.isPadding = false)
    (rest : List UInt8) : read (fields.flatMap ExtraField.write ++ rest) = fields ++ read rest := by
  induction fields with
  | nil => rfl
  | cons field fields ih =>
    obtain ⟨hfield, hfields⟩ := List.forall_mem_cons.1 h
    obtain ⟨hpad, hpads⟩ := List.forall_mem_cons.1 hpadding
    rw [List.flatMap_cons, List.append_assoc, read_cons (ExtraField.read_write hfield hpad _), ih hfields hpads, List.cons_append]

/-! ## Sorting -/

/-- The fields in the order they are written in, those of one kind in the order they were in. -/
def sorted (extra : Extra) : Extra := Sorting.sortBy Sorting.natLe ExtraField.sortOrder extra

theorem sorted_eq_flatMap (extra : Extra) :
    extra.sorted = (List.range 6).flatMap fun kind => extra.filter fun field => field.sortOrder = kind :=
  Sorting.sortBy_natLe_eq_flatMap fun field _ => by cases field <;> simp [ExtraField.sortOrder]

theorem write_eq (extra : Extra) : extra.write = extra.sorted.flatMap ExtraField.write := by
  rw [sorted_eq_flatMap, List.flatMap_assoc]
  rfl

theorem mem_sorted {extra : Extra} {field : ExtraField} : field ∈ extra.sorted ↔ field ∈ extra :=
  (Sorting.sortBy_perm _ _ _).mem_iff

theorem sorted_sorted (extra : Extra) : extra.sorted.sorted = extra.sorted :=
  List.mergeSort_of_pairwise (Sorting.pairwise_sortBy Sorting.linear_natLe _ _)

/-- All but the paddings, and then these. -/
theorem sorted_eq_append (extra : Extra) :
    ∃ fields : Extra, extra.sorted = fields ++ extra.filter ExtraField.isPadding ∧ ∀ field ∈ fields, field.isPadding = false := by
  refine ⟨(List.range 5).flatMap fun kind => extra.filter fun field => field.sortOrder = kind, ?_, ?_⟩
  · rw [sorted_eq_flatMap, List.range_succ, List.flatMap_append, List.flatMap_singleton]
    refine congrArg _ (List.filter_congr fun field _ => ?_)
    cases field <;> rfl
  · intro field hfield
    obtain ⟨kind, hkind, hmem⟩ := List.mem_flatMap.1 hfield
    have horder : field.sortOrder = kind := of_decide_eq_true (List.mem_filter.1 hmem).2
    have hlt := List.mem_range.1 hkind
    cases field with
    | Padding size =>
      simp only [ExtraField.sortOrder] at horder
      omega
    | PublicKey | Nonce | MergeMining | PublicKeys | MysteriousMinergate => rfl

/-- There is a padding at most, which is the last of the fields. -/
theorem WellFormed.filter_isPadding {extra : Extra} (h : extra.WellFormed) :
    extra.filter ExtraField.isPadding = [] ∨ ∃ size, extra.filter ExtraField.isPadding = [.Padding size] := by
  rcases extra.eq_nil_or_concat with rfl | ⟨fields, field, rfl⟩
  · exact Or.inl rfl
  · have hnil : fields.filter ExtraField.isPadding = [] := by
      refine List.filter_eq_nil_iff.2 fun other hother => ?_
      have := h.padding_last other (by simpa using hother)
      simp [this]
    rw [List.concat_eq_append, List.filter_append, hnil, List.nil_append]
    cases field with
    | Padding size => exact Or.inr ⟨size, rfl⟩
    | PublicKey | Nonce | MergeMining | PublicKeys | MysteriousMinergate => exact Or.inl rfl

/-- A well-formed extra is read back in the order it is written in. -/
theorem WellFormed.read_write {extra : Extra} (h : extra.WellFormed) : read extra.write = extra.sorted := by
  obtain ⟨fields, hsorted, hpadding⟩ := extra.sorted_eq_append
  have hreadable : ∀ field ∈ fields, field.Readable := by
    intro field hfield
    refine h.readable field (mem_sorted.1 ?_)
    rw [hsorted]
    exact List.mem_append_left _ hfield
  rw [write_eq, hsorted, List.flatMap_append, read_flatMap hreadable hpadding]
  refine congrArg (fields ++ ·) ?_
  rcases h.filter_isPadding with hnil | ⟨size, hsize⟩
  · rw [hnil]
    rfl
  · rw [hsize, List.flatMap_singleton, read_cons (ExtraField.read_padding size), read_nil]

/-! ## What is found in it -/

/-- The key of a field, decompressed. -/
def keyOf (Γ : Ctx) : ExtraField → Option Γ.Point
  | .PublicKey key => some ((CompressedPoint.decompress Γ key).getD 0)
  | _ => none

/-- The additional keys of a field. -/
def additionalKeysOf (Γ : Ctx) : ExtraField → Option (List Γ.Point)
  | .PublicKeys keys => some (keys.map fun key => (CompressedPoint.decompress Γ key).getD 0)
  | _ => none

/-- The data of a field. -/
def nonceOf : ExtraField → Option (List UInt8)
  | .Nonce data => some data
  | _ => none

/-- The arbitrary data of a nonce. -/
def dataOf (nonce : List UInt8) : Option (List UInt8) := if nonce.head? = some ARBITRARY_DATA_MARKER then some nonce.tail else none

theorem arbitraryData_eq (extra : Extra) :
    extra.arbitraryData = ((read (extra.write.take MAX_EXTRA_SIZE_BY_RELAY_RULE)).filterMap nonceOf).filterMap dataOf := by
  rw [arbitraryData, List.filterMap_filterMap]
  refine List.filterMap_congr fun field _ => ?_
  cases field <;> rfl

theorem keysAndAdditional_eq (Γ : Ctx) (extra : Extra) :
    keysAndAdditional Γ extra = (extra.filterMap (keyOf Γ), (extra.filterMap (additionalKeysOf Γ)).head?) := by
  induction extra with
  | nil => rfl
  | cons field extra ih =>
    rw [keysAndAdditional, ih]
    cases field <;> rfl

theorem paymentId_eq (extra : Extra) : extra.paymentId = (extra.filterMap nonceOf).head?.bind fun data =>
    match PaymentId.read data with
    | .ok id rest => if rest.isEmpty then some id else none
    | .error _ _ => none := by
  induction extra with
  | nil => rfl
  | cons field extra ih =>
    cases field with
    | Nonce data => rfl
    | Padding | PublicKey | MergeMining | PublicKeys | MysteriousMinergate => exact ih

/-- The order of fields of distinct kinds does not change what is found. -/
theorem keys_sorted (Γ : Ctx) (extra : Extra) : extra.sorted.keys Γ = extra.keys Γ := by
  have hkey : extra.sorted.filterMap (keyOf Γ) = extra.filterMap (keyOf Γ) := by
    refine Sorting.filterMap_sortBy (k := 0) Sorting.linear_natLe ?_ extra
    intro field hfield
    cases field <;> first | rfl | contradiction
  have hadditional : extra.sorted.filterMap (additionalKeysOf Γ) = extra.filterMap (additionalKeysOf Γ) := by
    refine Sorting.filterMap_sortBy (k := 1) Sorting.linear_natLe ?_ extra
    intro field hfield
    cases field <;> first | rfl | contradiction
  rw [keys, keys, keysAndAdditional_eq, keysAndAdditional_eq, hkey, hadditional]

theorem paymentId_sorted (extra : Extra) : extra.sorted.paymentId = extra.paymentId := by
  have hnonce : extra.sorted.filterMap nonceOf = extra.filterMap nonceOf := by
    refine Sorting.filterMap_sortBy (k := 2) Sorting.linear_natLe ?_ extra
    intro field hfield
    cases field <;> first | rfl | contradiction
  rw [paymentId_eq, paymentId_eq, hnonce]

end Extra

end MoneroOxide
