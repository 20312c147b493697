import MoneroOxide.AddressBytes
import MoneroOxide.Lemmas.Base58

/-!
# The encoding of addresses

What an address is read from is what is written of it, for bytes of which no two are the same.
-/

namespace MoneroOxide

/-! ## The bytes of the networks -/

theorem and_255 (n : ℕ) : n &&& 255 = n % 256 := Nat.and_two_pow_sub_one_eq_mod n 8

theorem AddressBytes.fromConstGeneric_toConstGeneric (bytes : AddressBytes) : fromConstGeneric bytes.toConstGeneric = bytes := by
  have h₁ := bytes.legacy.toNat_lt
  have h₂ := bytes.legacyIntegrated.toNat_lt
  have h₃ := bytes.subaddress.toNat_lt
  have h₄ := bytes.featured.toNat_lt
  obtain ⟨legacy, legacyIntegrated, subaddress, featured⟩ := bytes
  simp only [fromConstGeneric, toConstGeneric, and_255, AddressBytes.mk.injEq,
    ← UInt8.toNat_inj, UInt8.toNat_ofNat'] at *
  omega

theorem AddressBytes.toConstGeneric_lt (bytes : AddressBytes) : bytes.toConstGeneric < 2 ^ 32 := by
  have h₁ := bytes.legacy.toNat_lt
  have h₂ := bytes.legacyIntegrated.toNat_lt
  have h₃ := bytes.subaddress.toNat_lt
  have h₄ := bytes.featured.toNat_lt
  simp only [toConstGeneric]
  omega

namespace NetworkedAddressBytes

theorem fromConstGeneric_toConstGeneric (bytes : NetworkedAddressBytes) : fromConstGeneric bytes.toConstGeneric = bytes := by
  have hmainnet := bytes.mainnet.toConstGeneric_lt
  have hstagenet := bytes.stagenet.toConstGeneric_lt
  have htestnet := bytes.testnet.toConstGeneric_lt
  have hand : ∀ n, n &&& (2 ^ 32 - 1) = n % 2 ^ 32 := fun n => Nat.and_two_pow_sub_one_eq_mod n 32
  have hsplit : (bytes.toConstGeneric / 2 ^ 96) % 2 ^ 32 = bytes.mainnet.toConstGeneric ∧
      (bytes.toConstGeneric / 2 ^ 64) % 2 ^ 32 = bytes.stagenet.toConstGeneric ∧
      (bytes.toConstGeneric / 2 ^ 32) % 2 ^ 32 = bytes.testnet.toConstGeneric := by
    rw [toConstGeneric]
    generalize bytes.mainnet.toConstGeneric = mainnet at *
    generalize bytes.stagenet.toConstGeneric = stagenet at *
    generalize bytes.testnet.toConstGeneric = testnet at *
    refine ⟨?_, ?_, ?_⟩ <;> omega
  rw [fromConstGeneric, hand, hand, Nat.mod_mod, Nat.mod_mod, hsplit.1, hsplit.2.1, hsplit.2.2,
    AddressBytes.fromConstGeneric_toConstGeneric, AddressBytes.fromConstGeneric_toConstGeneric,
    AddressBytes.fromConstGeneric_toConstGeneric]

/-- The twelve bytes, from the least significant on. -/
def all (bytes : NetworkedAddressBytes) : List UInt8 :=
  [bytes.testnet, bytes.stagenet, bytes.mainnet].flatMap fun network =>
    [network.featured, network.subaddress, network.legacyIntegrated, network.legacy]

theorem toConstGeneric_eq (bytes : NetworkedAddressBytes) : bytes.toConstGeneric = leNat bytes.all * 2 ^ 32 := by
  rw [toConstGeneric, all]
  simp only [AddressBytes.toConstGeneric, List.flatMap_cons, List.flatMap_nil, List.cons_append, List.nil_append,
    leNat]
  ring

theorem byteAt_toConstGeneric (bytes : NetworkedAddressBytes) (i : ℕ) :
    byteAt bytes.toConstGeneric i = (bytes.all.getD i 0).toNat := by
  rw [byteAt, and_255, toConstGeneric_eq, pow_add, Nat.mul_comm i 8, pow_mul, mul_comm (leNat _),
    Nat.mul_div_mul_left _ _ (by positivity)]
  exact leNat_div_mod _ i

/-- The bytes which `new` accepts are those of which no two are the same. -/
theorem new_eq_some {mainnet stagenet testnet : AddressBytes} {bytes : NetworkedAddressBytes}
    (h : new mainnet stagenet testnet = some bytes) : bytes.all.Nodup := by
  simp only [new, Option.ite_none_left_eq_some, Option.some.injEq] at h
  obtain ⟨hne, rfl⟩ := h
  set bytes : NetworkedAddressBytes := { mainnet, stagenet, testnet }
  rw [List.nodup_iff_injective_get]
  intro i j hij
  by_contra hdiff
  have hdiff : i.val ≠ j.val := fun e => hdiff (Fin.ext e)
  have hlen : bytes.all.length = 12 := rfl
  refine hne (List.any_eq_true.2 ⟨i, List.mem_range.2 (hlen ▸ i.isLt),
    List.any_eq_true.2 ⟨j, List.mem_range.2 (hlen ▸ j.isLt), ?_⟩⟩)
  have hget : ∀ k : Fin bytes.all.length, bytes.all.getD k 0 = bytes.all.get k := by
    intro k
    rw [List.getD_eq_getElem?_getD, List.getElem?_eq_getElem k.isLt, Option.getD_some, List.get_eq_getElem]
  rw [byteAt_toConstGeneric, byteAt_toConstGeneric, hget, hget, hij]
  simp [hdiff]

end NetworkedAddressBytes

/-! ## The type of an address -/

/-- A type with neither payment ID nor features, as its byte stands for it. -/
def AddressType.bare : AddressType → AddressType
  | Legacy => Legacy
  | LegacyIntegrated _ => LegacyIntegrated (Bytes.replicate 8 0)
  | Subaddress => Subaddress
  | Featured .. => Featured false none false

namespace NetworkedAddressBytes

theorem kindFromByte_eq_some {addressBytes : AddressBytes} {byte : UInt8} {kind : AddressType}
    (h : kindFromByte addressBytes byte = some kind) : kind.bare = kind ∧ ∀ bytes : NetworkedAddressBytes, ∀ network : Network,
      bytes.network network = addressBytes → bytes.byte network kind = byte := by
  unfold kindFromByte at h
  split at h
  case isTrue e =>
    obtain rfl := Option.some.inj h
    exact ⟨rfl, fun bytes network hnetwork => by rw [NetworkedAddressBytes.byte, hnetwork, e]⟩
  split at h
  case isTrue e =>
    obtain rfl := Option.some.inj h
    exact ⟨rfl, fun bytes network hnetwork => by rw [NetworkedAddressBytes.byte, hnetwork, e]⟩
  split at h
  case isTrue e =>
    obtain rfl := Option.some.inj h
    exact ⟨rfl, fun bytes network hnetwork => by rw [NetworkedAddressBytes.byte, hnetwork, e]⟩
  split at h
  case isTrue e =>
    obtain rfl := Option.some.inj h
    exact ⟨rfl, fun bytes network hnetwork => by rw [NetworkedAddressBytes.byte, hnetwork, e]⟩
  case isFalse => cases h

theorem isSome_kindFromByte (bytes : NetworkedAddressBytes) (network : Network) (kind : AddressType) :
    (kindFromByte (bytes.network network) (bytes.byte network kind)).isSome := by
  cases kind <;> simp only [kindFromByte, byte] <;> split_ifs <;> rfl

/-- The networks with each type, in the order of their bytes. -/
def metadata : List (Network × AddressType) :=
  [Network.Testnet, .Stagenet, .Mainnet].flatMap fun network =>
    [(network, .Featured false none false), (network, .Subaddress), (network, .LegacyIntegrated (Bytes.replicate 8 0)),
      (network, .Legacy)]

theorem mem_metadata (network : Network) {kind : AddressType} (h : kind.bare = kind) : (network, kind) ∈ metadata := by
  rw [← h]
  cases network <;> cases kind <;> simp [metadata, AddressType.bare]

/-- Each byte is that of one network and type. -/
theorem byte_inj {bytes : NetworkedAddressBytes} (hnodup : bytes.all.Nodup) {network network' : Network} {kind kind' : AddressType}
    (hkind : kind.bare = kind) (hkind' : kind'.bare = kind') (h : bytes.byte network kind = bytes.byte network' kind') :
    (network, kind) = (network', kind') := by
  have hbytes : bytes.all = metadata.map fun pair => bytes.byte pair.1 pair.2 := rfl
  rw [hbytes] at hnodup
  exact List.inj_on_of_nodup_map hnodup (mem_metadata network hkind) (mem_metadata network' hkind') h

/-- A byte stands for the network and the type it is the byte of. -/
theorem metadataFromByte_eq_ok {bytes : NetworkedAddressBytes} (hnodup : bytes.all.Nodup) {byte : UInt8} {network : Network}
    {kind : AddressType} : bytes.metadataFromByte byte = .ok (network, kind) ↔
    bytes.byte network kind = byte ∧ kind.bare = kind := by
  have hfound : ∀ {metadata : Network × AddressType}, ([Network.Mainnet, .Testnet, .Stagenet].findSome? fun network =>
      (kindFromByte (bytes.network network) byte).map fun kind => (network, kind)) = some metadata →
      bytes.byte metadata.1 metadata.2 = byte ∧ metadata.2.bare = metadata.2 := by
    intro metadata hfound
    obtain ⟨network', -, hmap⟩ := List.exists_of_findSome?_eq_some hfound
    obtain ⟨kind', hkind, rfl⟩ := Option.map_eq_some_iff.1 hmap
    obtain ⟨hbare, hbyte⟩ := kindFromByte_eq_some hkind
    exact ⟨hbyte bytes _ rfl, hbare⟩
  unfold metadataFromByte
  constructor
  · intro h
    split at h
    case h_1 metadata hmetadata =>
      obtain rfl := Except.ok.inj h
      exact hfound hmetadata
    case h_2 => cases h
  · rintro ⟨rfl, hbare⟩
    obtain ⟨kind', hkind⟩ := Option.isSome_iff_exists.1 (isSome_kindFromByte bytes network kind)
    split
    case h_1 metadata hmetadata =>
      obtain ⟨hbyte, hbare'⟩ := hfound hmetadata
      rw [← byte_inj hnodup hbare' hbare hbyte]
    case h_2 hnone =>
      have := List.findSome?_eq_none_iff.1 hnone network (by cases network <;> simp)
      rw [hkind] at this
      cases this

end NetworkedAddressBytes

/-- The features are the lowest bits. -/
theorem features_iff {features : UInt64} {subaddress integrated guaranteed : Bool} :
    (features >>> 3 = 0 ∧ decide (features &&& 1 = 1) = subaddress ∧ decide ((features >>> 1) &&& 1 = 1) = integrated ∧
      decide ((features >>> 2) &&& 1 = 1) = guaranteed) ↔
      features.toNat = Address.featuresUint subaddress integrated guaranteed := by
  constructor
  · rintro ⟨hlt, rfl, rfl, rfl⟩
    have hlt : features.toNat < 8 := by
      have := congrArg UInt64.toNat hlt
      rw [UInt64.toNat_shiftRight] at this
      change features.toNat >>> 3 = 0 at this
      rw [Nat.shiftRight_eq_div_pow] at this
      omega
    obtain ⟨n, hn, rfl⟩ : ∃ n < 8, features = UInt64.ofNat n := ⟨features.toNat, hlt, (UInt64.ofNat_toNat).symm⟩
    interval_cases n <;> decide
  · intro h
    obtain rfl : features = UInt64.ofNat (Address.featuresUint subaddress integrated guaranteed) := by
      rw [← h, UInt64.ofNat_toNat]
    revert subaddress integrated guaranteed
    decide

namespace Address

variable {Γ : Ctx}

/-! ## What is read of an address -/

theorem readOr_eq_ok {α : Type} {read : Read α} {error : AddressError} {raw rest : List UInt8} {a : α} :
    readOr read error raw = .ok (a, rest) ↔ read raw = .ok a rest := by
  unfold readOr
  cases read raw with
  | ok b rest' => simp
  | error e rest' => simp

theorem readKey_eq_ok {raw rest : List UInt8} {key : Γ.Point} :
    readKey Γ raw = .ok (key, rest) ↔ raw = (Γ.compress key).toList ++ rest := by
  rw [readKey, Results.bind_eq_ok]
  constructor
  · rintro ⟨⟨compressed, raw'⟩, hread, hkey⟩
    obtain rfl := CompressedPoint.read_ok.1 (readOr_eq_ok.1 hread)
    cases hpoint : CompressedPoint.decompress Γ compressed with
    | none =>
      simp only [hpoint] at hkey
      cases hkey
    | some point =>
      simp only [hpoint, Except.ok.injEq, Prod.mk.injEq] at hkey
      obtain ⟨rfl, rfl⟩ := hkey
      rw [CompressedPoint.decompress_eq_some.1 hpoint]
      rfl
  · rintro rfl
    refine ⟨(Γ.compress key, rest), readOr_eq_ok.2 (CompressedPoint.read_ok.2 rfl), ?_⟩
    simp only [CompressedPoint.decompress_compress]

/-- What follows the keys. -/
def suffix (kind : AddressType) : List UInt8 :=
  (match kind with
    | .Featured subaddress paymentId guaranteed => VarInt.write (featuresUint subaddress paymentId.isSome guaranteed)
    | _ => []) ++
  (match kind.paymentId with
    | some id => id.toList
    | none => [])

/-- What is encoded of an address. -/
def raw (bytes : NetworkedAddressBytes) (address : Address Γ) : List UInt8 :=
  bytes.byte address.network address.kind :: ((Γ.compress address.spend).toList ++ ((Γ.compress address.view).toList ++
    suffix address.kind))

theorem toString_eq (bytes : NetworkedAddressBytes) (address : Address Γ) :
    address.toString bytes = Base58.encodeCheck Γ (address.raw bytes) := by
  obtain ⟨network, kind, spend, view⟩ := address
  cases kind with
  | Legacy => simp [toString, raw, suffix, paymentId, AddressType.paymentId]
  | LegacyIntegrated id => simp [toString, raw, suffix, paymentId, AddressType.paymentId]
  | Subaddress => simp [toString, raw, suffix, paymentId, AddressType.paymentId]
  | Featured subaddress id guaranteed => cases id <;> simp [toString, raw, suffix, paymentId, AddressType.paymentId]

/-- The features are read from their encoding. -/
theorem readFeatures_Featured {subaddress guaranteed : Bool} {paymentId : Option (Bytes 8)} {raw rest : List UInt8}
    {kind : AddressType} :
    readFeatures (.Featured subaddress paymentId guaranteed) raw = .ok (kind, rest) ↔ ∃ subaddress integrated guaranteed,
      kind = .Featured subaddress (if integrated = true then some (Bytes.replicate 8 0) else none) guaranteed ∧
        raw = VarInt.write (featuresUint subaddress integrated guaranteed) ++ rest := by
  simp only [readFeatures, Results.bind_eq_ok, Prod.exists, readOr_eq_ok, VarInt.readU64_ok, Results.ite_error_eq_ok, not_not,
    ne_eq, Except.ok.injEq, Prod.mk.injEq]
  constructor
  · rintro ⟨features, rest', rfl, hknown, rfl, rfl⟩
    have hfeatures := features_iff.1 ⟨hknown, rfl, rfl, rfl⟩
    refine ⟨_, _, _, ?_, by rw [hfeatures]⟩
    simp only [decide_eq_true_eq]
  · rintro ⟨subaddress, integrated, guaranteed, rfl, rfl⟩
    obtain ⟨features, hfeatures⟩ : ∃ features : UInt64, features.toNat = featuresUint subaddress integrated guaranteed := by
      refine ⟨UInt64.ofNat (featuresUint subaddress integrated guaranteed), ?_⟩
      revert subaddress integrated guaranteed
      decide
    obtain ⟨hknown, rfl, rfl, rfl⟩ := features_iff.2 hfeatures
    refine ⟨features, rest, by rw [hfeatures], hknown, ?_, rfl⟩
    simp only [decide_eq_true_eq]

/-- The type with a payment ID of zeros, if it has one. -/
def zeroId : AddressType → AddressType
  | .LegacyIntegrated _ => .LegacyIntegrated (Bytes.replicate 8 0)
  | .Featured subaddress (some _) guaranteed => .Featured subaddress (some (Bytes.replicate 8 0)) guaranteed
  | kind => kind

/-- The bytes of the payment ID. -/
def idBytes (kind : AddressType) : List UInt8 :=
  match kind.paymentId with
  | some id => id.toList
  | none => []

theorem readId_iff {raw : List UInt8} {kind : AddressType} {f : Bytes 8 → AddressType} :
    (do
      let (id, raw) ← readOr (readBytes 8) .InvalidLength raw
      (.ok (f id, raw) : Except AddressError (AddressType × List UInt8))) = .ok (kind, []) ↔
      ∃ id, kind = f id ∧ raw = id.toList := by
  simp only [Results.bind_eq_ok, Prod.exists, readOr_eq_ok, readBytes_ok, Except.ok.injEq, Prod.mk.injEq]
  constructor
  · rintro ⟨id, rest, rfl, rfl, rfl⟩
    exact ⟨id, rfl, List.append_nil _⟩
  · rintro ⟨id, rfl, rfl⟩
    exact ⟨id, [], (List.append_nil _).symm, rfl, rfl⟩

/-- Where there is no payment ID, none is read. -/
theorem readNoId_iff {kind kind' : AddressType} {raw : List UInt8} (h : kind.paymentId = none) :
    (.ok (kind, raw) : Except AddressError (AddressType × List UInt8)) = .ok (kind', []) ↔
    zeroId kind' = kind ∧ raw = idBytes kind' := by
  simp only [Except.ok.injEq, Prod.mk.injEq]
  constructor
  · rintro ⟨rfl, rfl⟩
    rcases kind with _ | id | _ | ⟨subaddress, _ | id, guaranteed⟩ <;> cases h <;> exact ⟨rfl, rfl⟩
  · rintro ⟨rfl, rfl⟩
    rcases kind' with _ | id | _ | ⟨subaddress, _ | id, guaranteed⟩ <;> cases h <;> exact ⟨rfl, rfl⟩

/-- The payment ID is read, if there is one. -/
theorem readPaymentId_eq_ok {kind kind' : AddressType} {raw : List UInt8} (h : zeroId kind = kind) :
    readPaymentId kind raw = .ok (kind', []) ↔ zeroId kind' = kind ∧ raw = idBytes kind' := by
  rcases kind with _ | id₀ | _ | ⟨subaddress, _ | id₀, guaranteed⟩
  case LegacyIntegrated =>
    simp only [readPaymentId]
    rw [readId_iff]
    constructor
    · rintro ⟨id, rfl, rfl⟩
      exact ⟨h, rfl⟩
    · rintro ⟨hkind, rfl⟩
      rcases kind' with _ | id | _ | ⟨subaddress, _ | id, guaranteed⟩ <;> cases hkind
      exact ⟨id, rfl, rfl⟩
  case Featured.some =>
    simp only [readPaymentId]
    rw [readId_iff (f := fun id => .Featured subaddress (some id) guaranteed)]
    constructor
    · rintro ⟨id, rfl, rfl⟩
      exact ⟨h, rfl⟩
    · rintro ⟨hkind, rfl⟩
      rcases kind' with _ | id | _ | ⟨subaddress, _ | id, guaranteed⟩ <;> cases hkind
      exact ⟨id, rfl, rfl⟩
  all_goals exact readNoId_iff rfl

/-- A type without features is read from its payment ID alone. -/
theorem readSuffix_of_readFeatures {bare kind : AddressType} {raw : List UInt8}
    (hfeatures : readFeatures bare raw = .ok (bare, raw)) (hbare : bare.bare = bare)
    (hne : bare ≠ .Featured false none false) :
    (∃ kind' raw', readFeatures bare raw = .ok (kind', raw') ∧ readPaymentId kind' raw' = .ok (kind, [])) ↔
      kind.bare = bare ∧ raw = suffix kind := by
  have hzero : zeroId bare = bare := by
    rcases bare with _ | id | _ | ⟨subaddress, _ | id, guaranteed⟩ <;> cases hbare <;> rfl
  have hsame : (∃ kind' raw', readFeatures bare raw = .ok (kind', raw') ∧ readPaymentId kind' raw' = .ok (kind, [])) ↔
      readPaymentId bare raw = .ok (kind, []) := by
    constructor
    · rintro ⟨kind', raw', hread, hid⟩
      obtain ⟨rfl, rfl⟩ := Prod.mk.inj (Except.ok.inj (hfeatures.symm.trans hread))
      exact hid
    · exact fun hid => ⟨bare, raw, hfeatures, hid⟩
  rw [hsame, readPaymentId_eq_ok hzero]
  constructor
  · rintro ⟨rfl, rfl⟩
    rcases kind with _ | id | _ | ⟨subaddress, _ | id, guaranteed⟩ <;> cases hbare <;>
      first | exact ⟨rfl, rfl⟩ | exact absurd rfl hne
  · rintro ⟨rfl, rfl⟩
    rcases kind with _ | id | _ | ⟨subaddress, _ | id, guaranteed⟩ <;> first | exact ⟨rfl, rfl⟩ | exact absurd rfl hne

/-- The type is read from its features and its payment ID. -/
theorem readSuffix_iff {bare kind : AddressType} {raw : List UInt8} (hbare : bare.bare = bare) :
    (∃ kind' raw', readFeatures bare raw = .ok (kind', raw') ∧ readPaymentId kind' raw' = .ok (kind, [])) ↔
      kind.bare = bare ∧ raw = suffix kind := by
  cases bare with
  | Featured subaddress paymentId guaranteed =>
    simp only [readFeatures_Featured]
    constructor
    · rintro ⟨kind', raw', ⟨subaddress, integrated, guaranteed, rfl, rfl⟩, hid⟩
      rw [readPaymentId_eq_ok (by cases integrated <;> rfl)] at hid
      obtain ⟨hkind, rfl⟩ := hid
      cases integrated with
      | false =>
        rcases kind with _ | id | _ | ⟨subaddress, _ | id, guaranteed⟩ <;> cases hkind
        exact ⟨hbare, rfl⟩
      | true =>
        rcases kind with _ | id | _ | ⟨subaddress, _ | id, guaranteed⟩ <;> cases hkind
        exact ⟨hbare, rfl⟩
    · rintro ⟨hkind, rfl⟩
      cases kind with
      | Featured subaddress paymentId guaranteed =>
        refine ⟨_, _, ⟨subaddress, paymentId.isSome, guaranteed, rfl, rfl⟩, ?_⟩
        rw [readPaymentId_eq_ok (by cases paymentId <;> rfl)]
        exact ⟨by cases paymentId <;> rfl, rfl⟩
      | _ => cases hkind
  | LegacyIntegrated id₀ => exact readSuffix_of_readFeatures rfl hbare fun h => nomatch h
  | Legacy => exact readSuffix_of_readFeatures rfl hbare fun h => nomatch h
  | Subaddress => exact readSuffix_of_readFeatures rfl hbare fun h => nomatch h

theorem byte_bare (bytes : NetworkedAddressBytes) (network : Network) (kind : AddressType) :
    bytes.byte network kind.bare = bytes.byte network kind := by
  cases kind <;> rfl

theorem bare_bare (kind : AddressType) : kind.bare.bare = kind.bare := by
  cases kind <;> rfl

/-- An address is read from what is encoded of it, and from nothing else. -/
theorem fromStrWithUncheckedNetwork_eq_ok {bytes : NetworkedAddressBytes} (hnodup : bytes.all.Nodup) {s : List UInt8}
    {address : Address Γ} : fromStrWithUncheckedNetwork Γ bytes s = .ok address ↔ address.toString bytes = s := by
  rw [toString_eq, ← Base58.decodeCheck_iff, fromStrWithUncheckedNetwork]
  cases Base58.decodeCheck Γ s with
  | none => simp
  | some raw =>
    simp only [Results.ok_bind, Results.bind_eq_ok, Prod.exists, readOr_eq_ok, readByte_ok,
      NetworkedAddressBytes.metadataFromByte_eq_ok hnodup, readKey_eq_ok, Option.some.injEq]
    constructor
    · rintro ⟨byte, _, rfl, network, bare, ⟨rfl, hbare⟩, spend, _, rfl, view, rest, rfl, kind', rest', hfeatures,
        kind, last, hid, h⟩
      split at h
      case isTrue hempty =>
        obtain rfl := List.isEmpty_iff.1 hempty
        obtain rfl := Except.ok.inj h
        obtain ⟨rfl, rfl⟩ := (readSuffix_iff hbare).1 ⟨kind', rest', hfeatures, hid⟩
        rw [raw, byte_bare]
      case isFalse => cases h
    · rintro rfl
      obtain ⟨kind', rest', hfeatures, hid⟩ := (readSuffix_iff (bare_bare address.kind)).2 ⟨rfl, rfl⟩
      exact ⟨_, _, rfl, address.network, address.kind.bare, ⟨byte_bare _ _ _, bare_bare _⟩, address.spend, _, rfl, address.view, _,
        rfl, kind', rest', hfeatures, address.kind, [], hid, rfl⟩

theorem fromStr_eq_ok {bytes : NetworkedAddressBytes} (hnodup : bytes.all.Nodup) {network : Network} {s : List UInt8}
    {address : Address Γ} :
    fromStr Γ bytes network s = .ok address ↔ address.network = network ∧ address.toString bytes = s := by
  rw [fromStr, Results.bind_eq_ok]
  simp only [fromStrWithUncheckedNetwork_eq_ok hnodup]
  constructor
  · rintro ⟨address', rfl, h⟩
    split at h
    case isTrue hnetwork =>
      obtain rfl := Except.ok.inj h
      exact ⟨hnetwork, rfl⟩
    case isFalse => cases h
  · rintro ⟨hnetwork, rfl⟩
    exact ⟨address, rfl, if_pos hnetwork⟩

end Address

end MoneroOxide
