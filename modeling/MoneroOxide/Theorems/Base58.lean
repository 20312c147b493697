import MoneroOxide.Base58
import MoneroOxide.Lemmas.Base58

/-!
# Base58 is canonical

Each byte string has one encoding, which is decoded to it, and nothing else is decoded. Neither panics.
-/

namespace MoneroOxide

namespace Base58

/-! ## Nothing panics -/

namespace Checked

theorem expect_eq {c : Prop} [Decidable c] (message : String) (h : c) : expect c message = .ok () := if_pos h

theorem mul_eq {a b : ℕ} (h : a * b < 2 ^ 64) : mul a b = .ok (a * b) := by
  rw [mul, expect_eq _ h]
  rfl

theorem sub_eq {a b : ℕ} (h : b ≤ a) : sub a b = .ok (a - b) := by
  rw [sub, expect_eq _ h]
  rfl

theorem splitAt_eq {bytes : List UInt8} {i : ℕ} (h : i ≤ bytes.length) : splitAt bytes i = .ok (bytes.take i, bytes.drop i) := by
  rw [splitAt, expect_eq _ h]
  rfl

theorem lenLoop_eq (max i : ℕ) : lenLoop max i = i + (digits max).length := by
  induction max using Nat.strong_induction_on generalizing i with
  | _ max ih =>
    rw [lenLoop, digits]
    split
    case isTrue h => rfl
    case isFalse h =>
      rw [ih _ (Nat.div_lt_self (Nat.pos_of_ne_zero h) one_lt_ALPHABET_LEN), List.length_cons]
      omega

theorem encodedLenForBytes_eq {bytes : ℕ} (h : bytes ≤ BLOCK_LEN) :
    encodedLenForBytes bytes = .ok (Base58.encodedLenForBytes bytes) := by
  have h : bytes ≤ 8 := h
  rw [encodedLenForBytes, expect_eq _ (by omega), Results.ok_bind, mul_eq (by omega), Results.ok_bind, Base58.encodedLenForBytes]
  split
  case isTrue hbits =>
    rw [lenLoop_eq, hbits, Nat.zero_add]
    rfl
  case isFalse hbits =>
    rw [expect_eq _ (by omega), Results.ok_bind, lenLoop_eq, Nat.zero_add]
    rfl

/-- The loop writes the digits over the zeros, as long as there are as many. -/
theorem encodeLoop_eq (value zeros : ℕ) (written : List UInt8) (h : (digits value).length ≤ zeros) :
    encodeLoop (written ++ List.replicate zeros (charOf 0)) written.length value =
      .ok (written ++ (digits value).map charOf ++ List.replicate (zeros - (digits value).length) (charOf 0)) := by
  induction value using Nat.strong_induction_on generalizing zeros written with
  | _ value ih =>
    rw [encodeLoop]
    split
    case isTrue hzero =>
      rw [hzero, digits, if_pos rfl, List.map_nil, List.append_nil, List.length_nil, Nat.sub_zero]
    case isFalse hne =>
      have hdigits : digits value = value % ALPHABET_LEN :: digits (value / ALPHABET_LEN) := by
        rw [digits, if_neg hne]
      rw [hdigits, List.length_cons] at h
      obtain ⟨zeros, rfl⟩ : ∃ n, zeros = n + 1 := ⟨zeros - 1, by omega⟩
      have hmod : value % ALPHABET_LEN < ALPHABET.length := length_ALPHABET ▸ Nat.mod_lt _ (by decide)
      rw [List.getElem?_eq_getElem hmod]
      dsimp only
      rw [if_pos (by simp), ← charOf_eq hmod, hdigits, List.map_cons, List.length_cons]
      have hset : (written ++ List.replicate (zeros + 1) (charOf 0)).set written.length (charOf (value % ALPHABET_LEN)) =
          (written ++ [charOf (value % ALPHABET_LEN)]) ++ List.replicate zeros (charOf 0) := by
        rw [List.replicate_succ, List.set_append_right _ _ le_rfl, Nat.sub_self, List.set_cons_zero, List.append_assoc]
        rfl
      have hnext := ih _ (Nat.div_lt_self (Nat.pos_of_ne_zero hne) one_lt_ALPHABET_LEN) zeros
        (written ++ [charOf (value % ALPHABET_LEN)]) (by omega)
      rw [List.length_append, List.length_singleton] at hnext
      rw [hset, hnext, Nat.add_sub_add_right]
      simp only [List.append_assoc, List.singleton_append]

theorem beNat_replicate_append (n : ℕ) (chunk : List UInt8) : beNat (List.replicate n 0 ++ chunk) = beNat chunk := by
  rw [beNat, List.reverse_append, List.reverse_replicate, leNat_append_replicate, beNat]

theorem encodeChunk_eq {chunk : List UInt8} (h : chunk.length ≤ BLOCK_LEN) :
    encodeChunk chunk = .ok (Base58.encodeChunk chunk) := by
  have hdigits := (length_digits_beNat chunk).trans (encodedLenForBytes_le h)
  have hloop : encodeLoop (List.replicate ENCODED_BLOCK_LEN (ALPHABET.getD 0 0)) 0 (beNat chunk) =
      .ok ((digits (beNat chunk)).map charOf ++ List.replicate (ENCODED_BLOCK_LEN - (digits (beNat chunk)).length) (charOf 0)) :=
    encodeLoop_eq (beNat chunk) ENCODED_BLOCK_LEN [] hdigits
  rw [encodeChunk, sub_eq h, Results.ok_bind]
  dsimp only
  rw [beNat_replicate_append, hloop, Results.ok_bind, encodedLenForBytes_eq h, Results.ok_bind, Base58.encodeChunk, List.length_map]
  rfl

theorem encode_eq {bytes : List UInt8} (h : bytes.length ≤ ISIZE_MAX) : encode bytes = .ok (Base58.encode bytes) := by
  have hcapacity : (bytes.length + (BLOCK_LEN - 1)) / BLOCK_LEN * ENCODED_BLOCK_LEN < 2 ^ 64 := by
    have hmax : bytes.length ≤ 2 ^ 63 - 1 := h
    change (bytes.length + 7) / 8 * 11 < 2 ^ 64
    omega
  have hchunks : (chunks BLOCK_LEN bytes).mapM encodeChunk = .ok ((chunks BLOCK_LEN bytes).map Base58.encodeChunk) :=
    Results.mapM_ok fun chunk hin => encodeChunk_eq ((chunked_chunks (by decide) bytes).length_of_mem (by decide) hin).2
  rw [encode, mul_eq hcapacity, Results.ok_bind, hchunks, Base58.encode, List.flatMap_def]
  rfl

theorem sumLoop_eq (chunk : List UInt8) (sum : ℕ) : sumLoop sum chunk = .ok (chunk.foldlM (fun sum thisChar => do
    let sum := sum * ALPHABET_LEN
    let digit ← ALPHABET.idxOf? thisChar
    if sum + digit < 2 ^ 64 then some (sum + digit) else none) sum) := by
  induction chunk generalizing sum with
  | nil => rfl
  | cons c chunk ih =>
    rw [sumLoop, List.foldlM_cons]
    dsimp only
    cases hdigit : ALPHABET.idxOf? c with
    | none => simp
    | some digit =>
      have hlt : digit < 58 := (idxOf_eq_some.1 hdigit).1
      simp only [Option.bind_eq_bind, Option.bind_some, expect_eq _ (show digit < 2 ^ 64 by omega), Results.ok_bind]
      by_cases hsum : sum * ALPHABET_LEN + digit < 2 ^ 64
      · rw [if_neg (by omega), if_neg (by omega), if_pos hsum, ih]
        rfl
      · rw [if_pos (show 2 ^ 64 ≤ sum * ALPHABET_LEN + digit by omega), if_neg hsum, ite_self]
        rfl

theorem usedBytesLoop_eq (len : ℕ) {is : List ℕ} (h : ∀ i ∈ is, i ≤ BLOCK_LEN) :
    usedBytesLoop len is = .ok (is.find? fun i => Base58.encodedLenForBytes i = len) := by
  induction is with
  | nil => rfl
  | cons i is ih =>
    rw [usedBytesLoop, encodedLenForBytes_eq (h i List.mem_cons_self), Results.ok_bind, List.find?_cons]
    by_cases hlen : Base58.encodedLenForBytes i = len
    · simp [hlen]
    · simp only [hlen, if_false, decide_false]
      exact ih fun j hj => h j (List.mem_cons_of_mem _ hj)

theorem decodeChunk_eq (chunk : List UInt8) : decodeChunk chunk = .ok (Base58.decodeChunk chunk) := by
  have husedBytes : ∀ i ∈ (List.range BLOCK_LEN).map (· + 1), i ≤ BLOCK_LEN := by decide
  have hsum : sumLoop 0 chunk = .ok (chunkValue chunk) := sumLoop_eq chunk 0
  rw [decodeChunk, hsum, Results.ok_bind, Base58.decodeChunk]
  cases chunkValue chunk with
  | none => rfl
  | some sum =>
    simp only [Option.bind_eq_bind, Option.bind_some]
    rw [usedBytesLoop_eq _ husedBytes, Results.ok_bind]
    cases hfound : ((List.range BLOCK_LEN).map (· + 1)).find? fun i => decide (Base58.encodedLenForBytes i = chunk.length) with
    | none => rfl
    | some usedBytes =>
      have hle : usedBytes ≤ BLOCK_LEN := (find_usedBytes.1 hfound).2.1
      have hlen : BLOCK_LEN - usedBytes ≤ ((leList BLOCK_LEN sum).reverse).length := by
        rw [List.length_reverse, length_leList]
        omega
      simp only [sub_eq hle, splitAt_eq hlen, Results.ok_bind, Option.bind_some]
      split <;> rfl

theorem decodeLoop_eq (cs : List (List UInt8)) (res : List UInt8) :
    decodeLoop res cs = .ok ((cs.mapM Base58.decodeChunk).map fun bytes => res ++ bytes.flatten) := by
  induction cs generalizing res with
  | nil => simp [decodeLoop]
  | cons chunk cs ih =>
    rw [decodeLoop, decodeChunk_eq, Results.ok_bind, List.mapM_cons]
    cases Base58.decodeChunk chunk with
    | none => rfl
    | some bytes =>
      dsimp only
      rw [ih]
      cases cs.mapM Base58.decodeChunk with
      | none => rfl
      | some rest => simp

theorem decode_eq {data : List UInt8} (h : data.length ≤ ISIZE_MAX) : decode data = .ok (Base58.decode data) := by
  have hcapacity : data.length / ENCODED_BLOCK_LEN * BLOCK_LEN < 2 ^ 64 := by
    have hmax : data.length ≤ 2 ^ 63 - 1 := h
    change data.length / 11 * 8 < 2 ^ 64
    omega
  rw [decode, mul_eq hcapacity, Results.ok_bind, decodeLoop_eq, Base58.decode]
  simp only [List.nil_append]

theorem encodeCheck_eq (Γ : Ctx) {data : List UInt8} (h : data.length + CHECKSUM_LEN ≤ ISIZE_MAX) :
    encodeCheck Γ data = .ok (Base58.encodeCheck Γ data) := by
  have hlen : CHECKSUM_LEN ≤ (Γ.keccak256 data).toList.length := by
    rw [Bytes.length_toList]
    decide
  rw [encodeCheck, splitAt_eq hlen, Results.ok_bind]
  refine encode_eq ?_
  rw [List.length_append, List.length_take, min_eq_left hlen]
  exact h

theorem decodeCheck_eq (Γ : Ctx) {data : List UInt8} (h : data.length ≤ ISIZE_MAX) :
    decodeCheck Γ data = .ok (Base58.decodeCheck Γ data) := by
  rw [decodeCheck, decode_eq h, Results.ok_bind, Base58.decodeCheck]
  cases Base58.decode data with
  | none => rfl
  | some res =>
    simp only [Option.bind_eq_bind, Option.bind_some]
    by_cases hlen : res.length < CHECKSUM_LEN
    · rw [if_pos hlen, if_pos hlen]
      rfl
    · have hkeccak : CHECKSUM_LEN ≤ (Γ.keccak256 (res.take (res.length - CHECKSUM_LEN))).toList.length := by
        rw [Bytes.length_toList]
        decide
      rw [if_neg hlen, if_neg hlen, sub_eq (by omega), Results.ok_bind, splitAt_eq (by omega), Results.ok_bind]
      dsimp only
      rw [splitAt_eq hkeccak, Results.ok_bind]
      split <;> rfl

end Checked

/-- Encoding and decoding are inverse to each other, and neither panics. -/
theorem base58_canonical (Γ : Ctx) :
    (∀ bytes, decode (encode bytes) = some bytes ∧ decodeCheck Γ (encodeCheck Γ bytes) = some bytes) ∧
    (∀ s bytes, (decode s = some bytes → encode bytes = s) ∧ (decodeCheck Γ s = some bytes → encodeCheck Γ bytes = s)) ∧
    (∀ s, (∃ bytes, decode s = some bytes) ↔ ∃ bytes, encode bytes = s) ∧
    (∀ bytes, bytes.length ≤ Checked.ISIZE_MAX → Checked.encode bytes = .ok (encode bytes) ∧
      Checked.decode bytes = .ok (decode bytes) ∧ Checked.decodeCheck Γ bytes = .ok (decodeCheck Γ bytes)) ∧
    (∀ bytes, bytes.length + CHECKSUM_LEN ≤ Checked.ISIZE_MAX → Checked.encodeCheck Γ bytes = .ok (encodeCheck Γ bytes)) := by
  refine ⟨fun bytes => ⟨decode_iff.2 rfl, decodeCheck_iff.2 rfl⟩, fun s bytes => ⟨decode_iff.1, decodeCheck_iff.1⟩, ?_, ?_, ?_⟩
  · intro s
    exact exists_congr fun bytes => decode_iff
  · intro bytes h
    exact ⟨Checked.encode_eq h, Checked.decode_eq h, Checked.decodeCheck_eq Γ h⟩
  · intro bytes h
    exact Checked.encodeCheck_eq Γ h

end Base58

end MoneroOxide
