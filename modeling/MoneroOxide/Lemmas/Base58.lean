import MoneroOxide.Address
import MoneroOxide.Lib.Lists
import MoneroOxide.Lib.Results
import Mathlib.Data.Nat.Digits.Lemmas

/-!
# Base58

A chunk of bytes and its encoding are two expansions of one number, in base 256 and in base 58. Each has as many digits as its
chunk has places, so that either determines the other.
-/

namespace MoneroOxide

namespace Base58

/-! ## Chunks -/

section Chunks

variable {α β : Type} {n m : ℕ}

/-- Chunks of `n` elements each, of which the last may be shorter but not empty. -/
def Chunked (n : ℕ) : List (List α) → Prop
  | [] => True
  | [chunk] => 0 < chunk.length ∧ chunk.length ≤ n
  | chunk :: chunks => chunk.length = n ∧ Chunked n chunks

theorem Chunked.tail {chunk : List α} {cs : List (List α)} (h : Chunked n (chunk :: cs)) : Chunked n cs := by
  cases cs with
  | nil => trivial
  | cons c cs => exact h.2

theorem Chunked.length_head (hn : 0 < n) {chunk : List α} {cs : List (List α)} (h : Chunked n (chunk :: cs)) :
    0 < chunk.length ∧ chunk.length ≤ n := by
  cases cs with
  | nil => exact h
  | cons c cs => exact ⟨h.1 ▸ hn, h.1.le⟩

theorem Chunked.length_of_mem (hn : 0 < n) {cs : List (List α)} (h : Chunked n cs) {chunk : List α} (hin : chunk ∈ cs) :
    0 < chunk.length ∧ chunk.length ≤ n := by
  induction cs with
  | nil => exact absurd hin List.not_mem_nil
  | cons c cs ih =>
    rcases List.mem_cons.1 hin with rfl | hin
    · exact h.length_head hn
    · exact ih h.tail hin

/-- Chunks of bytes go to chunks of characters, and the other way, if whole chunks do. -/
theorem Chunked.of_forall₂ {cs : List (List α)} {ds : List (List β)} (h : Chunked n cs)
    (hmap : List.Forall₂ (fun c d => 0 < d.length ∧ d.length ≤ m ∧ (c.length = n → d.length = m)) cs ds) : Chunked m ds := by
  induction hmap with
  | nil => trivial
  | @cons c d cs ds hd hmap ih =>
    cases hmap with
    | nil => exact ⟨hd.1, hd.2.1⟩
    | cons h₁ h₂ => exact ⟨hd.2.2 h.1, ih h.2⟩

@[simp]
theorem chunks_nil : chunks n ([] : List α) = [] := by rw [chunks]

theorem chunks_cons (a : α) (as : List α) : chunks n (a :: as) = (a :: as.take (n - 1)) :: chunks n (as.drop (n - 1)) := by
  rw [chunks]

theorem flatten_chunks (as : List α) : (chunks n as).flatten = as := by
  fun_induction chunks n as with
  | case1 => rfl
  | case2 a as ih => rw [List.flatten_cons, ih, List.cons_append, List.take_append_drop]

theorem chunked_chunks (hn : 0 < n) (as : List α) : Chunked n (chunks n as) := by
  fun_induction chunks n as with
  | case1 => trivial
  | case2 a as ih =>
    rcases hrest : as.drop (n - 1) with _ | ⟨b, bs⟩
    · have hlen : as.length ≤ n - 1 := List.drop_eq_nil_iff.1 hrest
      rw [chunks_nil, List.take_of_length_le hlen]
      refine ⟨Nat.succ_pos _, ?_⟩
      rw [List.length_cons]
      omega
    · have hlen : n - 1 < as.length := by
        by_contra hle
        rw [List.drop_eq_nil_iff.2 (by omega)] at hrest
        cases hrest
      rw [hrest, chunks_cons] at ih
      rw [chunks_cons]
      refine ⟨?_, ih⟩
      rw [List.length_cons, List.length_take]
      omega

/-- Chunks are determined by their elements. -/
theorem chunks_flatten (hn : 0 < n) {cs : List (List α)} (h : Chunked n cs) : chunks n cs.flatten = cs := by
  induction cs with
  | nil => exact chunks_nil
  | cons chunk cs ih =>
    obtain ⟨a, as, rfl⟩ := List.exists_cons_of_length_pos (h.length_head hn).1
    have hle := (h.length_head hn).2
    rw [List.length_cons] at hle
    rw [List.flatten_cons, List.cons_append, chunks_cons]
    cases cs with
    | nil =>
      rw [List.flatten_nil, List.append_nil, List.take_of_length_le (by omega), List.drop_eq_nil_iff.2 (by omega), chunks_nil]
    | cons c cs =>
      have hlen : as.length = n - 1 := by
        have := h.1
        rw [List.length_cons] at this
        omega
      rw [List.take_left' hlen, List.drop_left' hlen, ih h.tail]

end Chunks

/-! ## The alphabet -/

/-- The character of a digit. -/
def charOf (digit : ℕ) : UInt8 := ALPHABET.getD digit 0

theorem length_ALPHABET : ALPHABET.length = ALPHABET_LEN := by decide +kernel

theorem nodup_ALPHABET : ALPHABET.Nodup := by decide +kernel

theorem charOf_eq {digit : ℕ} (h : digit < ALPHABET.length) : charOf digit = ALPHABET[digit] := by
  rw [charOf, List.getD_eq_getElem?_getD, List.getElem?_eq_getElem h, Option.getD_some]

/-- The characters are the digits. -/
theorem idxOf_eq_some {c : UInt8} {digit : ℕ} : ALPHABET.idxOf? c = some digit ↔ digit < ALPHABET_LEN ∧ charOf digit = c := by
  rw [List.idxOf?_eq_some_iff]
  constructor
  · rintro ⟨hlt, hc, -⟩
    exact ⟨length_ALPHABET ▸ hlt, (charOf_eq hlt).trans hc⟩
  · rintro ⟨hlt, hc⟩
    have hlt' : digit < ALPHABET.length := length_ALPHABET.symm ▸ hlt
    rw [charOf_eq hlt'] at hc
    refine ⟨hlt', hc, fun j hj hjc => ?_⟩
    exact hj.ne ((List.Nodup.getElem_inj_iff nodup_ALPHABET).1 (hjc.trans hc.symm))

/-! ## Digits -/

theorem one_lt_ALPHABET_LEN : 1 < ALPHABET_LEN := by decide

theorem digits_eq (value : ℕ) : digits value = Nat.digits ALPHABET_LEN value := by
  induction value using Nat.strong_induction_on with
  | _ value ih =>
    rw [digits]
    split
    case isTrue h => rw [h, Nat.digits_zero]
    case isFalse h =>
      have hpos : 0 < value := Nat.pos_of_ne_zero h
      rw [ih _ (Nat.div_lt_self hpos one_lt_ALPHABET_LEN), ← Nat.digits_def' one_lt_ALPHABET_LEN hpos]

theorem length_digits_le_iff {value k : ℕ} : (digits value).length ≤ k ↔ value < ALPHABET_LEN ^ k := by
  rw [digits_eq]
  exact Nat.digits_length_le_iff one_lt_ALPHABET_LEN value

theorem length_digits_mono {v w : ℕ} (h : v ≤ w) : (digits v).length ≤ (digits w).length :=
  length_digits_le_iff.2 (h.trans_lt (length_digits_le_iff.1 le_rfl))

theorem encodedLenForBytes_table : (List.range 9).map encodedLenForBytes = [0, 2, 3, 5, 6, 7, 9, 10, 11] := by
  simp [List.range_succ, encodedLenForBytes, digits, ALPHABET_LEN]

/-- As many characters as there are for a chunk of bytes are those of no other. -/
theorem encodedLenForBytes_inj {n m : ℕ} (hn : n ≤ BLOCK_LEN) (hm : m ≤ BLOCK_LEN)
    (h : encodedLenForBytes n = encodedLenForBytes m) :
    n = m := by
  have htable := encodedLenForBytes_table
  have hn : n < 9 := Nat.lt_succ_of_le hn
  have hm : m < 9 := Nat.lt_succ_of_le hm
  have hget : ∀ i < 9, some (encodedLenForBytes i) = [0, 2, 3, 5, 6, 7, 9, 10, 11][i]? := by
    intro i hi
    rw [← htable, List.getElem?_map, List.getElem?_range hi, Option.map_some]
  have hnodup : ∀ i < 9, ∀ j < 9, [0, 2, 3, 5, 6, 7, 9, 10, 11][i]? = [0, 2, 3, 5, 6, 7, 9, 10, 11][j]? → i = j := by decide
  exact hnodup n hn m hm (by rw [← hget n hn, ← hget m hm, h])

/-! ## The encoding of a chunk -/

/-- The characters of a number, of this many digits. -/
def chars (k value : ℕ) : List UInt8 := ((Nat.digitsAppend ALPHABET_LEN k value).map charOf).reverse

theorem beNat_lt (chunk : List UInt8) : beNat chunk < 2 ^ (chunk.length * 8) := by
  have h := leNat_lt chunk.reverse
  rw [List.length_reverse] at h
  rwa [beNat, Nat.mul_comm, pow_mul]

theorem length_digits_beNat (chunk : List UInt8) : (digits (beNat chunk)).length ≤ encodedLenForBytes chunk.length := by
  have h := beNat_lt chunk
  exact length_digits_mono (by omega)

theorem encodedLenForBytes_zero : encodedLenForBytes 0 = 0 := by
  have htable := congrArg (fun l => l[0]?) encodedLenForBytes_table
  simpa using htable

theorem encodedLenForBytes_BLOCK_LEN : encodedLenForBytes BLOCK_LEN = ENCODED_BLOCK_LEN := by
  have htable := congrArg (fun l => l[8]?) encodedLenForBytes_table
  change encodedLenForBytes 8 = 11
  simpa using htable

theorem encodedLenForBytes_le {n : ℕ} (h : n ≤ BLOCK_LEN) : encodedLenForBytes n ≤ ENCODED_BLOCK_LEN := by
  rw [← encodedLenForBytes_BLOCK_LEN]
  refine length_digits_mono (Nat.sub_le_sub_right (Nat.pow_le_pow_right (by omega) ?_) 1)
  omega

/-- A chunk is encoded by the digits of its value. -/
theorem encodeChunk_eq {chunk : List UInt8} (h : chunk.length ≤ BLOCK_LEN) :
    encodeChunk chunk = chars (encodedLenForBytes chunk.length) (beNat chunk) := by
  have hlen := length_digits_beNat chunk
  have hmax := encodedLenForBytes_le h
  rw [digits_eq] at hlen
  simp only [encodeChunk, digits_eq, chars]
  rw [List.take_append, List.length_map, List.take_of_length_le (by rw [List.length_map]; exact hlen), List.take_replicate,
    min_eq_left (by omega), Nat.digitsAppend, List.map_append, List.map_replicate]
  rfl

/-- The value of a chunk of characters is that of their digits. -/
theorem chunkValue_eq_some_digits {s : List UInt8} {value : ℕ} :
    chunkValue s = some value ↔ ∃ ds : List ℕ, (∀ d ∈ ds, d < ALPHABET_LEN) ∧ s = (ds.map charOf).reverse ∧
      Nat.ofDigits ALPHABET_LEN ds = value ∧ value < 2 ^ 64 := by
  induction s using List.reverseRecOn generalizing value with
  | nil =>
    constructor
    · intro h
      obtain rfl : 0 = value := Option.some.inj h
      exact ⟨[], by simp, rfl, rfl, by decide⟩
    · rintro ⟨ds, -, hs, hvalue, -⟩
      obtain rfl : ds = [] := by simpa using hs.symm
      exact congrArg some hvalue
  | append_singleton s c ih =>
    have hstep : chunkValue (s ++ [c]) = some value ↔ ∃ sum, chunkValue s = some sum ∧ ∃ digit, ALPHABET.idxOf? c = some digit ∧
        sum * ALPHABET_LEN + digit < 2 ^ 64 ∧ sum * ALPHABET_LEN + digit = value := by
      simp only [chunkValue, List.foldlM_append, List.foldlM_cons, List.foldlM_nil, Option.bind_eq_bind, Option.bind_eq_some_iff,
        Option.pure_def, Option.some.injEq, exists_eq_right, Option.ite_none_right_eq_some]
    rw [hstep]
    constructor
    · rintro ⟨sum, hsum, digit, hdigit, hlt, rfl⟩
      obtain ⟨ds, hds, rfl, rfl, -⟩ := ih.1 hsum
      obtain ⟨hdigitLt, rfl⟩ := idxOf_eq_some.1 hdigit
      refine ⟨digit :: ds, ?_, ?_, ?_, hlt⟩
      · intro d hd
        rcases List.mem_cons.1 hd with rfl | hd
        · exact hdigitLt
        · exact hds d hd
      · rw [List.map_cons, List.reverse_cons]
      · rw [Nat.ofDigits_cons]
        ring
    · rintro ⟨ds, hds, hs, rfl, hlt⟩
      cases ds with
      | nil => simp at hs
      | cons digit ds =>
        rw [List.map_cons, List.reverse_cons] at hs
        obtain ⟨rfl, hc⟩ := List.append_inj' hs rfl
        rw [Nat.ofDigits_cons] at hlt ⊢
        have hcomm : ALPHABET_LEN * Nat.ofDigits ALPHABET_LEN ds = Nat.ofDigits ALPHABET_LEN ds * ALPHABET_LEN := Nat.mul_comm _ _
        refine ⟨Nat.ofDigits ALPHABET_LEN ds, ih.2 ⟨ds, fun d hd => hds d (List.mem_cons_of_mem _ hd), rfl, rfl, ?_⟩, digit,
          idxOf_eq_some.2 ⟨hds digit List.mem_cons_self, (List.singleton_inj.1 hc).symm⟩, ?_, ?_⟩
        · have : Nat.ofDigits ALPHABET_LEN ds ≤ ALPHABET_LEN * Nat.ofDigits ALPHABET_LEN ds := Nat.le_mul_of_pos_left _ (by decide)
          omega
        · omega
        · omega

/-- Characters have a value if they are those of it. -/
theorem chunkValue_eq_some {s : List UInt8} {value : ℕ} :
    chunkValue s = some value ↔ value < 2 ^ 64 ∧ value < ALPHABET_LEN ^ s.length ∧ s = chars s.length value := by
  rw [chunkValue_eq_some_digits]
  constructor
  · rintro ⟨ds, hds, rfl, rfl, hlt⟩
    rw [List.length_reverse, List.length_map, chars]
    refine ⟨hlt, Nat.ofDigits_lt_base_pow_length one_lt_ALPHABET_LEN hds, ?_⟩
    rw [(Nat.setInvOn_digitsAppend_ofDigits one_lt_ALPHABET_LEN ds.length).1 ⟨rfl, hds⟩]
  · rintro ⟨hlt, hpow, hs⟩
    exact ⟨_, fun d => Nat.lt_of_mem_digitsAppend one_lt_ALPHABET_LEN s.length d, hs,
      (Nat.setInvOn_digitsAppend_ofDigits one_lt_ALPHABET_LEN s.length).2 hpow, hlt⟩

/-! ## The decoding of a chunk -/

/-- The bytes of a number, most significant first. -/
def beList (n value : ℕ) : List UInt8 := (leList n value).reverse

@[simp]
theorem length_beList (n value : ℕ) : (beList n value).length = n := by rw [beList, List.length_reverse, length_leList]

theorem beNat_beList {n value : ℕ} (h : value < 256 ^ n) : beNat (beList n value) = value := by
  rw [beNat, beList, List.reverse_reverse, leNat_leList, Nat.mod_eq_of_lt h]

theorem beList_beNat (chunk : List UInt8) : beList chunk.length (beNat chunk) = chunk := by
  have h := leList_leNat chunk.reverse
  rw [List.length_reverse] at h
  rw [beList, beNat, h, List.reverse_reverse]

theorem beList_add (unused n value : ℕ) : beList (n + unused) value = beList unused (value / 256 ^ n) ++ beList n value := by
  rw [beList, beList, beList, leList_add, List.reverse_append]

theorem all_zero_beList {n value : ℕ} (h : value < 256 ^ n) : (beList n value).all (· = 0) = true ↔ value = 0 := by
  rw [beList, List.all_reverse]
  induction n generalizing value with
  | zero => simp_all [leList]
  | succ n ih =>
    rw [pow_succ] at h
    rw [leList, List.all_cons, Bool.and_eq_true, ih (by omega), decide_eq_true_eq, ← UInt8.toNat_inj, UInt8.toNat_ofNat']
    change value % 256 % 256 = 0 ∧ _ ↔ _
    omega

theorem find_usedBytes {len n : ℕ} :
    (((List.range BLOCK_LEN).map (· + 1)).find? fun i => decide (encodedLenForBytes i = len)) = some n ↔
      0 < n ∧ n ≤ BLOCK_LEN ∧ encodedLenForBytes n = len := by
  constructor
  · intro h
    have hin := List.mem_of_find?_eq_some h
    obtain ⟨i, hi, rfl⟩ := List.mem_map.1 hin
    exact ⟨Nat.succ_pos i, List.mem_range.1 hi, by simpa using List.find?_some h⟩
  · rintro ⟨hpos, hle, hlen⟩
    have hin : n ∈ (List.range BLOCK_LEN).map (· + 1) := List.mem_map.2 ⟨n - 1, List.mem_range.2 (by omega), by omega⟩
    obtain ⟨m, hm⟩ := Option.isSome_iff_exists.1 ((List.find?_isSome (p := fun i => decide (encodedLenForBytes i = len))).2
      ⟨n, hin, decide_eq_true hlen⟩)
    obtain ⟨i, hi, rfl⟩ := List.mem_map.1 (List.mem_of_find?_eq_some hm)
    have hlen' : encodedLenForBytes (i + 1) = len := by simpa using List.find?_some hm
    have hn : i + 1 = n := encodedLenForBytes_inj (List.mem_range.1 hi) hle (hlen'.trans hlen.symm)
    rw [hm, hn]

/-- A chunk of characters is decoded to the bytes of its value, as many as there are for this many characters. -/
theorem decodeChunk_eq_some {s bytes : List UInt8} :
    decodeChunk s = some bytes ↔ 0 < bytes.length ∧ bytes.length ≤ BLOCK_LEN ∧ encodedLenForBytes bytes.length = s.length ∧
      chunkValue s = some (beNat bytes) := by
  have hstep : decodeChunk s = some bytes ↔ ∃ sum, chunkValue s = some sum ∧ ∃ n, (0 < n ∧ n ≤ BLOCK_LEN ∧
      encodedLenForBytes n = s.length) ∧ ((beList BLOCK_LEN sum).take (BLOCK_LEN - n)).all (· = 0) = true ∧
        (beList BLOCK_LEN sum).drop (BLOCK_LEN - n) = bytes := by
    simp only [decodeChunk, Option.bind_eq_bind, Option.bind_eq_some_iff, find_usedBytes, Option.ite_none_right_eq_some,
      Option.some.injEq, beList]
  have hsplit : ∀ sum n, n ≤ BLOCK_LEN → sum < 2 ^ 64 →
      ((((beList BLOCK_LEN sum).take (BLOCK_LEN - n)).all (· = 0) = true ↔ sum < 256 ^ n) ∧
        (beList BLOCK_LEN sum).drop (BLOCK_LEN - n) = beList n sum) := by
    intro sum n hn hlt
    have happend : beList BLOCK_LEN sum = beList (BLOCK_LEN - n) (sum / 256 ^ n) ++ beList n sum := by
      rw [← beList_add, Nat.add_sub_cancel' hn]
    have hquotient : sum / 256 ^ n < 256 ^ (BLOCK_LEN - n) := by
      refine Nat.div_lt_of_lt_mul ?_
      rw [← pow_add, Nat.add_sub_cancel' hn]
      exact hlt
    rw [happend, List.take_left' (length_beList _ _), List.drop_left' (length_beList _ _), all_zero_beList hquotient,
      Nat.div_eq_zero_iff]
    refine ⟨⟨fun h => h.resolve_left (by positivity), .inr⟩, rfl⟩
  rw [hstep]
  constructor
  · rintro ⟨sum, hsum, n, ⟨hpos, hle, hlen⟩, hall, rfl⟩
    obtain ⟨hzero, hdrop⟩ := hsplit sum n hle (chunkValue_eq_some.1 hsum).1
    rw [hdrop, length_beList, beNat_beList (hzero.1 hall)]
    exact ⟨hpos, hle, hlen, hsum⟩
  · rintro ⟨hpos, hle, hlen, hsum⟩
    obtain ⟨hzero, hdrop⟩ := hsplit (beNat bytes) bytes.length hle (chunkValue_eq_some.1 hsum).1
    refine ⟨_, hsum, _, ⟨hpos, hle, hlen⟩, hzero.2 ?_, hdrop.trans (beList_beNat bytes)⟩
    have := beNat_lt bytes
    rwa [Nat.mul_comm, pow_mul] at this

/-! ## Whole strings -/

theorem length_encodeChunk {bytes : List UInt8} (h : bytes.length ≤ BLOCK_LEN) :
    (encodeChunk bytes).length = encodedLenForBytes bytes.length := by
  rw [encodeChunk_eq h, chars, List.length_reverse, List.length_map,
    Nat.length_digitsAppend one_lt_ALPHABET_LEN _ (length_digits_le_iff.1 (length_digits_beNat bytes))]

/-- Decoding a chunk is the inverse of encoding it. -/
theorem decodeChunk_iff {s bytes : List UInt8} :
    decodeChunk s = some bytes ↔ 0 < bytes.length ∧ bytes.length ≤ BLOCK_LEN ∧ encodeChunk bytes = s := by
  rw [decodeChunk_eq_some]
  have hpow : ∀ n ≤ BLOCK_LEN, 2 ^ (n * 8) ≤ 2 ^ 64 := fun n hn => Nat.pow_le_pow_right (by omega) (Nat.mul_le_mul_right 8 hn)
  constructor
  · rintro ⟨hpos, hle, hlen, hvalue⟩
    obtain ⟨-, -, hs⟩ := chunkValue_eq_some.1 hvalue
    refine ⟨hpos, hle, ?_⟩
    rw [encodeChunk_eq hle, hlen]
    exact hs.symm
  · rintro ⟨hpos, hle, rfl⟩
    have hdigits := length_digits_le_iff.1 (length_digits_beNat bytes)
    have hlen := length_encodeChunk hle
    refine ⟨hpos, hle, hlen.symm, chunkValue_eq_some.2 ⟨(beNat_lt bytes).trans_le (hpow _ hle), ?_, ?_⟩⟩
    · rwa [hlen]
    · rw [hlen]
      exact encodeChunk_eq hle

/-- A chunk of bytes is whole if and only if its encoding is. -/
theorem length_encodeChunk_eq_iff {bytes : List UInt8} (h : bytes.length ≤ BLOCK_LEN) :
    (encodeChunk bytes).length = ENCODED_BLOCK_LEN ↔ bytes.length = BLOCK_LEN := by
  rw [length_encodeChunk h, ← encodedLenForBytes_BLOCK_LEN]
  exact ⟨encodedLenForBytes_inj h le_rfl, congrArg _⟩

theorem length_encodeChunk_pos {bytes : List UInt8} (hpos : 0 < bytes.length) (h : bytes.length ≤ BLOCK_LEN) :
    0 < (encodeChunk bytes).length := by
  rw [length_encodeChunk h, Nat.pos_iff_ne_zero]
  intro hzero
  exact hpos.ne' (encodedLenForBytes_inj h (Nat.zero_le _) (hzero.trans encodedLenForBytes_zero.symm))

/-- Decoding is the inverse of encoding. -/
theorem decode_iff {s bytes : List UInt8} : decode s = some bytes ↔ encode bytes = s := by
  have hstep : decode s = some bytes ↔
      ∃ cs, List.Forall₂ (fun c d => decodeChunk c = some d) (chunks ENCODED_BLOCK_LEN s) cs ∧ cs.flatten = bytes := by
    rw [decode, Option.map_eq_some_iff]
    simp only [Results.mapM_eq_some]
  rw [hstep]
  constructor
  · rintro ⟨cs, hcs, rfl⟩
    have hchunked : Chunked BLOCK_LEN cs := by
      refine (chunked_chunks (by decide) s).of_forall₂ (hcs.imp fun c d hd => ?_)
      obtain ⟨hpos, hle, rfl⟩ := decodeChunk_iff.1 hd
      exact ⟨hpos, hle, (length_encodeChunk_eq_iff hle).1⟩
    have hencoded : cs.map encodeChunk = chunks ENCODED_BLOCK_LEN s := by
      have heq := Lists.map_eq_map (f := id) (g := encodeChunk) (hcs.imp fun c d hd => (decodeChunk_iff.1 hd).2.2.symm)
      rw [← heq, List.map_id]
    rw [encode, chunks_flatten (by decide) hchunked, List.flatMap_def, hencoded, flatten_chunks]
  · rintro rfl
    set cs := chunks BLOCK_LEN bytes with hcs
    have hchunked : Chunked BLOCK_LEN cs := chunked_chunks (by decide) bytes
    have hlen : ∀ chunk ∈ cs, 0 < chunk.length ∧ chunk.length ≤ BLOCK_LEN := fun chunk => hchunked.length_of_mem (by decide)
    have hencoded : Chunked ENCODED_BLOCK_LEN (cs.map encodeChunk) := by
      refine hchunked.of_forall₂ (List.forall₂_map_right_iff.2 (List.forall₂_same.2 fun chunk hin => ?_))
      obtain ⟨hpos, hle⟩ := hlen chunk hin
      refine ⟨length_encodeChunk_pos hpos hle, ?_, (length_encodeChunk_eq_iff hle).2⟩
      exact (length_encodeChunk hle).le.trans (encodedLenForBytes_le hle)
    refine ⟨cs, ?_, flatten_chunks bytes⟩
    rw [encode, ← hcs, List.flatMap_def, chunks_flatten (by decide) hencoded]
    refine List.forall₂_map_left_iff.2 (List.forall₂_same.2 fun chunk hin => ?_)
    exact decodeChunk_iff.2 ⟨(hlen chunk hin).1, (hlen chunk hin).2, rfl⟩

/-- And so it is with a checksum. -/
theorem decodeCheck_iff {Γ : Ctx} {s bytes : List UInt8} : decodeCheck Γ s = some bytes ↔ encodeCheck Γ bytes = s := by
  have hstep : decodeCheck Γ s = some bytes ↔ ∃ res, encode res = s ∧ CHECKSUM_LEN ≤ res.length ∧
      (Γ.keccak256 (res.take (res.length - CHECKSUM_LEN))).toList.take CHECKSUM_LEN = res.drop (res.length - CHECKSUM_LEN) ∧
      res.take (res.length - CHECKSUM_LEN) = bytes := by
    simp only [decodeCheck, Option.bind_eq_bind, Option.bind_eq_some_iff, decode_iff, Option.ite_none_left_eq_some,
      Option.some.injEq, Nat.not_lt, not_not, ne_eq]
  rw [hstep, encodeCheck]
  constructor
  · rintro ⟨res, rfl, -, hchecksum, rfl⟩
    rw [hchecksum, List.take_append_drop]
  · rintro rfl
    have hlen : ((Γ.keccak256 bytes).toList.take CHECKSUM_LEN).length = CHECKSUM_LEN := by
      rw [List.length_take, Bytes.length_toList]
      rfl
    have hpos : (bytes ++ (Γ.keccak256 bytes).toList.take CHECKSUM_LEN).length - CHECKSUM_LEN = bytes.length := by
      rw [List.length_append, hlen, Nat.add_sub_cancel]
    refine ⟨_, rfl, ?_, ?_, ?_⟩
    · rw [List.length_append, hlen]
      exact Nat.le_add_left _ _
    · rw [hpos, List.take_left, List.drop_left]
    · rw [hpos, List.take_left]

end Base58

end MoneroOxide
