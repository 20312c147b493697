import Mathlib.Data.Nat.Bitwise
import MoneroOxide.Lemmas.Transaction
import MoneroOxide.Lib.Results
import MoneroOxide.VarInt

/-!
# The encoding of integers is canonical

For each type `VarInt` is implemented for, `VarInt::read` never panics, so that it is the reader on natural numbers
(`checkedReadLoop_eq`), and it stops within as many bytes as an integer of the type is written with (`readLoop_consumes`). Each
integer is then read in the one encoding `VarInt::write` gives it, and nothing else is read.
-/

namespace MoneroOxide

namespace VarInt

/-- What is left to read after a reader, whether it returned a value or not. -/
def leftBy {ε α : Type} : EStateM.Result ε (List UInt8) α → List UInt8
  | .ok _ rest => rest
  | .error _ rest => rest

/-- The result of a reader, as that of one which may panic. -/
def unchecked {α : Type} : EStateM.Result IoError (List UInt8) α → EStateM.Result (Failure IoError) (List UInt8) α
  | .ok a rest => .ok a rest
  | .error e rest => .error (.error e) rest

theorem and_VARINT_VALUE_MASK (b : UInt8) : (b &&& VARINT_VALUE_MASK).toNat = b.toNat % 128 := by
  rw [UInt8.toNat_and]
  exact Nat.and_two_pow_sub_one_eq_mod b.toNat 7

theorem and_VARINT_CONTINUATION_FLAG (b : UInt8) : b &&& VARINT_CONTINUATION_FLAG = VARINT_CONTINUATION_FLAG ↔ 128 ≤ b.toNat := by
  have hlt := b.toNat_lt
  have hand : b.toNat &&& 128 = (b.toNat.testBit 7).toNat * 128 := Nat.and_two_pow b.toNat 7
  have hbit : b.toNat.testBit 7 = decide (128 ≤ b.toNat) := by
    rw [Nat.testBit_eq_decide_div_mod_eq]
    exact decide_eq_decide.2 (by omega)
  rw [← UInt8.toNat_inj, UInt8.toNat_and]
  show b.toNat &&& 128 = 128 ↔ _
  rw [hand, hbit]
  by_cases h : 128 ≤ b.toNat <;> simp [h]

/-! ## No operator overflows -/

variable (platform : Platform)

/-- The count of the bits read fits in a `usize`. -/
theorem Platform.add_eq {bits : ℕ} (hb : bits < 64) : Checked.add platform.usizeBits bits 7 = .ok (bits + 7) := by
  refine Checked.add_eq (lt_of_lt_of_le ?_ (Nat.pow_le_pow_right Nat.two_pos platform.le_usizeBits))
  omega

/-- The bound on a byte is not shifted by eight bits or more, and the bits left are not negative. -/
theorem overflows_eq {uBits bits : ℕ} (hu : uBits ≤ 64) (hb : bits < uBits) (b : UInt8) :
    overflows platform uBits bits b = .ok (decide (uBits ≤ bits + 7 ∧ 2 ^ (uBits - bits) ≤ b.toNat)) := by
  rw [overflows, platform.add_eq (by omega), Results.ok_bind]
  by_cases hlast : uBits ≤ bits + 7
  · have hpow : 1 * 2 ^ (uBits - bits) < 2 ^ 8 := by
      rw [Nat.one_mul]
      exact Nat.pow_lt_pow_right (by omega) (by omega)
    rw [if_pos hlast, Checked.sub_eq (by omega), Results.ok_bind, Checked.shl_eq (by omega) hpow, Results.ok_bind, Nat.one_mul,
      Results.pure_eq]
    simp [hlast]
  · rw [if_neg hlast, Results.pure_eq]
    simp [hlast]

/-- The value of a byte, above the bits read so far, is of no more bits than the type. -/
theorem value_lt {uBits bits : ℕ} {b : UInt8} (hb : bits < uBits)
    (hfits : ¬(uBits ≤ bits + 7 ∧ 2 ^ (uBits - bits) ≤ b.toNat)) : (b.toNat % 128 + 1) * 2 ^ bits ≤ 2 ^ uBits := by
  have hleft : b.toNat % 128 + 1 ≤ 2 ^ (uBits - bits) := by
    by_cases hlast : uBits ≤ bits + 7
    · omega
    · have := le_two_pow_sub (show bits + 7 ≤ uBits by omega)
      have := Nat.two_pow_pos (uBits - (bits + 7))
      omega
  calc (b.toNat % 128 + 1) * 2 ^ bits ≤ 2 ^ (uBits - bits) * 2 ^ bits := Nat.mul_le_mul_right _ hleft
    _ = 2 ^ uBits := by rw [← pow_add, Nat.sub_add_cancel hb.le]

/-- The value of a byte is not shifted out of a `u64`, and adding it to the value read so far does not overflow. -/
theorem accumulate_eq {uBits bits res : ℕ} {b : UInt8} (hu : uBits ≤ 64) (hb : bits < uBits) (hres : res < 2 ^ bits)
    (hfits : ¬(uBits ≤ bits + 7 ∧ 2 ^ (uBits - bits) ≤ b.toNat)) :
    accumulate platform bits res b = .ok (bits + 7, res + b.toNat % 128 * 2 ^ bits) := by
  have hvalue := (value_lt hb hfits).trans (Nat.pow_le_pow_right (by omega) hu)
  have hpos := Nat.two_pow_pos bits
  rw [Nat.add_mul, Nat.one_mul] at hvalue
  rw [accumulate, and_VARINT_VALUE_MASK, Checked.shl_eq (by omega) (by omega), Results.ok_bind, Checked.add_eq (by omega),
    Results.ok_bind, platform.add_eq (by omega), Results.ok_bind, Results.pure_eq]

/-- No iteration panics: the loop is that on natural numbers. -/
theorem checkedReadLoop_eq {uBits bits res : ℕ} (hu : uBits ≤ 64) (hb : bits < uBits) (hres : res < 2 ^ bits) (s : List UInt8) :
    checkedReadLoop platform uBits bits res s = unchecked (readLoop uBits bits res s) := by
  induction s generalizing bits res with
  | nil => rfl
  | cons b s ih =>
    simp only [checkedReadLoop, readLoop, overflows_eq platform hu hb]
    by_cases hzero : bits ≠ 0 ∧ b = 0
    · rw [if_pos hzero, if_pos hzero]
      rfl
    rw [if_neg hzero, if_neg hzero]
    by_cases hfits : uBits ≤ bits + 7 ∧ 2 ^ (uBits - bits) ≤ b.toNat
    · simp only [decide_eq_true hfits, if_pos hfits]
      rfl
    simp only [decide_eq_false hfits, if_neg hfits, accumulate_eq platform hu hb hres hfits, and_VARINT_CONTINUATION_FLAG]
    by_cases hcontinues : 128 ≤ b.toNat
    · -- a byte which continues leaves more bits than its own
      have hnext : bits + 7 < uBits := by
        by_contra hlast
        have : 2 ^ (uBits - bits) ≤ 2 ^ 7 := Nat.pow_le_pow_right (by omega) (by omega)
        omega
      have hres' : res + b.toNat % 128 * 2 ^ bits < 2 ^ (bits + 7) := by
        have : b.toNat % 128 * 2 ^ bits ≤ 127 * 2 ^ bits := Nat.mul_le_mul_right _ (by omega)
        rw [pow_add]
        omega
      rw [if_pos hcontinues, if_pos hcontinues, ih hnext hres']
    · rw [if_neg hcontinues, if_neg hcontinues]
      split <;> rfl

/-! ## How much is read -/

/-- An iteration leaves what the rest of the loop leaves, so that no more bytes are read than are left of the upper bound. -/
theorem readLoop_consumes {uBits j : ℕ} (hb : 7 * j < uBits) (res : ℕ) (s : List UInt8) :
    ∃ consumed, s = consumed ++ leftBy (readLoop uBits (7 * j) res s) ∧ consumed.length + j ≤ upperBound uBits := by
  induction s generalizing j res with
  | nil => exact ⟨[], rfl, by rw [List.length_nil, upperBound]; omega⟩
  | cons b s ih =>
    have hone : ∃ consumed, b :: s = consumed ++ s ∧ consumed.length + j ≤ upperBound uBits :=
      ⟨[b], rfl, by rw [List.length_singleton, upperBound]; omega⟩
    rw [readLoop]
    by_cases hzero : 7 * j ≠ 0 ∧ b = 0
    · rwa [if_pos hzero]
    rw [if_neg hzero]
    by_cases hfits : uBits ≤ 7 * j + 7 ∧ 2 ^ (uBits - 7 * j) ≤ b.toNat
    · rwa [if_pos hfits]
    rw [if_neg hfits]
    by_cases hcontinues : 128 ≤ b.toNat
    · have hnext : 7 * (j + 1) < uBits := by
        by_contra hlast
        have : 2 ^ (uBits - 7 * j) ≤ 2 ^ 7 := Nat.pow_le_pow_right (by omega) (by omega)
        omega
      obtain ⟨consumed, hs, hlen⟩ := ih hnext (res + b.toNat % 128 * 2 ^ (7 * j))
      simp only [if_pos hcontinues]
      exact ⟨b :: consumed, congrArg (b :: ·) hs, by rw [List.length_cons]; omega⟩
    · simp only [if_neg hcontinues]
      split <;> exact hone

/-! ## The types -/

namespace IntType

variable {platform} {T : IntType}

theorem BITS_pos (platform : Platform) (T : IntType) : 0 < T.BITS platform := by
  cases T with
  | usize => exact lt_of_lt_of_le (by decide) platform.le_usizeBits
  | u8 | u32 | u64 => simp [BITS]

theorem BITS_le (platform : Platform) (T : IntType) : T.BITS platform ≤ 64 := by
  cases T with
  | usize => exact platform.usizeBits_le
  | u8 | u32 | u64 => simp [BITS]

theorem read_eq (platform : Platform) (T : IntType) (s : List UInt8) :
    T.read platform s = unchecked (VarInt.read (T.BITS platform) s) :=
  checkedReadLoop_eq platform (T.BITS_le platform) (T.BITS_pos platform) (by simp) s

theorem unchecked_eq_ok {α : Type} {r : EStateM.Result IoError (List UInt8) α} {a : α} {rest : List UInt8} :
    unchecked r = .ok a rest ↔ r = .ok a rest := by
  cases r <;> simp [unchecked]

theorem leftBy_unchecked {α : Type} (r : EStateM.Result IoError (List UInt8) α) : leftBy (unchecked r) = leftBy r := by
  cases r <;> rfl

theorem unchecked_ne_panic {α : Type} (r : EStateM.Result IoError (List UInt8) α) (message : String) (rest : List UInt8) :
    unchecked r ≠ .error (.panic message) rest := by
  cases r <;> simp [unchecked]

theorem read_ok {s rest : List UInt8} {n : ℕ} :
    T.read platform s = .ok n rest ↔ n < 2 ^ T.BITS platform ∧ s = write n ++ rest := by
  rw [read_eq, unchecked_eq_ok]
  exact (reads_read (T.BITS_pos platform)).iff

/-- The encoding of no integer starts with that of another. -/
theorem eq_of_write_append {m n : ℕ} {rest rest' : List UInt8} (h : write m ++ rest = write n ++ rest') : m = n := by
  have hlt : ∀ k, k ≤ m + n → k < 2 ^ (m + n + 1) := fun k hk => by
    have : m + n + 1 < 2 ^ (m + n + 1) := Nat.lt_two_pow_self
    omega
  have hread := reads_read (show 0 < m + n + 1 by omega)
  have hm := hread.read_back (hlt m (by omega)) rest
  rw [h, hread.read_back (hlt n (by omega)) rest'] at hm
  exact ((EStateM.Result.ok.injEq ..).mp hm).1.symm

/-- The encoding of the integers of a type is canonical. -/
structure Canonical (platform : Platform) (T : IntType) : Prop where
  /-- What is written is read back, and what follows it is left. -/
  read_write : ∀ n < 2 ^ T.BITS platform, ∀ rest, T.read platform (write n ++ rest) = .ok n rest
  /-- As many bytes are written as `varint_len` tells. -/
  length_write : ∀ n < 2 ^ T.BITS platform, (write n).length = varintLen n ∧ varintLen n ≤ T.UPPER_BOUND platform
  /-- Only an integer of the type is returned, and only for the bytes that are written for it. -/
  consumed_eq : ∀ s n rest, T.read platform s = .ok n rest → n < 2 ^ T.BITS platform ∧ s = write n ++ rest
  /-- What is written for an integer out of the range of the type is rejected. -/
  rejects : ∀ n, 2 ^ T.BITS platform ≤ n → ∀ rest n' rest', T.read platform (write n ++ rest) ≠ .ok n' rest'
  /-- No operator overflows. -/
  noPanic : ∀ s message rest, T.read platform s ≠ .error (.panic message) rest
  /-- Whether an integer is read or not, bytes are taken off the front, and at most as many as the upper bound. -/
  bounded : ∀ s, ∃ consumed, s = consumed ++ leftBy (T.read platform s) ∧ consumed.length ≤ T.UPPER_BOUND platform

/-- `VarInt` is canonical for each type it is implemented for, on every platform. -/
theorem varInt_canonical (platform : Platform) (T : IntType) : T.Canonical platform where
  read_write n hn rest := read_ok.2 ⟨hn, rfl⟩
  length_write n hn := by
    have hbits := T.BITS_pos platform
    refine ⟨VarInt.length_write n, (varintLen_le_iff ?_).2 (hn.trans_le (Nat.pow_le_pow_right (by omega) ?_))⟩
    · rw [UPPER_BOUND, upperBound]
      omega
    · rw [UPPER_BOUND, upperBound]
      omega
  consumed_eq s n rest h := read_ok.1 h
  rejects n hn rest n' rest' h := by
    obtain ⟨hn', hs⟩ := read_ok.1 h
    have := eq_of_write_append hs
    omega
  noPanic s message rest := by
    rw [read_eq]
    exact unchecked_ne_panic _ message rest
  bounded s := by
    have hconsumes := readLoop_consumes (j := 0) (T.BITS_pos platform) 0 s
    rw [read_eq, leftBy_unchecked]
    exact hconsumes

/-- A `u8` of eight bits takes a second byte, of which there is one bit. -/
example : let platform := { usizeBits := 64, le_usizeBits := by decide, usizeBits_le := le_rfl }
    IntType.u8.read platform [0xff, 0x01, 0x07] = .ok 255 [0x07] ∧
    IntType.u8.read platform [0xff, 0x02] = .error (.error (.other "varint overflow")) [] ∧
    IntType.u8.read platform [0x85, 0x00] = .error (.error (.other "non-canonical varint")) [] :=
  ⟨rfl, rfl, rfl⟩

end IntType

end VarInt

end MoneroOxide
