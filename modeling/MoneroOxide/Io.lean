import Mathlib.Data.Vector.Basic
import MoneroOxide.Lib.Bytes
import MoneroOxide.Lib.Reader

/-!
# Reading and writing (`io/src/lib.rs`, `io/src/varint.rs`)

A reader is a function on the bytes left to read. A writer is the list of bytes it writes, as writing to a `Vec<u8>` cannot
fail. `usize` is 64 bits wide, so a `usize` and a `u64` are both a `UInt64`; the length of a list is a natural number.

Each reader has one statement, `*_ok` or `reads_*`, in the form of `Reader.Reads`: it returns a value exactly when the input
starts with what the writer writes for it.
-/

namespace MoneroOxide

/-- What an `io::Error` carries: the end of the input, or the text given to `io::Error::other`. -/
inductive IoError where
  | unexpectedEof
  | other (message : String)
  deriving DecidableEq, Repr

/-- How a function ends when it does not return a value: with an error, or by panicking. -/
inductive Failure (ε : Type) where
  | error (e : ε)
  | panic (message : String)
  deriving DecidableEq, Repr

/-- The bytes of a text of ASCII characters. -/
def ascii (text : String) : List UInt8 := text.toList.map fun c => UInt8.ofNat c.toNat

/-- A function of `r: &mut impl Read` that returns an `io::Result`. -/
abbrev Read (α : Type) : Type := Reader IoError UInt8 α

/-- `read_bytes`: read a constant amount of bytes. A slice too short to fill the array is used up. -/
def readBytes (n : ℕ) : Read (Bytes n) := fun s =>
  if h : n ≤ s.length then .ok ⟨s.take n, List.length_take_of_le h⟩ (s.drop n) else .error .unexpectedEof []

/-- `read_byte`: read a single byte. -/
def readByte : Read UInt8
  | [] => .error .unexpectedEof []
  | b :: s => .ok b s

/-- `read_u32`: read a `u32`, little-endian encoded. -/
def readU32 : Read UInt32 := (fun b => UInt32.ofNat b.toNat) <$> readBytes 4

/-- `read_u64`: read a `u64`, little-endian encoded. -/
def readU64 : Read UInt64 := (fun b => UInt64.ofNat b.toNat) <$> readBytes 8

/-- `u32::to_le_bytes`. -/
def u32Bytes (n : UInt32) : Bytes 4 := leBytes 4 n.toNat

/-- `u64::to_le_bytes`. -/
def u64Bytes (n : UInt64) : Bytes 8 := leBytes 8 n.toNat

/-- `read_raw_vec`: read a list of elements, without length-prefixing. -/
def readRawVec {α : Type} (f : Read α) (len : ℕ) : Read (List α) := Reader.replicate f len

/-- `read_array`: read a constant amount of elements. -/
def readArray {α : Type} (f : Read α) : (n : ℕ) → Read (List.Vector α n)
  | 0 => pure .nil
  | n + 1 => do
    let a ← f
    let as ← readArray f n
    pure (a ::ᵥ as)

/-- `write_raw_vec`: write a list of elements, without length-prefixing. -/
def writeRawVec {α : Type} (f : α → List UInt8) (values : List α) : List UInt8 := values.flatMap f

namespace VarInt

/-- `VarInt::write`: seven bits a byte, least significant first, the continuation flag on every byte but the last. -/
def write (varint : ℕ) : List UInt8 :=
  if varint / 128 = 0 then [UInt8.ofNat (varint % 128)]
  else UInt8.ofNat (varint % 128 + 128) :: write (varint / 128)
termination_by varint
decreasing_by omega

/-- The loop of `VarInt::read` for an integer of `uBits` bits, with `bits` bits read so far and their value in `res`. -/
def readLoop (uBits : ℕ) : ℕ → ℕ → Read ℕ
  | _, _, [] => .error .unexpectedEof []
  | bits, res, b :: s =>
    -- Trailing zero bytes are rejected
    if bits ≠ 0 ∧ b = 0 then .error (.other "non-canonical varint") s
    else if uBits ≤ bits + 7 ∧ 2 ^ (uBits - bits) ≤ b.toNat then .error (.other "varint overflow") s
    else
      let res := res + b.toNat % 128 * 2 ^ bits
      if 128 ≤ b.toNat then readLoop uBits (bits + 7) res s
      else if res < 2 ^ uBits then .ok res s
      else .error (.other "VarInt does not fit into integer type") s

/-- `VarInt::read`: read a canonically-encoded VarInt of an integer type of `uBits` bits. -/
def read (uBits : ℕ) : Read ℕ := readLoop uBits 0 0

/-- `<u64 as VarInt>::read`, also used for `usize`. -/
def readU64 : Read UInt64 := UInt64.ofNat <$> read 64

/-- `<u8 as VarInt>::read`. -/
def readU8 : Read UInt8 := UInt8.ofNat <$> read 8

/-- `upper_bound`: the most bytes an integer of `bits` bits takes as a VarInt. -/
def upperBound (bits : ℕ) : ℕ := (bits + (7 - 1)) / 7

/-- `VarInt::varint_len`: the amount of bytes this number takes as a VarInt. -/
def varintLen (n : ℕ) : ℕ :=
  let bits := if n = 0 then 0 else n.log2 + 1
  max ((bits + (7 - 1)) / 7) 1

end VarInt

/-- `write_vec`: write a list of elements, with length-prefixing. -/
def writeVec {α : Type} (f : α → List UInt8) (values : List α) : List UInt8 :=
  VarInt.write values.length ++ writeRawVec f values

/-- `read_vec`: read a length-prefixed list of elements, of at most as many elements as the bound given, if one is. -/
def readVec {α : Type} (f : Read α) (lengthBound : Option ℕ) : Read (List α) := do
  let declaredLength ← VarInt.readU64
  match lengthBound with
  | some bound =>
    if bound < declaredLength.toNat then throw (.other "vector exceeds bound on length")
    else readRawVec f declaredLength.toNat
  | none => readRawVec f declaredLength.toNat

/-! ## What the readers read -/

@[simp]
theorem readBytes_ok {n : ℕ} {s rest : List UInt8} {b : Bytes n} :
    readBytes n s = .ok b rest ↔ s = b.toList ++ rest := by
  unfold readBytes
  constructor
  · intro h
    split at h
    · simp only [EStateM.Result.ok.injEq] at h
      obtain ⟨rfl, rfl⟩ := h
      exact (List.take_append_drop n s).symm
    · cases h
  · rintro rfl
    have hn : n ≤ (b.toList ++ rest).length := by simp
    rw [dif_pos hn]
    congr 1
    · exact Bytes.ext (List.take_left' b.length_toList)
    · exact List.drop_left' b.length_toList

@[simp]
theorem readByte_ok {s rest : List UInt8} {b : UInt8} : readByte s = .ok b rest ↔ s = b :: rest := by
  cases s with
  | nil => simp [readByte]
  | cons a s => simp [readByte]

theorem reads_readU32 : Reader.Reads readU32 (fun _ => True) fun n => (u32Bytes n).toList := by
  intro s n rest
  simp only [readU32, Reader.map_ok, readBytes_ok, true_and, u32Bytes]
  constructor
  · rintro ⟨b, rfl, rfl⟩
    have hb : b.toNat < 2 ^ 32 := by
      have := b.toNat_lt
      omega
    rw [UInt32.toNat_ofNat', Nat.mod_eq_of_lt hb, Bytes.leBytes_toNat]
  · rintro rfl
    refine ⟨leBytes 4 n.toNat, rfl, ?_⟩
    rw [Bytes.toNat_leBytes_of_lt (by have := n.toNat_lt; omega), UInt32.ofNat_toNat]

theorem reads_readU64 : Reader.Reads readU64 (fun _ => True) fun n => (u64Bytes n).toList := by
  intro s n rest
  simp only [readU64, Reader.map_ok, readBytes_ok, true_and, u64Bytes]
  constructor
  · rintro ⟨b, rfl, rfl⟩
    have hb : b.toNat < 2 ^ 64 := by
      have := b.toNat_lt
      omega
    rw [UInt64.toNat_ofNat', Nat.mod_eq_of_lt hb, Bytes.leBytes_toNat]
  · rintro rfl
    refine ⟨leBytes 8 n.toNat, rfl, ?_⟩
    rw [Bytes.toNat_leBytes_of_lt (by have := n.toNat_lt; omega), UInt64.ofNat_toNat]

namespace VarInt

/-- A value of at most seven bits is written as itself. -/
theorem write_of_lt {n : ℕ} (h : n < 128) : write n = [UInt8.ofNat n] := by
  rw [write, if_pos (by omega), Nat.mod_eq_of_lt h]

/-- A larger value is written as its low seven bits, flagged, and then the rest of it. -/
theorem write_of_le {n : ℕ} (h : 128 ≤ n) : write n = UInt8.ofNat (n % 128 + 128) :: write (n / 128) := by
  rw [write, if_neg (by omega)]

/-- The first byte of a written number, and what follows it. -/
theorem cons_eq_write_append {m : ℕ} {b : UInt8} {s rest : List UInt8} :
    b :: s = write m ++ rest ↔
      (m < 128 ∧ b.toNat = m ∧ s = rest) ∨ (128 ≤ m ∧ b.toNat = m % 128 + 128 ∧ s = write (m / 128) ++ rest) := by
  have hb : ∀ k : ℕ, k < 256 → (b = UInt8.ofNat k ↔ b.toNat = k) := by
    intro k hk
    rw [← UInt8.toNat_inj, UInt8.toNat_ofNat', Nat.mod_eq_of_lt hk]
  by_cases h : m < 128
  · rw [write_of_lt h, List.cons_append, List.cons.injEq, hb m (by omega), List.nil_append]
    constructor
    · rintro ⟨h1, h2⟩
      exact Or.inl ⟨h, h1, h2⟩
    · rintro (⟨-, h1, h2⟩ | ⟨h', -⟩)
      · exact ⟨h1, h2⟩
      · omega
  · rw [write_of_le (by omega), List.cons_append, List.cons.injEq, hb _ (by omega)]
    constructor
    · rintro ⟨h1, h2⟩
      exact Or.inr ⟨by omega, h1, h2⟩
    · rintro (⟨h', -⟩ | ⟨-, h1, h2⟩)
      · omega
      · exact ⟨h1, h2⟩

theorem write_ne_nil (m : ℕ) : write m ≠ [] := by
  rw [write]
  split <;> simp

/-- Seven bits below `bits` more than the bits of the type: the space left is at least a byte's payload. -/
theorem le_two_pow_sub {uBits bits : ℕ} (h : bits + 7 ≤ uBits) : 2 ^ (uBits - bits) = 128 * 2 ^ (uBits - (bits + 7)) := by
  rw [show uBits - bits = 7 + (uBits - (bits + 7)) by omega, pow_add]
  norm_num

/-- What the loop of `VarInt::read` returns, from any point: the bytes it reads are those of some `m`, which fits in the bits
left and is not zero unless these are the first bytes, and `m` is added above the bits read so far. -/
theorem readLoop_ok {uBits bits res n : ℕ} {s rest : List UInt8} (hb : bits < uBits) (hres : res < 2 ^ bits) :
    readLoop uBits bits res s = .ok n rest ↔
      ∃ m, n = res + m * 2 ^ bits ∧ m < 2 ^ (uBits - bits) ∧ (bits ≠ 0 → m ≠ 0) ∧ s = write m ++ rest := by
  induction s generalizing bits res with
  | nil =>
    simp only [readLoop, reduceCtorEq, false_iff, not_exists, not_and]
    intro m _ _ _ h
    exact write_ne_nil m (List.append_eq_nil_iff.1 h.symm).1
  | cons b s ih =>
    have hblt := b.toNat_lt
    -- The bits left hold at most one byte's payload, or seven bits more than what is left after this byte.
    have hleft : (uBits ≤ bits + 7 ∧ 2 ^ (uBits - bits) ≤ 128) ∨ bits + 7 < uBits := by
      rcases Nat.lt_or_ge (bits + 7) uBits with h | h
      · exact Or.inr h
      · refine Or.inl ⟨h, ?_⟩
        calc 2 ^ (uBits - bits) ≤ 2 ^ 7 := Nat.pow_le_pow_right (by omega) (by omega)
          _ = 128 := by norm_num
    have hzero : b = 0 ↔ b.toNat = 0 := by rw [← UInt8.toNat_inj]; rfl
    simp only [readLoop, cons_eq_write_append, hzero]
    by_cases h1 : bits ≠ 0 ∧ b.toNat = 0
    · rw [if_pos h1]
      simp only [reduceCtorEq, false_iff, not_exists, not_and]
      rintro m - - hm (⟨-, h, -⟩ | ⟨-, h, -⟩)
      · exact hm h1.1 (by omega)
      · omega
    rw [if_neg h1]
    by_cases h2 : uBits ≤ bits + 7 ∧ 2 ^ (uBits - bits) ≤ b.toNat
    · rw [if_pos h2]
      simp only [reduceCtorEq, false_iff, not_exists, not_and]
      rintro m - hlt - (⟨-, h, -⟩ | ⟨h, -⟩)
      · omega
      · omega
    rw [if_neg h2]
    by_cases h3 : 128 ≤ b.toNat
    · have h7 : bits + 7 < uBits := by omega
      have hpow : 2 ^ (bits + 7) = 128 * 2 ^ bits := by
        rw [pow_add]
        ring
      have hres' : res + b.toNat % 128 * 2 ^ bits < 2 ^ (bits + 7) := by
        have : b.toNat % 128 * 2 ^ bits ≤ 127 * 2 ^ bits := Nat.mul_le_mul_right _ (by omega)
        omega
      have hspace := le_two_pow_sub (show bits + 7 ≤ uBits by omega)
      rw [if_pos h3, ih h7 hres']
      constructor
      · rintro ⟨m, rfl, hlt, hne, rfl⟩
        refine ⟨b.toNat % 128 + 128 * m, by rw [hpow]; ring, by omega, by omega, Or.inr ⟨by omega, by omega, ?_⟩⟩
        rw [show (b.toNat % 128 + 128 * m) / 128 = m by omega]
      · rintro ⟨m, rfl, hlt, -, (⟨h, h', -⟩ | ⟨h, h', rfl⟩)⟩
        · omega
        · refine ⟨m / 128, ?_, by omega, by omega, rfl⟩
          have hm : m = b.toNat % 128 + 128 * (m / 128) := by omega
          conv_lhs => rw [hm]
          rw [hpow]
          ring
    · have hfit : b.toNat < 2 ^ (uBits - bits) := by
        rcases hleft with h | h
        · omega
        · have := le_two_pow_sub (show bits + 7 ≤ uBits by omega)
          have := Nat.two_pow_pos (uBits - (bits + 7))
          omega
      have hfits : res + b.toNat % 128 * 2 ^ bits < 2 ^ uBits := by
        have hmul : (b.toNat + 1) * 2 ^ bits ≤ 2 ^ (uBits - bits) * 2 ^ bits := Nat.mul_le_mul_right _ hfit
        rw [← pow_add, show uBits - bits + bits = uBits by omega] at hmul
        rw [show b.toNat % 128 = b.toNat by omega]
        rw [add_mul] at hmul
        omega
      rw [if_neg h3, if_pos hfits, EStateM.Result.ok.injEq]
      constructor
      · rintro ⟨rfl, rfl⟩
        exact ⟨b.toNat, by rw [Nat.mod_eq_of_lt (by omega)], hfit, by omega, Or.inl ⟨by omega, rfl, rfl⟩⟩
      · rintro ⟨m, rfl, -, -, (⟨-, h, rfl⟩ | ⟨-, h, -⟩)⟩
        · rw [Nat.mod_eq_of_lt (by omega), h]
          exact ⟨rfl, rfl⟩
        · omega

/-- `VarInt::read` reads exactly the numbers of the type, each in the one encoding `VarInt::write` gives it. -/
theorem reads_read {uBits : ℕ} (hu : 0 < uBits) : Reader.Reads (read uBits) (· < 2 ^ uBits) write := by
  intro s n rest
  rw [read, readLoop_ok hu (by simp)]
  simp

theorem reads_readU64 : Reader.Reads readU64 (fun _ => True) fun n => write n.toNat := by
  refine (reads_read (by omega)).map (g := UInt64.toNat) (fun n m => ?_) (fun m _ => rfl)
  constructor
  · rintro ⟨h, rfl⟩
    exact ⟨trivial, by rw [UInt64.toNat_ofNat', Nat.mod_eq_of_lt h]⟩
  · rintro ⟨-, rfl⟩
    exact ⟨m.toNat_lt, UInt64.ofNat_toNat⟩

theorem reads_readU8 : Reader.Reads readU8 (fun _ => True) fun n => write n.toNat := by
  refine (reads_read (by omega)).map (g := UInt8.toNat) (fun n m => ?_) (fun m _ => rfl)
  constructor
  · rintro ⟨h, rfl⟩
    exact ⟨trivial, by rw [UInt8.toNat_ofNat', Nat.mod_eq_of_lt h]⟩
  · rintro ⟨-, rfl⟩
    exact ⟨m.toNat_lt, UInt8.ofNat_toNat⟩

end VarInt

@[simp]
theorem VarInt.readU64_ok {s rest : List UInt8} {n : UInt64} :
    VarInt.readU64 s = .ok n rest ↔ s = VarInt.write n.toNat ++ rest := by
  simpa using VarInt.reads_readU64 s n rest

@[simp]
theorem VarInt.readU8_ok {s rest : List UInt8} {n : UInt8} :
    VarInt.readU8 s = .ok n rest ↔ s = VarInt.write n.toNat ++ rest := by
  simpa using VarInt.reads_readU8 s n rest

/-- The lengths `read_vec` accepts: those of a `usize`, within the bound if there is one. -/
def lengthOk (bound : Option ℕ) (n : ℕ) : Prop := n < 2 ^ 64 ∧ ∀ b, bound = some b → n ≤ b

section Vec

variable {α : Type} {f : Read α} {V : α → Prop} {w : α → List UInt8}

/-- Reading `len` elements reads the lists of `len` readable elements. -/
theorem reads_readRawVec (h : Reader.Reads f V w) (len : ℕ) :
    Reader.Reads (readRawVec f len) (fun xs => xs.length = len ∧ ∀ x ∈ xs, V x) (writeRawVec w) :=
  h.replicate len

/-- Reading an array reads the arrays of readable elements. -/
theorem reads_readArray (h : Reader.Reads f V w) (n : ℕ) :
    Reader.Reads (readArray f n) (fun xs => ∀ x ∈ xs.toList, V x) (fun xs => writeRawVec w xs.toList) := by
  induction n with
  | zero =>
    intro s xs rest
    simp [readArray, writeRawVec, Subsingleton.elim .nil xs]
  | succ n ih =>
    intro s xs rest
    obtain ⟨x, xs, rfl⟩ := xs.exists_eq_cons
    simp only [readArray, Reader.bind_ok, Reader.pure_ok, h.iff, ih.iff, writeRawVec, List.Vector.toList_cons,
      List.flatMap_cons, List.mem_cons, forall_eq_or_imp, List.append_assoc]
    constructor
    · rintro ⟨a, t, ⟨ha, rfl⟩, as, u, ⟨has, rfl⟩, hcons, rfl⟩
      have hinj := congrArg List.Vector.toList hcons
      simp only [List.Vector.toList_cons, List.cons.injEq] at hinj
      rw [← hinj.1, ← hinj.2]
      exact ⟨⟨ha, has⟩, rfl⟩
    · rintro ⟨⟨hx, hxs⟩, rfl⟩
      exact ⟨x, _, ⟨hx, rfl⟩, xs, rest, ⟨hxs, rfl⟩, rfl, rfl⟩

/-- Reading a length-prefixed list reads the lists of readable elements of an accepted length. -/
theorem reads_readVec (h : Reader.Reads f V w) (bound : Option ℕ) :
    Reader.Reads (readVec f bound) (fun xs => lengthOk bound xs.length ∧ ∀ x ∈ xs, V x) (writeVec w) := by
  have key : ∀ (n : UInt64) (s rest : List UInt8) (xs : List α),
      (match bound with
        | some b => if b < n.toNat then throw (.other "vector exceeds bound on length") else readRawVec f n.toNat
        | none => readRawVec f n.toNat : Read (List α)) s = .ok xs rest ↔
      (∀ b, bound = some b → n.toNat ≤ b) ∧ (xs.length = n.toNat ∧ ∀ x ∈ xs, V x) ∧ s = writeRawVec w xs ++ rest := by
    intro n s rest xs
    have hraw := reads_readRawVec h n.toNat s xs rest
    cases bound with
    | none => simp [hraw]
    | some b => simp [hraw]
  intro s xs rest
  simp only [readVec, Reader.bind_ok, VarInt.readU64_ok, key, writeVec, lengthOk]
  constructor
  · rintro ⟨n, t, rfl, hbound, ⟨hlen, hV⟩, rfl⟩
    refine ⟨⟨⟨?_, ?_⟩, hV⟩, by rw [hlen, List.append_assoc]⟩
    · rw [hlen]
      exact n.toNat_lt
    · rw [hlen]
      exact hbound
  · rintro ⟨⟨⟨hlt, hbound⟩, hV⟩, rfl⟩
    have hn : (UInt64.ofNat xs.length).toNat = xs.length := by rw [UInt64.toNat_ofNat', Nat.mod_eq_of_lt hlt]
    refine ⟨UInt64.ofNat xs.length, writeRawVec w xs ++ rest, ?_, ?_, ⟨hn.symm, hV⟩, rfl⟩
    · rw [hn, List.append_assoc]
    · rw [hn]
      exact hbound

end Vec

end MoneroOxide
