import Mathlib.Data.List.Basic
import Mathlib.Data.Nat.ModEq
import Mathlib.Tactic.Ring

/-!
# Byte strings of a fixed length and their little-endian values

`Bytes n` is a byte string that carries its length, so that a value of the wrong length cannot be built. `leNat` reads a byte
string as a little-endian number and `leBytes` writes one; on strings of one length they are inverse to each other.
-/

/-- A byte string of length `n`. -/
structure Bytes (n : ℕ) where
  toList : List UInt8
  length_eq : toList.length = n
  deriving DecidableEq, Repr

namespace Bytes

variable {n : ℕ}

@[ext]
theorem ext {a b : Bytes n} (h : a.toList = b.toList) : a = b := by
  cases a
  cases b
  simp_all

@[simp]
theorem toList_inj {a b : Bytes n} : a.toList = b.toList ↔ a = b := ⟨ext, congrArg _⟩

@[simp]
theorem length_toList (a : Bytes n) : a.toList.length = n := a.length_eq

/-- The byte string of `n` equal bytes. -/
def replicate (n : ℕ) (b : UInt8) : Bytes n := ⟨List.replicate n b, List.length_replicate⟩

instance : Inhabited (Bytes n) := ⟨replicate n 0⟩

/-- The first `k` bytes. -/
def take (k : ℕ) (b : Bytes n) (h : k ≤ n) : Bytes k := ⟨b.toList.take k, by simp [h]⟩

/-- Two byte strings of one length that start two equal lists are equal, and so are the rests. -/
theorem append_inj {a b : Bytes n} {s t : List UInt8} (h : a.toList ++ s = b.toList ++ t) : a = b ∧ s = t := by
  obtain ⟨h1, h2⟩ := List.append_inj h (by simp)
  exact ⟨ext h1, h2⟩

end Bytes

/-- The value of a byte string, least significant byte first. -/
def leNat : List UInt8 → ℕ
  | [] => 0
  | b :: bs => b.toNat + 256 * leNat bs

/-- The `n` least significant bytes of a number, least significant first. -/
def leList : ℕ → ℕ → List UInt8
  | 0, _ => []
  | n + 1, v => UInt8.ofNat (v % 256) :: leList n (v / 256)

@[simp]
theorem length_leList (n v : ℕ) : (leList n v).length = n := by
  induction n generalizing v with
  | zero => rfl
  | succ n ih => simp [leList, ih]

/-- The little-endian encoding of a number in `n` bytes. -/
def leBytes (n v : ℕ) : Bytes n := ⟨leList n v, length_leList n v⟩

theorem leNat_lt (bs : List UInt8) : leNat bs < 256 ^ bs.length := by
  induction bs with
  | nil => simp [leNat]
  | cons b bs ih =>
    have hb := b.toNat_lt
    simp only [leNat, List.length_cons, pow_succ]
    omega

/-- Zeros after the most significant byte do not change the value. -/
theorem leNat_append_replicate (bs : List UInt8) (n : ℕ) : leNat (bs ++ List.replicate n 0) = leNat bs := by
  induction bs with
  | nil =>
    induction n with
    | zero => rfl
    | succ n ih =>
      rw [List.nil_append, leNat] at ih
      rw [List.nil_append, List.replicate_succ, leNat, leNat, ih]
      rfl
  | cons b bs ih => rw [List.cons_append, leNat, ih, leNat]

/-- Writing a number and reading it back gives its remainder by `256 ^ n`. -/
theorem leNat_leList (n v : ℕ) : leNat (leList n v) = v % 256 ^ n := by
  induction n generalizing v with
  | zero => simp [leList, leNat, Nat.mod_one]
  | succ n ih =>
    have hb : (UInt8.ofNat (v % 256)).toNat = v % 256 := by
      rw [UInt8.toNat_ofNat']
      omega
    rw [leList, leNat, ih, hb, pow_succ', Nat.mod_mul]

/-- A byte of the value. -/
theorem leNat_div_mod (bs : List UInt8) (i : ℕ) : leNat bs / 256 ^ i % 256 = (bs.getD i 0).toNat := by
  induction bs generalizing i with
  | nil => simp [leNat]
  | cons b bs ih =>
    have hb := b.toNat_lt
    cases i with
    | zero =>
      rw [leNat, pow_zero, Nat.div_one, List.getD_cons_zero]
      omega
    | succ i =>
      have hdiv : (b.toNat + 256 * leNat bs) / 256 = leNat bs := by omega
      rw [leNat, pow_succ', ← Nat.div_div_eq_div_mul, hdiv, ih, List.getD_cons_succ]

/-- The bytes of a number are those of its remainder by `256 ^ n` and of its quotient. -/
theorem leList_add (n m v : ℕ) : leList (n + m) v = leList n v ++ leList m (v / 256 ^ n) := by
  induction n generalizing v with
  | zero => simp [leList]
  | succ n ih =>
    rw [Nat.add_right_comm, leList, ih, leList, List.cons_append, Nat.div_div_eq_div_mul, pow_succ']

/-- Reading a byte string and writing its value back gives the byte string. -/
theorem leList_leNat (bs : List UInt8) : leList bs.length (leNat bs) = bs := by
  induction bs with
  | nil => rfl
  | cons b bs ih =>
    have hb := b.toNat_lt
    have h1 : (b.toNat + 256 * leNat bs) % 256 = b.toNat := by omega
    have h2 : (b.toNat + 256 * leNat bs) / 256 = leNat bs := by omega
    simp only [List.length_cons, leNat, leList, h1, h2, ih]
    rw [UInt8.ofNat_toNat]

namespace Bytes

variable {n : ℕ}

/-- The little-endian value of a byte string. -/
def toNat (b : Bytes n) : ℕ := leNat b.toList

theorem toNat_lt (b : Bytes n) : b.toNat < 256 ^ n := by
  have h := leNat_lt b.toList
  rwa [length_toList] at h

@[simp]
theorem toNat_leBytes (v : ℕ) : (leBytes n v).toNat = v % 256 ^ n := leNat_leList n v

theorem toNat_leBytes_of_lt {v : ℕ} (h : v < 256 ^ n) : (leBytes n v).toNat = v := by
  rw [toNat_leBytes, Nat.mod_eq_of_lt h]

@[simp]
theorem leBytes_toNat (b : Bytes n) : leBytes n b.toNat = b := by
  apply ext
  have h := leList_leNat b.toList
  rwa [length_toList] at h

/-- The little-endian value determines the byte string. -/
theorem toNat_inj {a b : Bytes n} : a.toNat = b.toNat ↔ a = b := by
  refine ⟨fun h => ?_, congrArg _⟩
  rw [← leBytes_toNat a, h, leBytes_toNat]

end Bytes
