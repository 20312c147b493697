import Mathlib.Algebra.Module.ZMod
import Mathlib.Data.Stream.Init
import MoneroOxide.Elligator
import MoneroOxide.Io
import MoneroOxide.Order

/-!
# Ed25519 (`ed25519/src`)

The group, its encoding, and the hash function are not part of the repository: they are the parameters of `Ctx`, with the facts
about them the code relies on. A scalar is an integer modulo `ℓ`; the code keeps one as its canonical 32 bytes, which
`Scalar.toBytes` gives. A point may have a torsion component, so that multiplying a point by a scalar is multiplying it by the
scalar's representative below `ℓ`, which is what the curve library does. On the points of the prime-order subgroup
(`Ctx.TorsionFree`) this is the action of the field of scalars.
-/

namespace MoneroOxide

/-- `Scalar`: an integer modulo the order of the prime-order subgroup. -/
abbrev Scalar : Type := ZMod ℓ

/-- The scalar `2` is a numeral by it. -/
instance Scalar.atLeastTwo : Nat.AtLeastTwo 2 := ⟨le_rfl⟩

/-- `CompressedPoint`: 32 bytes, which need not be the encoding of a point. -/
abbrev CompressedPoint : Type := Bytes 32

namespace CompressedPoint

/-- `CompressedPoint::IDENTITY`. -/
def IDENTITY : CompressedPoint := leBytes 32 1

/-- `CompressedPoint::H`. -/
def H : CompressedPoint :=
  ⟨[139, 101,  89, 112,  21,  55, 153, 175,  42, 234, 220, 159, 241, 173, 208, 234,
    108, 114,  81, 213,  65,  84, 207, 169,  44,  23,  58,  13, 211, 156,  31, 148], rfl⟩

end CompressedPoint

/-- What a random number generator still has to give, in the blocks of 64 bytes that a random scalar takes. -/
abbrev Rng : Type := Stream' (Bytes 64)

/-- What the development takes from outside of the repository: the group of Ed25519 with the encoding of its points, the hash
function, and the generator seeded for reproducible randomness. -/
structure Ctx where
  /-- `curve25519_dalek::EdwardsPoint`. -/
  Point : Type
  [group : AddCommGroup Point]
  [decEq : DecidableEq Point]
  /-- The order of the curve is the cofactor times `ℓ`. -/
  order : ∀ P : Point, (8 * ℓ) • P = 0
  /-- `EdwardsPoint::compress`. -/
  compress : Point → CompressedPoint
  /-- `CompressedEdwardsY::decompress`, which also accepts encodings that are not the canonical one. -/
  decompress : CompressedPoint → Option Point
  decompress_compress : ∀ P, decompress (compress P) = some P
  compress_zero : compress 0 = CompressedPoint.IDENTITY
  /-- `ED25519_BASEPOINT_POINT`. -/
  G : Point
  order_G : ℓ • G = 0
  /-- The second generator of amount commitments. -/
  H : Point
  order_H : ℓ • H = 0
  compress_H : compress H = CompressedPoint.H
  /-- `MontgomeryPoint::to_edwards`: the point with a `u` coordinate and a sign, if there is one. -/
  toEdwards : Bytes 32 → UInt8 → Option Point
  toEdwards_isSome : ∀ u : ZMod p, u ≠ -1 → IsSquare (Elligator.curve u) → ∀ sign, (toEdwards (leBytes 32 u.val) sign).isSome
  /-- `Keccak256::digest`. -/
  keccak256 : List UInt8 → Bytes 32
  /-- `ChaCha20Rng::from_seed`. -/
  chaCha20 : Bytes 32 → Rng
  /-- `RecommendedTranscript::rng_seed`, of the labelled messages that were appended. -/
  rngSeed : List (List UInt8 × List UInt8) → Bytes 32
  /-- `SliceRandom::shuffle`: the order the elements of a slice of this length are put in. -/
  shuffle : Rng → (n : ℕ) → Equiv.Perm (Fin n)

instance (Γ : Ctx) : AddCommGroup Γ.Point := Γ.group

instance (Γ : Ctx) : DecidableEq Γ.Point := Γ.decEq

/-- `&Scalar * &EdwardsPoint`: the point may have a torsion component, which the representative below `ℓ` acts on. -/
instance (Γ : Ctx) : SMul Scalar Γ.Point := ⟨fun s P => s.val • P⟩

/-- `EdwardsPoint::is_torsion_free`: the point is of the prime-order subgroup. -/
def Ctx.TorsionFree (Γ : Ctx) (P : Γ.Point) : Prop := ℓ • P = 0

instance (Γ : Ctx) (P : Γ.Point) : Decidable (Γ.TorsionFree P) := inferInstanceAs (Decidable (ℓ • P = 0))

namespace Scalar

/-- `Scalar::to_bytes`: the canonical encoding. -/
def toBytes (s : Scalar) : Bytes 32 := leBytes 32 s.val

/-- `Scalar::write`. -/
def write (s : Scalar) : List UInt8 := (toBytes s).toList

/-- `Scalar::read`: 32 bytes that are the canonical encoding of a scalar. -/
def read : Read Scalar := do
  let bytes ← readBytes 32
  if bytes.toNat < ℓ then pure bytes.toNat else throw (.other "unreduced scalar")

/-- `curve25519_dalek::Scalar::from_bytes_mod_order`, and its wide variant. -/
def fromBytesModOrder {n : ℕ} (bytes : Bytes n) : Scalar := bytes.toNat

/-- `Scalar::random`: 64 bytes, reduced. -/
def random (rng : Rng) : Scalar × Rng := (fromBytesModOrder rng.head, rng.tail)

/-- `Scalar::hash`. The assertion that the result is not zero is left out: the hash function is opaque, and where zero would
matter the statement about it says so. -/
def hash (Γ : Ctx) (data : List UInt8) : Scalar := fromBytesModOrder (Γ.keccak256 data)

/-- `Scalar::INV_EIGHT`. -/
def INV_EIGHT : Scalar :=
  fromBytesModOrder ⟨[121,  47, 220, 226,  41, 229,   6,  97, 208, 218,  28, 125, 179, 157, 211,   7,
      0,   0,   0,   0,   0,   0,   0,   0,   0,   0,   0,   0,   0,   0,   0,   6], rfl⟩

end Scalar

/-- `UnreducedScalar`: 32 bytes that need not be reduced. -/
abbrev UnreducedScalar : Type := Bytes 32

namespace CompressedPoint

/-- `CompressedPoint::read`. -/
def read : Read CompressedPoint := readBytes 32

/-- `CompressedPoint::write`. -/
def write (P : CompressedPoint) : List UInt8 := P.toList

/-- `CompressedPoint::decompress`: encodings which are either unreduced or of negative zero are refused. -/
def decompress (Γ : Ctx) (P : CompressedPoint) : Option Γ.Point :=
  (Γ.decompress P).filter fun point => Γ.compress point = P

end CompressedPoint

/-- The field element `Point::biased_hash` starts from. -/
def Point.hashToField (Γ : Ctx) (bytes : Bytes 32) : ZMod p := (Γ.keccak256 bytes.toList).toNat

/-- `Point::biased_hash`: Monero's hash to a point, of the prime-order subgroup. The point expected is there by
`Elligator.isSquare_curve_u`. -/
def Point.biasedHash (Γ : Ctx) (bytes : Bytes 32) : Γ.Point :=
  let r := hashToField Γ bytes
  let res := Γ.toEdwards (leBytes 32 (Elligator.u r).val) (if Elligator.epsilon r then 1 else 0)
  (8 : ℕ) • res.get (Γ.toEdwards_isSome _ (Elligator.ne_neg_one (Elligator.isSquare_curve_u r)) (Elligator.isSquare_curve_u r) _)

/-- `Point::key_image`: a point that may be a key image is of the prime-order subgroup and not the identity. -/
def Point.keyImage (Γ : Ctx) (P : Γ.Point) : Option Γ.Point :=
  if P = 0 ∨ ¬Γ.TorsionFree P then none else some P

/-- `Commitment`: the opening of a Pedersen commitment to an amount. -/
structure Commitment where
  mask : Scalar
  amount : UInt64
  deriving DecidableEq

namespace Commitment

/-- `Commitment::zero`. -/
def zero : Commitment := { mask := 1, amount := 0 }

/-- `u64` as a scalar. -/
def amountScalar (amount : UInt64) : Scalar := amount.toNat

/-- `Commitment::commit`. -/
def commit (Γ : Ctx) (c : Commitment) : Γ.Point := c.mask • Γ.G + amountScalar c.amount • Γ.H

/-- `Commitment::write`. -/
def write (c : Commitment) : List UInt8 := c.mask.write ++ (u64Bytes c.amount).toList

/-- `Commitment::read`. -/
def read : Read Commitment := do
  let mask ← Scalar.read
  let amount ← readU64
  pure { mask, amount }

end Commitment

/-! ## Encodings -/

theorem ℓ_lt : ℓ < 256 ^ 32 := by decide +kernel

theorem Scalar.val_lt (s : Scalar) : s.val < 256 ^ 32 := lt_trans (ZMod.val_lt s) ℓ_lt

theorem Scalar.toNat_toBytes (s : Scalar) : (Scalar.toBytes s).toNat = s.val :=
  Bytes.toNat_leBytes_of_lt (Scalar.val_lt s)

theorem reads_bytes (n : ℕ) : Reader.Reads (readBytes n) (fun _ => True) Bytes.toList := by
  intro s b rest
  simp

/-- `Scalar::read` reads every scalar, in its canonical encoding only. -/
theorem Scalar.reads_read : Reader.Reads Scalar.read (fun _ => True) Scalar.write := by
  intro s a rest
  simp only [Scalar.read, Reader.bind_ok, readBytes_ok, Reader.ite_ok, Reader.pure_ok, Reader.throw_ok, true_and, and_false,
    or_false, Scalar.write]
  constructor
  · rintro ⟨b, t, rfl, hlt, rfl, rfl⟩
    rw [Scalar.toBytes, ZMod.val_natCast_of_lt hlt, Bytes.leBytes_toNat]
  · rintro rfl
    refine ⟨a.toBytes, rest, rfl, ?_, ?_, rfl⟩
    · rw [Scalar.toNat_toBytes]
      exact ZMod.val_lt a
    · rw [Scalar.toNat_toBytes, ZMod.natCast_zmod_val]

@[simp]
theorem Scalar.read_ok {s rest : List UInt8} {a : Scalar} : Scalar.read s = .ok a rest ↔ s = a.write ++ rest := by
  simpa using Scalar.reads_read s a rest

@[simp]
theorem CompressedPoint.read_ok {s rest : List UInt8} {P : CompressedPoint} :
    CompressedPoint.read s = .ok P rest ↔ s = P.write ++ rest := readBytes_ok

theorem CompressedPoint.reads_read : Reader.Reads CompressedPoint.read (fun _ => True) CompressedPoint.write := reads_bytes 32

theorem CompressedPoint.decompress_compress (Γ : Ctx) (P : Γ.Point) :
    CompressedPoint.decompress Γ (Γ.compress P) = some P := by
  simp [CompressedPoint.decompress, Γ.decompress_compress]

theorem CompressedPoint.decompress_eq_some {Γ : Ctx} {c : CompressedPoint} {P : Γ.Point} :
    CompressedPoint.decompress Γ c = some P ↔ Γ.compress P = c := by
  constructor
  · intro h
    simp only [CompressedPoint.decompress, Option.filter_eq_some_iff, decide_eq_true_eq] at h
    exact h.2
  · rintro rfl
    exact decompress_compress Γ P

theorem Ctx.compress_injective (Γ : Ctx) : Function.Injective Γ.compress := by
  intro P Q h
  have := Γ.decompress_compress P
  rw [h, Γ.decompress_compress Q] at this
  exact (Option.some.inj this).symm

/-! ## Multiplication of points by scalars

The action distributes over the sum of points for every point. It distributes over the sum of scalars, and is that of the
product, for the points of the prime-order subgroup only.
-/

namespace Scalar

variable {Γ : Ctx}

theorem smul_def (s : Scalar) (P : Γ.Point) : s • P = s.val • P := rfl

protected theorem smul_add (s : Scalar) (P Q : Γ.Point) : s • (P + Q) = s • P + s • Q := nsmul_add P Q s.val

protected theorem smul_zero (s : Scalar) : s • (0 : Γ.Point) = 0 := nsmul_zero s.val

protected theorem smul_neg (s : Scalar) (P : Γ.Point) : s • (-P) = -(s • P) := smul_neg s.val P

protected theorem smul_sub (s : Scalar) (P Q : Γ.Point) : s • (P - Q) = s • P - s • Q := smul_sub s.val P Q

protected theorem zero_smul (P : Γ.Point) : (0 : Scalar) • P = 0 := by
  rw [smul_def, ZMod.val_zero, zero_nsmul]

protected theorem one_smul (P : Γ.Point) : (1 : Scalar) • P = P := by
  rw [smul_def, ZMod.val_one'' (Nat.Prime.ne_one prime_ℓ), one_nsmul]

protected theorem smul_comm (s t : Scalar) (P : Γ.Point) : s • t • P = t • s • P := by
  simp only [smul_def, smul_smul, Nat.mul_comm]

end Scalar

namespace Ctx

variable (Γ : Ctx)

/-- The prime-order subgroup. -/
def primeSubgroup : AddSubgroup Γ.Point where
  carrier := {P | Γ.TorsionFree P}
  zero_mem' := nsmul_zero ℓ
  add_mem' := by
    intro P Q (hP : ℓ • P = 0) (hQ : ℓ • Q = 0)
    show ℓ • (P + Q) = 0
    rw [nsmul_add, hP, hQ, add_zero]
  neg_mem' := by
    intro P (hP : ℓ • P = 0)
    show ℓ • (-P) = 0
    rw [smul_neg, hP, neg_zero]

/-- The prime-order subgroup is a vector space over the scalars. -/
instance : Module Scalar Γ.primeSubgroup := AddCommGroup.zmodModule fun P => Subtype.ext P.2

variable {Γ}

/-- The two actions of the scalars agree on the prime-order subgroup. -/
@[simp]
theorem coe_smul (s : Scalar) (P : Γ.primeSubgroup) : ((s • P : Γ.primeSubgroup) : Γ.Point) = s • (P : Γ.Point) := by
  have : s • P = s.val • P := by
    conv_lhs => rw [← ZMod.natCast_zmod_val s]
    exact Nat.cast_smul_eq_nsmul Scalar s.val P
  rw [this]
  rfl

theorem torsionFree_G : Γ.TorsionFree Γ.G := Γ.order_G

theorem torsionFree_H : Γ.TorsionFree Γ.H := Γ.order_H

theorem TorsionFree.zero : Γ.TorsionFree (0 : Γ.Point) := Γ.primeSubgroup.zero_mem

theorem TorsionFree.add {P Q : Γ.Point} (hP : Γ.TorsionFree P) (hQ : Γ.TorsionFree Q) : Γ.TorsionFree (P + Q) :=
  Γ.primeSubgroup.add_mem hP hQ

theorem TorsionFree.sub {P Q : Γ.Point} (hP : Γ.TorsionFree P) (hQ : Γ.TorsionFree Q) : Γ.TorsionFree (P - Q) :=
  Γ.primeSubgroup.sub_mem hP hQ

theorem TorsionFree.smul {P : Γ.Point} (hP : Γ.TorsionFree P) (s : Scalar) : Γ.TorsionFree (s • P) :=
  Γ.primeSubgroup.nsmul_mem hP s.val

theorem torsionFree_biasedHash (bytes : Bytes 32) : Γ.TorsionFree (Point.biasedHash Γ bytes) := by
  show ℓ • (8 : ℕ) • _ = (0 : Γ.Point)
  rw [smul_smul, Nat.mul_comm]
  exact Γ.order _

theorem torsionFree_commit (c : Commitment) : Γ.TorsionFree (c.commit Γ) :=
  (torsionFree_G.smul _).add (torsionFree_H.smul _)

section TorsionFree

variable {P : Γ.Point} (hP : Γ.TorsionFree P) (s t : Scalar)

include hP

protected theorem TorsionFree.add_smul : (s + t) • P = s • P + t • P := by
  have := congrArg Subtype.val (add_smul s t (⟨P, hP⟩ : Γ.primeSubgroup))
  simpa using this

protected theorem TorsionFree.sub_smul : (s - t) • P = s • P - t • P := by
  have := congrArg Subtype.val (sub_smul s t (⟨P, hP⟩ : Γ.primeSubgroup))
  simpa using this

protected theorem TorsionFree.mul_smul : (s * t) • P = s • t • P := by
  have := congrArg Subtype.val (mul_smul s t (⟨P, hP⟩ : Γ.primeSubgroup))
  simpa using this

/-- A scalar times a point other than the identity is the identity for zero only. -/
protected theorem TorsionFree.smul_eq_zero : s • P = 0 ↔ s = 0 ∨ P = 0 := by
  have := smul_eq_zero (r := s) (m := (⟨P, hP⟩ : Γ.primeSubgroup))
  rw [← Subtype.coe_inj, coe_smul, ← Subtype.coe_inj] at this
  exact this

end TorsionFree

end Ctx

/-- `INV_EIGHT` is what it is called. -/
theorem Scalar.eight_mul_inv_eight : (8 : Scalar) * Scalar.INV_EIGHT = 1 := by
  have h : (8 * leNat [121,  47, 220, 226,  41, 229,   6,  97, 208, 218,  28, 125, 179, 157, 211,   7,
      0,   0,   0,   0,   0,   0,   0,   0,   0,   0,   0,   0,   0,   0,   0,   6]) % ℓ = 1 := by decide +kernel
  have h' := (ZMod.natCast_eq_natCast_iff' _ 1 ℓ).2 (h.trans (Nat.mod_eq_of_lt prime_ℓ.one_lt).symm)
  push_cast at h'
  exact h'

theorem eight_smul {Γ : Ctx} (P : Γ.Point) : (8 : ℕ) • P = (8 : Scalar) • P := by
  have h : (8 : Scalar).val = 8 := ZMod.val_natCast_of_lt (by decide +kernel : 8 < ℓ)
  rw [Scalar.smul_def, h]

/-- Multiplying by the inverse of the cofactor and by the cofactor gives a point of the prime-order subgroup back. -/
theorem eight_smul_inv_eight {Γ : Ctx} {P : Γ.Point} (hP : Γ.TorsionFree P) : (8 : ℕ) • Scalar.INV_EIGHT • P = P := by
  rw [eight_smul, ← hP.mul_smul, Scalar.eight_mul_inv_eight, Scalar.one_smul]

end MoneroOxide
