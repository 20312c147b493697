import MoneroOxide.Ed25519

/-!
# A context

The assumptions of `Ctx` can be met: here by the integers modulo `8 * ℓ`, with an encoding that is their value except for the
second generator. The hash function is constant. Statements with assumptions are shown not to be empty over this context.
-/

namespace MoneroOxide

namespace Instance

/-- The points: the cyclic group of the order of the curve. -/
abbrev Point : Type := ZMod (8 * ℓ)

/-- The second generator. -/
def H : Point := 16

/-- The encoding: one more than the value, so that the identity is encoded as it should be, and `CompressedPoint.H` for `H`. -/
def compress (P : Point) : CompressedPoint := if P = H then CompressedPoint.H else leBytes 32 (P.val + 1)

/-- The decoding. -/
def decompress (c : CompressedPoint) : Option Point :=
  if c = CompressedPoint.H then some H
  else if 1 ≤ c.toNat ∧ c.toNat ≤ 8 * ℓ then some ((c.toNat - 1 : ℕ) : Point)
  else none

instance : NeZero (8 * ℓ) := ⟨by decide +kernel⟩

theorem val_add_one_lt (P : Point) : P.val + 1 < 256 ^ 32 := by
  have hP : P.val < 8 * ℓ := ZMod.val_lt P
  have h : 8 * ℓ + 1 < 256 ^ 32 := by decide +kernel
  omega

theorem toNat_H : 8 * ℓ < CompressedPoint.H.toNat := by decide +kernel

theorem decompress_compress (P : Point) : decompress (compress P) = some P := by
  unfold compress
  by_cases h : P = H
  · rw [if_pos h, decompress, if_pos rfl, h]
  · have hval := ZMod.val_lt P
    have htoNat : (leBytes 32 (P.val + 1)).toNat = P.val + 1 := Bytes.toNat_leBytes_of_lt (val_add_one_lt P)
    have hne : leBytes 32 (P.val + 1) ≠ CompressedPoint.H := by
      intro e
      have := toNat_H
      rw [← e, htoNat] at this
      omega
    rw [if_neg h, decompress, if_neg hne, htoNat, if_pos (by omega), Nat.add_sub_cancel, ZMod.natCast_zmod_val]

theorem nsmul_eq_zero (P : Point) : (8 * ℓ) • P = 0 := by
  rw [nsmul_eq_mul, ZMod.natCast_self, zero_mul]

theorem ℓ_nsmul_eight (k : ℕ) : ℓ • ((8 * k : ℕ) : Point) = 0 := by
  have h : ℓ • ((8 * k : ℕ) : Point) = (8 * ℓ) • (k : Point) := by
    rw [nsmul_eq_mul, nsmul_eq_mul, ← Nat.cast_mul, ← Nat.cast_mul]
    congr 1
    ring
  rw [h, nsmul_eq_zero]

end Instance

open Instance in
/-- A context over the cyclic group of the order of the curve. -/
def instanceCtx : Ctx where
  Point := Instance.Point
  order := nsmul_eq_zero
  compress := compress
  decompress := decompress
  decompress_compress := decompress_compress
  compress_zero := by
    have h : (0 : Instance.Point) ≠ Instance.H := by decide +kernel
    rw [compress, if_neg h, ZMod.val_zero]
    rfl
  G := ((8 * 1 : ℕ) : Instance.Point)
  order_G := ℓ_nsmul_eight 1
  H := Instance.H
  order_H := ℓ_nsmul_eight 2
  compress_H := if_pos rfl
  toEdwards := fun _ _ => some 1
  toEdwards_isSome := fun _ _ _ _ => rfl
  keccak256 := fun _ => leBytes 32 1
  chaCha20 := fun _ => Stream'.const (Bytes.replicate 64 0)
  rngSeed := fun _ => Bytes.replicate 32 0
  shuffle := fun _ _ => 1

/-- In this context every hash to a point is the first generator. -/
theorem biasedHash_instanceCtx (bytes : Bytes 32) : Point.biasedHash instanceCtx bytes = instanceCtx.G := by
  show (8 : ℕ) • (1 : Instance.Point) = ((8 * 1 : ℕ) : Instance.Point)
  simp

/-- In this context every hash to a scalar is one. -/
theorem hash_instanceCtx (data : List UInt8) : Scalar.hash instanceCtx data = 1 := by
  change ((leBytes 32 1).toNat : Scalar) = 1
  rw [Bytes.toNat_leBytes_of_lt (by norm_num), Nat.cast_one]

theorem instanceCtx_G_ne_zero : instanceCtx.G ≠ 0 := by
  show ((8 * 1 : ℕ) : Instance.Point) ≠ 0
  rw [ne_eq, ZMod.natCast_eq_zero_iff]
  decide +kernel

end MoneroOxide
