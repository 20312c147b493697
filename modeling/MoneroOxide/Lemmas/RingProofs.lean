import MoneroOxide.Ed25519
import MoneroOxide.Lib.ChallengeRing
import MoneroOxide.Lib.Schnorr

/-!
# What a ring signature proves

A ring signature is unforgeable because whoever is able to sign for two hash functions, which differ on the strings a challenge is
hashed of only, gives the secrets of a member of the ring away: this is what `Ctx.withHash` and `AgreesOnPoints` are for. Points may
have a torsion component, so that what is known of a key is known after its cofactor has been cleared.
-/

namespace MoneroOxide

variable (Γ : Ctx)

/-- The same curve, with another hash function. -/
abbrev Ctx.withHash (h : List UInt8 → Bytes 32) : Ctx := { Γ with keccak256 := h }

/-- The hash functions agree on the strings which are as long as the encoding of a point. -/
def AgreesOnPoints (h : List UInt8 → Bytes 32) : Prop := ∀ s : List UInt8, s.length = 32 → h s = Γ.keccak256 s

/-- The hash functions give different challenges for one of the strings. -/
def Forks (h : List UInt8 → Bytes 32) (strings : List (List UInt8)) : Prop :=
  ∃ s ∈ strings, Scalar.hash Γ s ≠ Scalar.hash (Γ.withHash h) s

variable {Γ}

section WithHash

variable {h : List UInt8 → Bytes 32} (hh : AgreesOnPoints Γ h)

include hh

theorem AgreesOnPoints.biasedHash (bytes : Bytes 32) : Point.biasedHash (Γ.withHash h) bytes = Point.biasedHash Γ bytes := by
  have hfield : Point.hashToField (Γ.withHash h) bytes = Point.hashToField Γ bytes := by
    simp only [Point.hashToField, hh bytes.toList (Bytes.length_toList bytes)]
  unfold Point.biasedHash
  simp only [hfield]

theorem AgreesOnPoints.hash (P : CompressedPoint) : Scalar.hash (Γ.withHash h) P.toList = Scalar.hash Γ P.toList := by
  simp only [Scalar.hash, hh P.toList (Bytes.length_toList P)]

end WithHash

/-! ## Clearing the cofactor -/

variable (Γ) in
/-- A point without its torsion component, up to the cofactor. -/
def Ctx.clear : Γ.Point →+ Γ.primeSubgroup where
  toFun P := ⟨(8 : ℕ) • P, by
    show ℓ • (8 : ℕ) • P = 0
    rw [smul_smul, Nat.mul_comm]
    exact Γ.order P⟩
  map_zero' := Subtype.ext (nsmul_zero 8)
  map_add' P Q := Subtype.ext (nsmul_add P Q 8)

theorem Ctx.coe_clear (P : Γ.Point) : (Γ.clear P : Γ.Point) = (8 : ℕ) • P := rfl

@[simp]
theorem Ctx.clear_smul (s : Scalar) (P : Γ.Point) : Γ.clear (s • P) = s • Γ.clear P := by
  apply Subtype.ext
  rw [coe_smul, coe_clear, coe_clear, Scalar.smul_def, Scalar.smul_def, smul_smul, smul_smul, Nat.mul_comm]

/-- A point of the prime-order subgroup is known from what clearing its cofactor leaves. -/
theorem Ctx.clear_inj {P Q : Γ.Point} (hP : Γ.TorsionFree P) (hQ : Γ.TorsionFree Q) (h : Γ.clear P = Γ.clear Q) : P = Q := by
  have h8 : (8 : Scalar) • (P - Q) = 0 := by
    rw [← eight_smul, nsmul_sub, ← coe_clear, ← coe_clear, h, sub_self]
  rcases ((hP.sub hQ).smul_eq_zero 8).1 h8 with h0 | h0
  · have h1 := Scalar.eight_mul_inv_eight
    rw [h0, zero_mul] at h1
    exact absurd h1 zero_ne_one
  · exact sub_eq_zero.1 h0

/-! ## Openings -/

variable (Γ) in
/-- `x` is the discrete logarithm of the point, up to a torsion component. -/
def HasLog (x : Scalar) (P : Γ.Point) : Prop := Γ.clear P = x • Γ.clear Γ.G

variable (Γ) in
/-- `x` is the secret of an output with this key, and this is its key image. -/
def Opens (x : Scalar) (key keyImage : Γ.Point) : Prop :=
  HasLog Γ x key ∧ keyImage = x • Point.biasedHash Γ (Γ.compress key)

/-- A key image which is read is of the prime-order subgroup. -/
theorem keyImage_eq_some {bytes : CompressedPoint} {I : Γ.Point} :
    (CompressedPoint.decompress Γ bytes).bind (Point.keyImage Γ) = some I ↔
      CompressedPoint.decompress Γ bytes = some I ∧ I ≠ 0 ∧ Γ.TorsionFree I := by
  rw [Option.bind_eq_some_iff]
  constructor
  · rintro ⟨P, hP, hI⟩
    unfold Point.keyImage at hI
    obtain ⟨hvalid, ⟨⟩⟩ := Option.ite_none_left_eq_some.1 hI
    rw [not_or, not_not] at hvalid
    exact ⟨hP, hvalid⟩
  · rintro ⟨hP, hne, hfree⟩
    exact ⟨I, hP, if_neg (not_or.2 ⟨hne, not_not.2 hfree⟩)⟩

variable (Γ) in
/-- The key image of the output with this secret. -/
def secretImage (x : Scalar) : Γ.Point := x • Point.biasedHash Γ (Γ.compress (x • Γ.G))

/-- A secret which gives a key image gives one that can be read. -/
theorem keyImage_secretImage {x : Scalar} (hx : secretImage Γ x ≠ 0) :
    (CompressedPoint.decompress Γ (Γ.compress (secretImage Γ x))).bind (Point.keyImage Γ) = some (secretImage Γ x) :=
  keyImage_eq_some.2 ⟨CompressedPoint.decompress_compress Γ _, hx, (Ctx.torsionFree_biasedHash _).smul x⟩

theorem AgreesOnPoints.secretImage {h : List UInt8 → Bytes 32} (hh : AgreesOnPoints Γ h) (x : Scalar) :
    secretImage (Γ.withHash h) x = secretImage Γ x := by
  unfold MoneroOxide.secretImage
  rw [hh.biasedHash]

/-- The response of whoever knows the discrete logarithm is for the nonce. -/
theorem respond_smul {B : Γ.Point} (hB : Γ.TorsionFree B) (x r c : Scalar) : c • x • B + Schnorr.respond x r c • B = r • B := by
  rw [Schnorr.respond, hB.sub_smul, hB.mul_smul, add_sub_cancel]

/-- Two responses with the same commitment, to different challenges. -/
theorem hasLog_of_two {P : Γ.Point} {c s c' s' : Scalar} (hc : c ≠ c') (h : c • P + s • Γ.G = c' • P + s' • Γ.G) :
    HasLog Γ (Schnorr.extract c s c' s') P := by
  refine Schnorr.extract_smul hc ?_
  have := congrArg Γ.clear h
  simp only [map_add, Ctx.clear_smul] at this
  simp only [Schnorr.commitment, add_comm (_ • Γ.clear Γ.G)]
  exact this

/-- Two responses with the same commitments, in both the generator and that of the key image. -/
theorem opens_of_two {key keyImage : Γ.Point} (hfree : Γ.TorsionFree keyImage) {c s c' s' : Scalar} (hc : c ≠ c')
    (hL : c • key + s • Γ.G = c' • key + s' • Γ.G)
    (hR : s • Point.biasedHash Γ (Γ.compress key) + c • keyImage = s' • Point.biasedHash Γ (Γ.compress key) + c' • keyImage) :
    Opens Γ (Schnorr.extract c s c' s') key keyImage := by
  refine ⟨hasLog_of_two hc hL, ?_⟩
  have hbase := Ctx.torsionFree_biasedHash (Γ := Γ) (Γ.compress key)
  refine Ctx.clear_inj hfree (hbase.smul _) ?_
  rw [Ctx.clear_smul]
  refine Schnorr.extract_smul hc ?_
  have := congrArg Γ.clear hR
  simpa only [map_add, Ctx.clear_smul, Schnorr.commitment] using this

/-- An output has one key image. -/
theorem Opens.unique (hG : Γ.G ≠ 0) {x y : Scalar} {key keyImage keyImage' : Γ.Point} (h : Opens Γ x key keyImage)
    (h' : Opens Γ y key keyImage') : keyImage = keyImage' := by
  have hclear : Γ.clear Γ.G ≠ 0 := by
    intro h0
    exact hG (Ctx.clear_inj Ctx.torsionFree_G Ctx.TorsionFree.zero (h0.trans (map_zero Γ.clear).symm))
  have hxy : x = y := smul_left_injective Scalar hclear (h.1.symm.trans h'.1)
  rw [h.2, h'.2, hxy]

end MoneroOxide
