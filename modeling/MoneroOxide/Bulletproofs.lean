import MoneroOxide.Proofs

/-!
# What Bulletproofs and Bulletproofs+ share (`ringct/bulletproofs/src`, `ringct/bulletproofs/generators`)

Vectors are lists. Where the source asserts, in debug builds only, that two vectors are of one length, the operation is that of the
shorter one here; the lengths are those of one another wherever the operations are used.
-/

namespace MoneroOxide

open Bulletproof (MAX_COMMITMENTS COMMITMENT_BITS)

namespace ScalarVector

/-- `ScalarVector::powers`, from a power on. -/
def powersFrom (x : Scalar) : Scalar → ℕ → List Scalar
  | _, 0 => []
  | power, len + 1 => power :: powersFrom x (power * x) len

/-- `ScalarVector::powers`. -/
def powers (x : Scalar) (len : ℕ) : List Scalar := powersFrom x 1 len

/-- `ScalarVector + ScalarVector`. -/
def add (a b : List Scalar) : List Scalar := List.zipWith (· + ·) a b

/-- `ScalarVector * ScalarVector`. -/
def mul (a b : List Scalar) : List Scalar := List.zipWith (· * ·) a b

/-- `ScalarVector + Scalar`. -/
def addScalar (a : List Scalar) (s : Scalar) : List Scalar := a.map (· + s)

/-- `ScalarVector - Scalar`. -/
def subScalar (a : List Scalar) (s : Scalar) : List Scalar := a.map (· - s)

/-- `ScalarVector * Scalar`. -/
def mulScalar (a : List Scalar) (s : Scalar) : List Scalar := a.map (· * s)

/-- `ScalarVector::inner_product`. -/
def innerProduct (a b : List Scalar) : Scalar := (mul a b).sum

/-- `ScalarVector::weighted_inner_product`. -/
def weightedInnerProduct (a b y : List Scalar) : Scalar := (mul (mul a b) y).sum

end ScalarVector

/-- `ScalarVector::split` and `PointVector::split`. -/
def split {α : Type} (v : List α) : List α × List α := (v.take (v.length / 2), v.drop (v.length / 2))

/-- `multiexp` and `multiexp_vartime`. -/
def multiexp {Γ : Ctx} (pairs : List (Scalar × Γ.Point)) : Γ.Point := (pairs.map fun pair => pair.1 • pair.2).sum

namespace ChallengeProducts

/-- One iteration of the loop of a challenge: two neighbouring slots, from the one of the half of their index. -/
def slotStep (challenge : Scalar × Scalar) (slots : ℕ) (products : List Scalar) : List Scalar :=
  let products := products.set slots (products.getD (slots / 2) 0 * challenge.1)
  products.set (slots - 1) (products.getD (slots / 2) 0 * challenge.2)

/-- The loop of a challenge, from the highest slot down, two at a time. -/
def pass (challenge : Scalar × Scalar) : ℕ → List Scalar → List Scalar
  | 0, products => products
  | 1, products => slotStep challenge 1 products
  | slots + 2, products => pass challenge slots (slotStep challenge (slots + 2) products)

end ChallengeProducts

/-- `challenge_products`: the products of the challenges, each with its inverse, that the generators are scaled by. The table is
extended in place by one challenge after the other. -/
def challengeProducts (challenges : List (Scalar × Scalar)) : List Scalar :=
  let products := List.replicate (2 ^ challenges.length) 1
  match challenges with
  | [] => products
  | first :: rest =>
    let products := (products.set 0 first.2).set 1 first.1
    (rest.zipIdx 1).foldl (fun products challenge => ChallengeProducts.pass challenge.1 (2 ^ (challenge.2 + 1) - 1) products)
      products

/-- `padded_pow_of_2`: the power of two the loop ends with, which is kept as its logarithm. -/
def paddedPowOf2 (i : ℕ) : ℕ := 2 ^ Bulletproof.padLoop i 0

/-- `MAX_MN`: the maximum amount of bits used within a single range proof. -/
def MAX_MN : ℕ := MAX_COMMITMENTS * COMMITMENT_BITS

/-- `Generators`. -/
structure Generators (Γ : Ctx) where
  G : List Γ.Point
  H : List Γ.Point

/-- A generator of `bulletproofs_generators`. -/
def generator (Γ : Ctx) (dst : List UInt8) (i : ℕ) : Γ.Point :=
  Point.biasedHash Γ (Γ.keccak256 (CompressedPoint.H.toList ++ dst ++ VarInt.write i))

/-- `bulletproofs_generators`: pairs of generators, those of `H` at the even indexes. -/
def bulletproofsGenerators (Γ : Ctx) (dst : List UInt8) : Generators Γ where
  G := (List.range MAX_MN).map fun i => generator Γ dst (2 * i + 1)
  H := (List.range MAX_MN).map fun i => generator Γ dst (2 * i)

/-- The generators of Bulletproofs. The build script's prefixes are those of `build.rs`. -/
def Original.GENERATORS (Γ : Ctx) : Generators Γ := bulletproofsGenerators Γ (ascii "bulletproof")

/-- The generators of Bulletproofs+. -/
def Plus.GENERATORS (Γ : Ctx) : Generators Γ := bulletproofsGenerators Γ (ascii "bulletproof_plus")

/-- Decompress a point that was sent multiplied by the inverse of the cofactor. -/
def decompMulCofactor (Γ : Ctx) (P : CompressedPoint) : Option Γ.Point :=
  (CompressedPoint.decompress Γ P).map fun P => (8 : ℕ) • P

/-- `InternalBatchVerifier`: the coefficients of the generators, and the other terms. -/
structure InternalBatchVerifier (Γ : Ctx) where
  g : Scalar
  h : Scalar
  gBold : List Scalar
  hBold : List Scalar
  other : List (Scalar × Γ.Point)

namespace InternalBatchVerifier

variable {Γ : Ctx}

/-- `InternalBatchVerifier::default`. -/
def default : InternalBatchVerifier Γ where
  g := 0
  h := 0
  gBold := []
  hBold := []
  other := []

/-- The terms `InternalBatchVerifier::verify` adds up. -/
def terms (verifier : InternalBatchVerifier Γ) (G H : Γ.Point) (generators : Generators Γ) : List (Scalar × Γ.Point) :=
  (verifier.g, G) :: (verifier.h, H) :: (verifier.gBold.zip generators.G ++ verifier.hBold.zip generators.H ++ verifier.other)

/-- `InternalBatchVerifier::verify`. -/
def verify (verifier : InternalBatchVerifier Γ) (G H : Γ.Point) (generators : Generators Γ) : Bool :=
  multiexp (verifier.terms G H generators) = 0

/-- `verifier.g += s`. -/
def addG (s : Scalar) (verifier : InternalBatchVerifier Γ) : InternalBatchVerifier Γ := { verifier with g := verifier.g + s }

/-- `verifier.h += s`. -/
def addH (s : Scalar) (verifier : InternalBatchVerifier Γ) : InternalBatchVerifier Γ := { verifier with h := verifier.h + s }

/-- `for i in 0 .. n { v[i] += f(i) }`. -/
def addTo (n : ℕ) (f : ℕ → Scalar) (v : List Scalar) : List Scalar := v.mapIdx fun i s => if i < n then s + f i else s

/-- `for i in 0 .. n { verifier.g_bold[i] += f(i) }`. -/
def addGBold (n : ℕ) (f : ℕ → Scalar) (verifier : InternalBatchVerifier Γ) : InternalBatchVerifier Γ :=
  { verifier with gBold := addTo n f verifier.gBold }

/-- `for i in 0 .. n { verifier.h_bold[i] += f(i) }`. -/
def addHBold (n : ℕ) (f : ℕ → Scalar) (verifier : InternalBatchVerifier Γ) : InternalBatchVerifier Γ :=
  { verifier with hBold := addTo n f verifier.hBold }

/-- `verifier.other.push(..)`, for each of the terms. -/
def push (terms : List (Scalar × Γ.Point)) (verifier : InternalBatchVerifier Γ) : InternalBatchVerifier Γ :=
  { verifier with other := verifier.other ++ terms }

end InternalBatchVerifier

/-- `BatchVerifier`. -/
structure BatchVerifier (Γ : Ctx) where
  original : InternalBatchVerifier Γ
  plus : InternalBatchVerifier Γ

namespace BatchVerifier

variable {Γ : Ctx}

/-- `BatchVerifier::new`. -/
def new (Γ : Ctx) : BatchVerifier Γ where
  original := .default
  plus := .default

/-- `BatchVerifier::verify`. The generators are swapped for Bulletproofs+, which is written as in its paper. -/
def verify (verifier : BatchVerifier Γ) : Bool :=
  verifier.original.verify Γ.G Γ.H (Original.GENERATORS Γ) && verifier.plus.verify Γ.H Γ.G (Plus.GENERATORS Γ)

end BatchVerifier

/-- `BulletproofError`. -/
inductive BulletproofError where
  | NoCommitments
  | TooManyCommitments
  deriving DecidableEq, Repr

end MoneroOxide
