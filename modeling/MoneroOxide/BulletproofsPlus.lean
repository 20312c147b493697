import MoneroOxide.Bulletproofs

/-!
# Bulletproofs+ (`ringct/bulletproofs/src/plus`)

The range proof and the weighted inner-product argument it ends in. As in the source, `g` is the generator of values and `h` that of
masks, so that they are Monero's `H` and `G`.
-/

namespace MoneroOxide

open Bulletproof (MAX_COMMITMENTS COMMITMENT_BITS)

namespace Plus

variable {Γ : Ctx}

/-- `BpPlusGenerators::reduce`, which asserts that there are as many generators. -/
def reduce (generators : Generators Γ) (n : ℕ) : Except (Failure BulletproofError) (Generators Γ) :=
  let n := paddedPowOf2 n
  if n ≤ generators.G.length then .ok { G := generators.G.take n, H := generators.H.take n }
  else .error (.panic "instantiated with less generators than application required")

/-- `u64_decompose`. -/
def u64Decompose (value : UInt64) : List Scalar :=
  (List.range COMMITMENT_BITS).map fun bit => Commitment.amountScalar ((value >>> UInt64.ofNat bit) &&& 1)

/-- `initial_transcript`. -/
def initialTranscript (Γ : Ctx) (commitments : List Γ.Point) : Scalar :=
  let commitmentsHash := Scalar.hash Γ (commitments.flatMap fun V => (Γ.compress V).toList)
  let TRANSCRIPT := Γ.compress (Point.biasedHash Γ (Γ.keccak256 (ascii "bulletproof_plus_transcript")))
  Scalar.hash Γ (TRANSCRIPT.toList ++ commitmentsHash.toBytes.toList)

/-! ## The weighted inner-product argument -/

/-- `WipStatement`. -/
structure WipStatement (Γ : Ctx) where
  generators : Generators Γ
  P : Γ.Point
  y : List Scalar

/-- `WipWitness`. -/
structure WipWitness where
  a : List Scalar
  b : List Scalar
  alpha : Scalar

/-- `WipWitness::new`. -/
def WipWitness.new (a b : List Scalar) (alpha : Scalar) : Option WipWitness :=
  if a = [] ∨ a.length ≠ b.length then none
  else
    let missing := List.replicate (paddedPowOf2 a.length - a.length) 0
    some { a := a ++ missing, b := b ++ missing, alpha }

namespace WipStatement

/-- `WipStatement::new`. -/
def new (generators : Generators Γ) (P : Γ.Point) (y : Scalar) : WipStatement Γ where
  generators := generators
  P := P
  y := ScalarVector.powersFrom y y generators.G.length

/-- `WipStatement::transcript_L_R` and `WipStatement::transcript_A_B`. -/
def transcriptPair (Γ : Ctx) (transcript : Scalar) (P Q : CompressedPoint) : Scalar :=
  Scalar.hash Γ (transcript.toBytes.toList ++ P.toList ++ Q.toList)

/-- The powers of `y` that are to be inverted: those whose exponents are the powers of two below `n`. -/
def toInvert (y : List Scalar) (n i : ℕ) : List Scalar :=
  if 2 ^ i < n then y.getD (2 ^ i - 1) 0 :: toInvert y n (i + 1) else []
termination_by n - 2 ^ i
decreasing_by
  have : 2 ^ i < 2 ^ (i + 1) := Nat.pow_lt_pow_right (by omega) (by omega)
  omega

/-- The end of `WipStatement::prove`, where the vectors are of length one. -/
def proveEnd (rng : Rng) (transcript : Scalar) (gBold hBold : Γ.Point) (a b alpha y : Scalar) : WipProof × Rng :=
  let (r, rng) := Scalar.random rng
  let (s, rng) := Scalar.random rng
  let (delta, rng) := Scalar.random rng
  let (eta, rng) := Scalar.random rng
  let ry := r * y
  let A := Γ.compress (Scalar.INV_EIGHT • multiexp [(r, gBold), (s, hBold), (ry * b + s * y * a, Γ.H), (delta, Γ.G)])
  let B := Γ.compress (Scalar.INV_EIGHT • multiexp [(ry * s, Γ.H), (eta, Γ.G)])
  let e := transcriptPair Γ transcript A B
  ({ L := [], R := [], A, B, rAnswer := r + a * e, sAnswer := s + b * e, deltaAnswer := eta + delta * e + alpha * (e * e) }, rng)

/-- The points `L` and `R` of a round, from the halves of the vectors and of the generators, and their blinds. -/
def roundLR (a b : List Scalar × List Scalar) (gBold hBold : List Γ.Point × List Γ.Point) (y : List Scalar)
    (yNHat yInvNHat dL dR : Scalar) : Γ.Point × Γ.Point :=
  let cL := ScalarVector.weightedInnerProduct a.1 b.2 y
  let cR := ScalarVector.weightedInnerProduct (ScalarVector.mulScalar a.2 yNHat) b.1 y
  (multiexp ((ScalarVector.mulScalar a.1 yInvNHat).zip gBold.2 ++ b.2.zip hBold.1 ++ [(cL, Γ.H), (dL, Γ.G)]),
    multiexp ((ScalarVector.mulScalar a.2 yNHat).zip gBold.1 ++ b.1.zip hBold.2 ++ [(cR, Γ.H), (dR, Γ.G)]))

/-- The loop of `WipStatement::prove`, and its end. -/
def proveLoop (rng : Rng) (transcript : Scalar) (gBold hBold : List Γ.Point) (a b : List Scalar) (alpha : Scalar)
    (y yInv : List Scalar) : Except (Failure BulletproofError) (WipProof × Rng) :=
  if 1 < gBold.length then
    let nHat := (split gBold).1.length
    let yNHat := y.getD (nHat - 1) 0
    let y := y.take nHat
    let (dL, rng) := Scalar.random rng
    let (dR, rng) := Scalar.random rng
    match yInv.getLast? with
    | none => .error (.panic "couldn't pop y_inv despite y_inv being of same length as times iterated")
    | some yInvNHat =>
      let (L, R) := roundLR (split a) (split b) (split gBold) (split hBold) y yNHat yInvNHat dL dR
      let L := Γ.compress (Scalar.INV_EIGHT • L)
      let R := Γ.compress (Scalar.INV_EIGHT • R)
      let e := transcriptPair Γ transcript L R
      let invE := e⁻¹
      let gBold' := List.zipWith (fun g1 g2 => multiexp [(invE, g1), (e * yInvNHat, g2)]) (split gBold).1 (split gBold).2
      let hBold' := List.zipWith (fun h1 h2 => multiexp [(e, h1), (invE, h2)]) (split hBold).1 (split hBold).2
      let a' := ScalarVector.add (ScalarVector.mulScalar (split a).1 e) (ScalarVector.mulScalar (split a).2 (yNHat * invE))
      let b' := ScalarVector.add (ScalarVector.mulScalar (split b).1 invE) (ScalarVector.mulScalar (split b).2 e)
      let alpha := alpha + (dL * (e * e) + dR * (invE * invE))
      (proveLoop rng e gBold' hBold' a' b' alpha y yInv.dropLast).map fun (rest, rng) =>
        ({ rest with L := L :: rest.L, R := R :: rest.R }, rng)
  else .ok (proveEnd rng transcript (gBold.getD 0 0) (hBold.getD 0 0) (a.getD 0 0) (b.getD 0 0) alpha (y.getD 0 0))
termination_by gBold.length
decreasing_by
  simp only [split, List.length_zipWith, List.length_take, List.length_drop]
  omega

/-- `WipStatement::prove`. -/
def prove (rng : Rng) (statement : WipStatement Γ) (transcript : Scalar) (witness : WipWitness) :
    Except (Failure BulletproofError) (Option (WipProof × Rng)) :=
  if statement.generators.G.length ≠ witness.a.length then .ok none
  else
    let yInv := (toInvert statement.y statement.generators.G.length 0).map (·⁻¹)
    (proveLoop rng transcript statement.generators.G statement.generators.H witness.a witness.b witness.alpha statement.y yInv).map some

/-- The challenges of the rounds, and the transcript after them. -/
def challenges (Γ : Ctx) : Scalar → List (CompressedPoint × CompressedPoint) → List Scalar × Scalar
  | transcript, [] => ([], transcript)
  | transcript, (L, R) :: rounds =>
    let e := transcriptPair Γ transcript L R
    let (es, transcript) := challenges Γ e rounds
    (e :: es, transcript)

/-- The points of the rounds, if all of them can be decompressed. -/
def decompressRounds (Γ : Ctx) : List (CompressedPoint × CompressedPoint) → Option (List (Γ.Point × Γ.Point))
  | [] => some []
  | (L, R) :: rounds => do
    let L ← decompMulCofactor Γ L
    let R ← decompMulCofactor Γ R
    let rest ← decompressRounds Γ rounds
    pure ((L, R) :: rest)

/-- What `WipStatement::verify` accumulates, once all points were decompressed. -/
def accumulate (statement : WipStatement Γ) (es : List Scalar) (e : Scalar) (rounds : List (Γ.Point × Γ.Point)) (A B : Γ.Point)
    (proof : WipProof) (weight : Scalar) (verifier : InternalBatchVerifier Γ) : InternalBatchVerifier Γ :=
  let n := statement.generators.G.length
  let y0 := statement.y.getD 0 0
  let invY := ScalarVector.powersFrom y0⁻¹ y0⁻¹ statement.y.length
  let negESquare := weight * -(e * e)
  let verifier := verifier.push [(negESquare, statement.P)]
  let invEs := es.map (·⁻¹)
  let verifier := verifier.push (((es.zip invEs).zip rounds).flatMap fun ((e, invE), (L, R)) =>
    [(negESquare * (e * e), L), (negESquare * (invE * invE), R)])
  let productCache := challengeProducts (es.zip invEs)
  let verifier := { verifier with
    gBold := verifier.gBold ++ List.replicate (n - verifier.gBold.length) 0
    hBold := verifier.hBold ++ List.replicate (n - verifier.hBold.length) 0 }
  let re := proof.rAnswer * e
  let verifier := verifier.addGBold n fun i =>
    let scalar := productCache.getD i 0 * re
    weight * (if 0 < i then scalar * invY.getD (i - 1) 0 else scalar)
  let se := proof.sAnswer * e
  let verifier := verifier.addHBold n fun i => weight * (se * productCache.getD (productCache.length - 1 - i) 0)
  let verifier := verifier.push [(weight * -e, A)]
  let verifier := verifier.addG (weight * (proof.rAnswer * y0 * proof.sAnswer))
  let verifier := verifier.addH (weight * proof.deltaAnswer)
  verifier.push [(-weight, B)]

/-- `WipStatement::verify`. -/
def verify (rng : Rng) (statement : WipStatement Γ) (verifier : InternalBatchVerifier Γ) (transcript : Scalar) (proof : WipProof) :
    Option (InternalBatchVerifier Γ × Rng) :=
  let (weight, rng) := Scalar.random rng
  let lrLen := Bulletproof.padLoop statement.generators.G.length 0
  if proof.L.length ≠ lrLen ∨ proof.R.length ≠ lrLen ∨ statement.generators.G.length ≠ 2 ^ lrLen then none
  else do
    let (es, transcript) := challenges Γ transcript (proof.L.zip proof.R)
    let rounds ← decompressRounds Γ (proof.L.zip proof.R)
    let e := transcriptPair Γ transcript proof.A proof.B
    let A ← decompMulCofactor Γ proof.A
    let B ← decompMulCofactor Γ proof.B
    pure (accumulate statement es e rounds A B proof weight verifier, rng)

end WipStatement

/-! ## The range proof -/

/-- `AggregateRangeStatement`. The generators are always those of `BpPlusGenerators::new`. -/
structure AggregateRangeStatement (Γ : Ctx) where
  V : List Γ.Point
  ne_nil : V ≠ []
  length_le : V.length ≤ MAX_COMMITMENTS

/-- `AggregateRangeWitness`. -/
structure AggregateRangeWitness where
  commitments : List Commitment
  ne_nil : commitments ≠ []
  length_le : commitments.length ≤ MAX_COMMITMENTS

/-- `AggregateRangeWitness::new`. -/
def AggregateRangeWitness.new (commitments : List Commitment) : Option AggregateRangeWitness :=
  if h : commitments = [] ∨ MAX_COMMITMENTS < commitments.length then none
  else some { commitments, ne_nil := fun hnil => h (.inl hnil), length_le := not_lt.1 fun hlt => h (.inr hlt) }

/-- `AHatComputation`. -/
structure AHatComputation (Γ : Ctx) where
  y : Scalar
  dDescendingYPlusZ : List Scalar
  yMnPlusOne : Scalar
  z : Scalar
  zPow : List Scalar
  AHat : Γ.Point

namespace AggregateRangeStatement

/-- `AggregateRangeStatement::new`. -/
def new (V : List Γ.Point) : Option (AggregateRangeStatement Γ) :=
  if h : V = [] ∨ MAX_COMMITMENTS < V.length then none
  else some { V, ne_nil := fun hnil => h (.inl hnil), length_le := not_lt.1 fun hlt => h (.inr hlt) }

/-- `AggregateRangeStatement::transcript_A`: `y` and `z`, which is the transcript after it. -/
def transcriptA (Γ : Ctx) (transcript : Scalar) (A : CompressedPoint) : Scalar × Scalar :=
  let y := Scalar.hash Γ (transcript.toBytes.toList ++ A.toList)
  (y, Scalar.hash Γ y.toBytes.toList)

/-- `AggregateRangeStatement::d_j`. -/
def dJ (j m : ℕ) : List Scalar :=
  List.replicate ((j - 1) * COMMITMENT_BITS) 0 ++ ScalarVector.powers 2 COMMITMENT_BITS ++
    List.replicate ((m - j) * COMMITMENT_BITS) 0

/-- The padding of the commitments with the identity. -/
def padV (V : List Γ.Point) : List Γ.Point := V ++ List.replicate (paddedPowOf2 V.length - V.length) 0

/-- The vector `d`: the `d_j`, times the even powers of `z`. -/
def dVector (m : ℕ) (zPow : List Scalar) : List Scalar :=
  (List.range m).foldl (fun d j => ScalarVector.add d (ScalarVector.mulScalar (dJ (j + 1) m) (zPow.getD j 0)))
    (List.replicate (m * COMMITMENT_BITS) 0)

/-- `AggregateRangeStatement::compute_A_hat`, once the challenges are known and `A` was decompressed. -/
def computeAHatWith (V : List Γ.Point) (generators : Generators Γ) (y z : Scalar) (A : Γ.Point) : AHatComputation Γ :=
  let V := padV V
  let mn := V.length * COMMITMENT_BITS
  let zPow := ScalarVector.powersFrom (z * z) (z * z) (V.length + 1)
  let d := dVector V.length zPow
  let ascendingY := ScalarVector.powersFrom y y mn
  let yPows := ascendingY.sum
  let descendingY := ascendingY.reverse
  let dDescendingYPlusZ := ScalarVector.addScalar (ScalarVector.mul d descendingY) z
  let yMnPlusOne := descendingY.getD 0 0 * y
  let commitmentAccum := V.zipIdx.foldl (fun accum commitment => accum + zPow.getD commitment.2 0 • commitment.1) 0
  let ATerms := dDescendingYPlusZ.zipIdx.flatMap (fun term =>
      [(-z, generators.G.getD term.2 0), (term.1, generators.H.getD term.2 0)]) ++
    [(yMnPlusOne, commitmentAccum), (yPows * z - d.sum * yMnPlusOne * z - yPows * (z * z), Γ.H)]
  { y, dDescendingYPlusZ, yMnPlusOne, z, zPow, AHat := A + multiexp ATerms }

/-- `AggregateRangeStatement::compute_A_hat`. The transcript is the `z` it returns. -/
def computeAHat (V : List Γ.Point) (generators : Generators Γ) (transcript : Scalar) (A : CompressedPoint) :
    Option (AHatComputation Γ) :=
  let (y, z) := transcriptA Γ transcript A
  (decompMulCofactor Γ A).map (computeAHatWith V generators y z)

/-- The bits of the amounts, a row for each, with zeros for those padded. -/
def amountBits (m : ℕ) (witness : List Commitment) : List Scalar :=
  (List.range m).flatMap fun j => u64Decompose ((witness[j]?.map Commitment.amount).getD 0)

/-- The end of `AggregateRangeStatement::prove`: the witness of the weighted inner-product argument, and its proof. -/
def proveWip (rng : Rng) (generators : Generators Γ) (witness : List Commitment) (A : CompressedPoint) (aL aR : List Scalar)
    (alpha : Scalar) (computed : AHatComputation Γ) : Except (Failure BulletproofError) (AggregateRangeProof × Rng) := do
  let aL := ScalarVector.subScalar aL computed.z
  let aR := ScalarVector.add aR computed.dDescendingYPlusZ
  let alpha := witness.zipIdx.foldl
    (fun alpha commitment => alpha + computed.zPow.getD commitment.2 0 * commitment.1.mask * computed.yMnPlusOne) alpha
  match WipWitness.new aL aR alpha with
  | none => throw (.panic "Bulletproofs::Plus created an invalid WipWitness")
  | some wipWitness => do
    let proved ← WipStatement.prove rng (WipStatement.new generators computed.AHat computed.y) computed.z wipWitness
    match proved with
    | none => throw (.panic "Bulletproof::Plus failed to prove the weighted inner-product")
    | some (wip, rng) => pure ({ A, wip }, rng)

/-- `AggregateRangeStatement::prove`. -/
def prove (rng : Rng) (statement : AggregateRangeStatement Γ) (witness : AggregateRangeWitness) :
    Except (Failure BulletproofError) (Option (AggregateRangeProof × Rng)) :=
  if statement.V.length ≠ witness.commitments.length then .ok none
  else if (statement.V.zip witness.commitments).any fun pair => pair.2.commit Γ ≠ pair.1 then .ok none
  else do
    let V := statement.V.map fun V => Scalar.INV_EIGHT • V
    let transcript := initialTranscript Γ V
    let V := padV (V.map fun V => (8 : ℕ) • V)
    let generators ← reduce (GENERATORS Γ) (V.length * COMMITMENT_BITS)
    let aL := amountBits V.length witness.commitments
    let aR := ScalarVector.subScalar aL 1
    let (alpha, rng) := Scalar.random rng
    let A := Γ.compress (Scalar.INV_EIGHT • multiexp (aL.zip generators.G ++ aR.zip generators.H ++ [(alpha, Γ.G)]))
    match computeAHat V generators transcript A with
    | none => throw (.panic "A is a valid point as we just compressed it")
    | some computed => (proveWip rng generators witness.commitments A aL aR alpha computed).map some

/-- `AggregateRangeStatement::verify`. That the generators suffice is asserted. -/
def verify (rng : Rng) (statement : AggregateRangeStatement Γ) (verifier : InternalBatchVerifier Γ) (proof : AggregateRangeProof) :
    Option (InternalBatchVerifier Γ × Rng) :=
  let V := statement.V.map fun V => Scalar.INV_EIGHT • V
  let transcript := initialTranscript Γ V
  let V := V.map fun V => (8 : ℕ) • V
  match reduce (GENERATORS Γ) (V.length * COMMITMENT_BITS) with
  | .error _ => none
  | .ok generators => do
    let computed ← computeAHat V generators transcript proof.A
    WipStatement.verify rng (WipStatement.new generators computed.AHat computed.y) verifier computed.z proof.wip

end AggregateRangeStatement

end Plus

end MoneroOxide
