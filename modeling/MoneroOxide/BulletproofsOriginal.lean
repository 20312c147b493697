import MoneroOxide.Bulletproofs

/-!
# Bulletproofs (`ringct/bulletproofs/src/original`)

The range proof and the inner-product argument it ends in. A verifier returns what it has accumulated, or `none` where the source
returns `false` and leaves the batch undefined.
-/

namespace MoneroOxide

open Bulletproof (MAX_COMMITMENTS COMMITMENT_BITS)

namespace Original

variable (Γ : Ctx)

/-! ## The inner-product argument -/

/-- `IpError`. -/
inductive IpError where
  | IncorrectAmountOfGenerators
  | DifferingLrLengths
  | InvalidPoint
  deriving DecidableEq, Repr

/-- `IpStatement`: the weights of the generators `H`, and the discrete logarithm of `u`. -/
structure IpStatement where
  hBoldWeights : List Scalar
  u : Scalar

/-- `IpWitness`. The fields are private, so that the vectors are of one length, which is a power of two. -/
structure IpWitness where
  a : List Scalar
  b : List Scalar
  length_eq : a.length = b.length
  powerOf2 : paddedPowOf2 a.length = a.length

/-- `IpWitness::new`. -/
def IpWitness.new (a b : List Scalar) : Option IpWitness :=
  if a = [] then none
  else if h : a.length = b.length ∧ paddedPowOf2 a.length = a.length then
    some { a, b, length_eq := h.1, powerOf2 := h.2 }
  else none

namespace IpStatement

/-- `IpStatement::transcript_L_R`. -/
def transcriptLR (transcript : Scalar) (L R : CompressedPoint) : Scalar :=
  Scalar.hash Γ (transcript.toBytes.toList ++ L.toList ++ R.toList)

variable {Γ}

/-- The points `L` and `R` of a round, from the halves of the vectors and of the generators. -/
def roundLR (u : Γ.Point) (a b : List Scalar × List Scalar) (gBold hBold : List Γ.Point × List Γ.Point) : Γ.Point × Γ.Point :=
  let cl := ScalarVector.innerProduct a.1 b.2
  let cr := ScalarVector.innerProduct a.2 b.1
  (multiexp (a.1.zip gBold.2 ++ b.2.zip hBold.1 ++ [(cl, u)]), multiexp (a.2.zip gBold.1 ++ b.1.zip hBold.2 ++ [(cr, u)]))

/-- The loop of `IpStatement::prove`, and what it sends at the end. -/
def proveLoop (u : Γ.Point) (transcript : Scalar) (gBold hBold : List Γ.Point) (a b : List Scalar) : IpProof :=
  if 1 < gBold.length then
    let (a1, a2) := split a
    let (b1, b2) := split b
    let (L, R) := roundLR u (a1, a2) (b1, b2) (split gBold) (split hBold)
    let L := Γ.compress (Scalar.INV_EIGHT • L)
    let R := Γ.compress (Scalar.INV_EIGHT • R)
    let x := transcriptLR Γ transcript L R
    let xInv := x⁻¹
    let gBold' := List.zipWith (fun a b => multiexp [(xInv, a), (x, b)]) (split gBold).1 (split gBold).2
    let hBold' := List.zipWith (fun a b => multiexp [(x, a), (xInv, b)]) (split hBold).1 (split hBold).2
    let a := ScalarVector.add (ScalarVector.mulScalar a1 x) (ScalarVector.mulScalar a2 xInv)
    let b := ScalarVector.add (ScalarVector.mulScalar b1 xInv) (ScalarVector.mulScalar b2 x)
    let rest := proveLoop u x gBold' hBold' a b
    { rest with L := L :: rest.L, R := R :: rest.R }
  else { L := [], R := [], a := a.getD 0 0, b := b.getD 0 0 }
termination_by gBold.length
decreasing_by
  simp only [split, List.length_zipWith, List.length_take, List.length_drop]
  omega

/-- `IpStatement::prove`. -/
def prove (Γ : Ctx) (statement : IpStatement) (transcript : Scalar) (witness : IpWitness) : Except IpError IpProof :=
  let gBoldSlice := (GENERATORS Γ).G.take witness.a.length
  let hBoldSlice := (GENERATORS Γ).H.take witness.a.length
  let u := statement.u • Γ.H
  if statement.hBoldWeights.length ≠ gBoldSlice.length then .error .IncorrectAmountOfGenerators
  else
    let hBold := List.zipWith (fun weight H => weight • H) statement.hBoldWeights hBoldSlice
    .ok (proveLoop u transcript gBoldSlice hBold witness.a witness.b)

/-- The challenges of the rounds, as the verifier computes them. -/
def challenges (Γ : Ctx) : Scalar → List (CompressedPoint × CompressedPoint) → List Scalar
  | _, [] => []
  | transcript, (L, R) :: rounds =>
    let x := transcriptLR Γ transcript L R
    x :: challenges Γ x rounds

/-- The terms of the rounds, if all their points can be decompressed. -/
def roundTerms (Γ : Ctx) (weight : Scalar) : List ((Scalar × Scalar) × (CompressedPoint × CompressedPoint)) →
    Option (List (Scalar × Γ.Point))
  | [] => some []
  | ((x, xInv), (L, R)) :: rounds => do
    let L ← decompMulCofactor Γ L
    let R ← decompMulCofactor Γ R
    let rest ← roundTerms Γ weight rounds
    pure ((weight * (x * x), L) :: (weight * (xInv * xInv), R) :: rest)

/-- `IpStatement::verify`. -/
def verify (statement : IpStatement) (verifier : InternalBatchVerifier Γ) (ipRows : ℕ) (transcript verifierWeight : Scalar)
    (proof : IpProof) : Except IpError (InternalBatchVerifier Γ) :=
  let gBoldSlice := (GENERATORS Γ).G.take ipRows
  let hBoldSlice := (GENERATORS Γ).H.take ipRows
  let lrLen := Bulletproof.padLoop gBoldSlice.length 0
  if proof.L.length ≠ lrLen then .error .IncorrectAmountOfGenerators
  else if proof.L.length ≠ proof.R.length then .error .DifferingLrLengths
  else
    let xs := challenges Γ transcript (proof.L.zip proof.R)
    let xInvs := xs.map (·⁻¹)
    match roundTerms Γ verifierWeight ((xs.zip xInvs).zip (proof.L.zip proof.R)) with
    | none => .error .InvalidPoint
    | some terms =>
      let productCache := challengeProducts (xs.zip xInvs)
      let c := proof.a * proof.b
      .ok <| (verifier.push terms)
        |>.addGBold gBoldSlice.length (fun i => -(verifierWeight * productCache.getD i 0 * proof.a))
        |>.addHBold hBoldSlice.length (fun i =>
          -(verifierWeight * productCache.getD (productCache.length - 1 - i) 0 * proof.b * statement.hBoldWeights.getD i 0))
        |>.addH (-(verifierWeight * c * statement.u))

end IpStatement

/-! ## The range proof -/

/-- `AggregateRangeStatement`. -/
structure AggregateRangeStatement where
  commitments : List Γ.Point
  ne_nil : commitments ≠ []
  length_le : commitments.length ≤ MAX_COMMITMENTS

/-- `AggregateRangeWitness`. -/
structure AggregateRangeWitness where
  commitments : List Commitment
  ne_nil : commitments ≠ []
  length_le : commitments.length ≤ MAX_COMMITMENTS

/-- `AggregateRangeWitness::new`. -/
def AggregateRangeWitness.new (commitments : List Commitment) : Option AggregateRangeWitness :=
  if h : commitments ≠ [] ∧ commitments.length ≤ MAX_COMMITMENTS then some { commitments, ne_nil := h.1, length_le := h.2 }
  else none

/-- Draw a pair of random scalars for each row. -/
def randomPairs : ℕ → Rng → List (Scalar × Scalar) × Rng
  | 0, rng => ([], rng)
  | n + 1, rng =>
    let (sL, rng) := Scalar.random rng
    let (sR, rng) := Scalar.random rng
    let (rest, rng) := randomPairs n rng
    ((sL, sR) :: rest, rng)

/-- The bits of an amount, from the lowest on, by shifting it. -/
def bits : ℕ → UInt64 → List Scalar
  | 0, _ => []
  | n + 1, amount => Commitment.amountScalar (amount &&& 1) :: bits n (amount >>> 1)

namespace AggregateRangeStatement

/-- `AggregateRangeStatement::new`. -/
def new (commitments : List Γ.Point) : Option (AggregateRangeStatement Γ) :=
  if h : commitments ≠ [] ∧ commitments.length ≤ MAX_COMMITMENTS then some { commitments, ne_nil := h.1, length_le := h.2 }
  else none

/-- `AggregateRangeStatement::initial_transcript`. -/
def initialTranscript (commitments : List Γ.Point) : Scalar × List Γ.Point :=
  let V := commitments.map fun c => Scalar.INV_EIGHT • c
  (Scalar.hash Γ (V.flatMap fun V => (Γ.compress V).toList), V)

/-- `AggregateRangeStatement::transcript_A_S`. -/
def transcriptAS (transcript : Scalar) (A S : CompressedPoint) : Scalar × Scalar :=
  let y := Scalar.hash Γ (transcript.toBytes.toList ++ A.toList ++ S.toList)
  (y, Scalar.hash Γ y.toBytes.toList)

/-- `AggregateRangeStatement::transcript_T12`. -/
def transcriptT12 (transcript : Scalar) (T1 T2 : CompressedPoint) : Scalar :=
  Scalar.hash Γ (transcript.toBytes.toList ++ transcript.toBytes.toList ++ T1.toList ++ T2.toList)

/-- `AggregateRangeStatement::transcript_tau_x_mu_t_hat`. -/
def transcriptTauXMuTHat (transcript tauX mu tHat : Scalar) : Scalar :=
  Scalar.hash Γ (transcript.toBytes.toList ++ transcript.toBytes.toList ++ tauX.toBytes.toList ++ mu.toBytes.toList ++
    tHat.toBytes.toList)

/-- The products of a power of `z` for a commitment and a power of two for a bit, in the order of the rows. -/
def zTwos (paddedPowOf2 : ℕ) (z twos : List Scalar) : List Scalar :=
  (List.range paddedPowOf2).flatMap fun j => (List.range COMMITMENT_BITS).map fun i => z.getD (2 + j) 0 * twos.getD i 0

/-- A commitment to two vectors, multiplied by the inverse of the cofactor and compressed. -/
def vectorCommitment (blind : Scalar) (a b : List Scalar) : CompressedPoint :=
  Γ.compress (Scalar.INV_EIGHT • multiexp ((blind, Γ.G) :: (a.zip (GENERATORS Γ).G ++ b.zip (GENERATORS Γ).H)))

/-- A commitment to a coefficient of the polynomial, where the scalars are multiplied by the inverse of the cofactor. -/
def coefficientCommitment (t tau : Scalar) : CompressedPoint :=
  Γ.compress (multiexp [(t * Scalar.INV_EIGHT, Γ.H), (tau * Scalar.INV_EIGHT, Γ.G)])

/-- The bits of the amounts, a row for each: the rows of the commitments, and zeros for those padded. -/
def amountBits (witness : List Commitment) : List Scalar :=
  witness.flatMap (fun commitment => bits COMMITMENT_BITS commitment.amount) ++
    List.replicate ((paddedPowOf2 witness.length - witness.length) * COMMITMENT_BITS) 0

/-- The polynomials `l` and `r` of the proof, as their coefficients. -/
structure Polynomials where
  l0 : List Scalar
  l1 : List Scalar
  r0 : List Scalar
  r1 : List Scalar

/-- The polynomials, from the bits, the blinds and the challenges. -/
def polynomials (padded : ℕ) (aL aR sL sR : List Scalar) (y z : Scalar) : Polynomials :=
  let z := ScalarVector.powers z (3 + padded)
  let twos := ScalarVector.powers 2 COMMITMENT_BITS
  let yPowN := ScalarVector.powers y aR.length
  { l0 := ScalarVector.subScalar aL (z.getD 1 0)
    l1 := sL
    r0 := ScalarVector.add (ScalarVector.mul (ScalarVector.addScalar aR (z.getD 1 0)) yPowN) (zTwos padded z twos)
    r1 := ScalarVector.mul sR yPowN }

/-- The coefficient `t1` of their product. -/
def Polynomials.t1 (poly : Polynomials) : Scalar :=
  ScalarVector.innerProduct poly.l0 poly.r1 + ScalarVector.innerProduct poly.r0 poly.l1

/-- The coefficient `t2` of their product. -/
def Polynomials.t2 (poly : Polynomials) : Scalar := ScalarVector.innerProduct poly.l1 poly.r1

/-- The last part of `AggregateRangeStatement::prove`, once all challenges but that of the inner-product argument are known. -/
def proveEvaluated (witness : List Commitment) (A S T1 T2 : CompressedPoint) (poly : Polynomials)
    (alpha rho tau1 tau2 y z x : Scalar) : Except (Failure BulletproofError) AggregateRangeProof :=
  let z := ScalarVector.powers z (3 + paddedPowOf2 witness.length)
  let l := ScalarVector.add poly.l0 (ScalarVector.mulScalar poly.l1 x)
  let r := ScalarVector.add poly.r0 (ScalarVector.mulScalar poly.r1 x)
  let tHat := ScalarVector.innerProduct l r
  let tauX := witness.zipIdx.foldl (fun tauX commitment => tauX + z.getD (2 + commitment.2) 0 * commitment.1.mask)
    ((tau2 * x + tau1) * x)
  let mu := alpha + rho * x
  let yInvPowN := ScalarVector.powers y⁻¹ l.length
  let xIp := transcriptTauXMuTHat Γ x tauX mu tHat
  match IpWitness.new l r with
  | none => .error (.panic "Bulletproofs::Original created an invalid IpWitness")
  | some ipWitness => match IpStatement.prove Γ { hBoldWeights := yInvPowN, u := xIp } xIp ipWitness with
    | .error _ => .error (.panic "Bulletproofs::Original failed to prove the inner-product")
    | .ok ip => .ok { A, S, T1, T2, tauX, mu, tHat, ip }

variable {Γ}

/-- The part of `AggregateRangeStatement::prove` after the check of the witness. -/
def proveRange (rng : Rng) (commitments : List Γ.Point) (witness : List Commitment) :
    Except (Failure BulletproofError) (AggregateRangeProof × Rng) :=
  let (transcript, _) := initialTranscript Γ commitments
  let padded := paddedPowOf2 witness.length
  let aL := amountBits witness
  let aR := ScalarVector.subScalar aL 1
  let (alpha, rng) := Scalar.random rng
  let A := vectorCommitment Γ alpha aL aR
  let (s, rng) := randomPairs (padded * COMMITMENT_BITS) rng
  let sL := s.map Prod.fst
  let sR := s.map Prod.snd
  let (rho, rng) := Scalar.random rng
  let S := vectorCommitment Γ rho sL sR
  let (y, z) := transcriptAS Γ transcript A S
  let poly := polynomials padded aL aR sL sR y z
  let (tau1, rng) := Scalar.random rng
  let T1 := coefficientCommitment Γ poly.t1 tau1
  let (tau2, rng) := Scalar.random rng
  let T2 := coefficientCommitment Γ poly.t2 tau2
  let x := transcriptT12 Γ z T1 T2
  (proveEvaluated Γ witness A S T1 T2 poly alpha rho tau1 tau2 y z x).map fun proof => (proof, rng)

/-- `AggregateRangeStatement::prove`. -/
def prove (rng : Rng) (statement : AggregateRangeStatement Γ) (witness : AggregateRangeWitness) :
    Except (Failure BulletproofError) (Option (AggregateRangeProof × Rng)) :=
  if statement.commitments ≠ witness.commitments.map (Commitment.commit Γ) then .ok none
  else (proveRange rng statement.commitments witness.commitments).map some

/-- The challenges of a proof, as the verifier computes them: `y`, `z`, `x` and `x_ip`. -/
def challenges (Γ : Ctx) (transcript : Scalar) (proof : AggregateRangeProof) : Scalar × Scalar × Scalar × Scalar :=
  let (y, z) := transcriptAS Γ transcript proof.A proof.S
  let x := transcriptT12 Γ z proof.T1 proof.T2
  (y, z, x, transcriptTauXMuTHat Γ x proof.tauX proof.mu proof.tHat)

/-- The padding of a batch at the start of `AggregateRangeStatement::verify`. -/
def pad (rows : ℕ) (verifier : InternalBatchVerifier Γ) : InternalBatchVerifier Γ :=
  let missing := List.replicate (rows - verifier.gBold.length) 0
  { verifier with gBold := verifier.gBold ++ missing, hBold := verifier.hBold ++ missing }

/-- What `AggregateRangeStatement::verify` accumulates for equation 65, with its weight. -/
def accumulateT (padded : ℕ) (commitments : List Γ.Point) (T1 T2 : Γ.Point) (proof : AggregateRangeProof) (weight y z x : Scalar)
    (verifier : InternalBatchVerifier Γ) : InternalBatchVerifier Γ :=
  let z := ScalarVector.powers z (3 + padded)
  let yPowN := ScalarVector.powers y (padded * COMMITMENT_BITS)
  let twos := ScalarVector.powers 2 COMMITMENT_BITS
  let verifier := (verifier.addH (weight * proof.tHat)).addG (weight * proof.tauX)
  -- The right hand side is accumulated with the weight negated
  let weight := -weight
  let verifier := verifier.addH (weight * (z.getD 1 0 - z.getD 2 0) * yPowN.sum)
  let verifier := verifier.push (commitments.zipIdx.map fun commitment => (weight * z.getD (2 + commitment.2) 0, commitment.1))
  let verifier := (List.range padded).foldl (fun verifier i => verifier.addH (-(weight * z.getD (3 + i) 0 * twos.sum))) verifier
  verifier.push [(weight * x, T1), (weight * (x * x), T2)]

/-- What `AggregateRangeStatement::verify` accumulates for equations 66 to 68, before the inner-product argument. -/
def accumulateIp (padded : ℕ) (A S : Γ.Point) (proof : AggregateRangeProof) (ipWeight y z x xIp : Scalar)
    (verifier : InternalBatchVerifier Γ) : InternalBatchVerifier Γ :=
  let ipRows := padded * COMMITMENT_BITS
  let z := ScalarVector.powers z (3 + padded)
  let yInvPowN := ScalarVector.powers y⁻¹ ipRows
  let twos := ScalarVector.powers 2 COMMITMENT_BITS
  let verifier := verifier.push [(ipWeight, A), (ipWeight * x, S)]
  let ipZ := ipWeight * z.getD 1 0
  let verifier := (verifier.addHBold ipRows fun _ => ipZ).addGBold ipRows fun _ => -ipZ
  let zTwos := zTwos padded z twos
  let verifier := verifier.addHBold ipRows fun i => ipWeight * yInvPowN.getD i 0 * zTwos.getD i 0
  (verifier.addH (ipWeight * xIp * proof.tHat)).addG (ipWeight * -proof.mu)

/-- `AggregateRangeStatement::verify`. -/
def verify (rng : Rng) (statement : AggregateRangeStatement Γ) (verifier : InternalBatchVerifier Γ) (proof : AggregateRangeProof) :
    Option (InternalBatchVerifier Γ × Rng) :=
  let padded := paddedPowOf2 statement.commitments.length
  let ipRows := padded * COMMITMENT_BITS
  let verifier := pad ipRows verifier
  let (transcript, commitments) := initialTranscript Γ statement.commitments
  let commitments := commitments.map fun commitment => (8 : ℕ) • commitment
  let (y, z, x, xIp) := challenges Γ transcript proof
  match decompMulCofactor Γ proof.A, decompMulCofactor Γ proof.S, decompMulCofactor Γ proof.T1, decompMulCofactor Γ proof.T2 with
  | some A, some S, some T1, some T2 =>
    let (weight, rng) := Scalar.random rng
    let verifier := accumulateT padded commitments T1 T2 proof weight y z x verifier
    let (ipWeight, rng) := Scalar.random rng
    let verifier := accumulateIp padded A S proof ipWeight y z x xIp verifier
    let statement : IpStatement := { hBoldWeights := ScalarVector.powers y⁻¹ ipRows, u := xIp }
    match statement.verify verifier ipRows xIp ipWeight proof.ip with
    | .ok verifier => some (verifier, rng)
    | .error _ => none
  | _, _, _, _ => none

end AggregateRangeStatement

end Original

end MoneroOxide
