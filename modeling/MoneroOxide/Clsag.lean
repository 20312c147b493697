import MoneroOxide.Proofs

/-!
# CLSAG (`ringct/clsag/src/lib.rs`, `ringct/clsag/src/decoys.rs`)

Signing and verifying share one loop over the ring, `core`, run with different bounds. The transcript is one buffer that is cut
back and edited in place, and is modelled as such.
-/

namespace MoneroOxide

/-- `MAX_RING_SIZE`. -/
def MAX_RING_SIZE : UInt8 := 255

namespace Decoys

/-- The loop of `Decoys::new`: the positions the offsets form are representable and strictly increase after the first. The
position of the first offset in what is left is `i`, and `sum` is the position before it. -/
def offsetsRepresentable : List UInt64 → (i : ℕ) → (sum : UInt64) → Bool
  | [], _, _ => true
  | offset :: offsets, i, sum =>
    let newSum := sum + offset
    (i == 0 || decide (sum < newSum)) && offsetsRepresentable offsets (i + 1) newSum

/-- The checks of `Decoys::new`. The length is compared as its low eight bits and the bits above them. -/
def check (offsets : List UInt64) (signerIndex : UInt8) (ringLen : ℕ) : Bool :=
  let ringLenDoesNotExceedMax := ringLen >>> 8 == 0 && !decide (MAX_RING_SIZE < UInt8.ofNat ringLen)
  let signerIndexPointsToRingMember := decide (signerIndex < UInt8.ofNat ringLen)
  let offsetsAlignWithRing := offsets.length == ringLen
  ringLenDoesNotExceedMax && signerIndexPointsToRingMember && offsetsAlignWithRing && offsetsRepresentable offsets 0 0

end Decoys

/-- `Decoys`: the ring to sign with, as pairs of a key and a commitment, and the signer's place in it. The fields are private, so
that each value has passed the checks of `Decoys::new`. -/
structure Decoys (Γ : Ctx) where
  offsets : List UInt64
  signerIndex : UInt8
  ring : List (Γ.Point × Γ.Point)
  valid : Decoys.check offsets signerIndex ring.length = true

namespace Decoys

variable {Γ : Ctx}

/-- `Decoys::new`. -/
def new (offsets : List UInt64) (signerIndex : UInt8) (ring : List (Γ.Point × Γ.Point)) : Option (Decoys Γ) :=
  if h : check offsets signerIndex ring.length = true then some { offsets, signerIndex, ring, valid := h } else none

theorem check_iff {offsets : List UInt64} {signerIndex : UInt8} {ringLen : ℕ} :
    check offsets signerIndex ringLen = true ↔
      ringLen ≤ 255 ∧ signerIndex.toNat < ringLen ∧ offsets.length = ringLen ∧ offsetsRepresentable offsets 0 0 = true := by
  have h255 : ∀ x : UInt8, ¬(MAX_RING_SIZE < x) := by
    intro x
    rw [UInt8.not_lt, UInt8.le_iff_toNat_le]
    have := x.toNat_lt
    show x.toNat ≤ 255
    omega
  have hshift : ringLen >>> 8 = 0 ↔ ringLen ≤ 255 := by
    rw [Nat.shiftRight_eq_div_pow]
    omega
  simp only [check, Bool.and_eq_true, beq_iff_eq, hshift, h255, decide_false, Bool.not_false, and_true, decide_eq_true_eq,
    UInt8.lt_iff_toNat_lt, and_assoc]
  refine and_congr_right fun h => ?_
  rw [UInt8.toNat_ofNat', Nat.mod_eq_of_lt (by omega)]

theorem signerIndex_lt (decoys : Decoys Γ) : decoys.signerIndex.toNat < decoys.ring.length := (check_iff.1 decoys.valid).2.1

theorem ring_ne_nil (decoys : Decoys Γ) : decoys.ring ≠ [] := by
  intro h
  have := decoys.signerIndex_lt
  simp [h] at this

/-- `Decoys::signer_ring_members`: the key and the commitment of the signer, selected by going through the ring. -/
def signerRingMembers (decoys : Decoys Γ) : Γ.Point × Γ.Point :=
  ((decoys.ring.zipIdx).drop 1).foldl
    (fun result member => if member.2 = decoys.signerIndex.toNat then member.1 else result)
    (decoys.ring.head decoys.ring_ne_nil)

end Decoys

/-- `ClsagError`. -/
inductive ClsagError where
  | InvalidRing
  | InvalidKey
  | InvalidCommitment
  | InvalidImage
  | InvalidD
  | InvalidS
  | InvalidC1
  deriving DecidableEq, Repr

/-- `ClsagContext`: the ring and the opening of the signer's commitment. The fields are private, so that the opening is of that
commitment. -/
structure ClsagContext (Γ : Ctx) where
  commitment : Commitment
  decoys : Decoys Γ
  opens : decoys.signerRingMembers.2 = commitment.commit Γ

/-- `ClsagContext::new`. -/
def ClsagContext.new {Γ : Ctx} (decoys : Decoys Γ) (commitment : Commitment) : Except ClsagError (ClsagContext Γ) :=
  if h : decoys.signerRingMembers.2 = commitment.commit Γ then .ok { commitment, decoys, opens := h }
  else .error .InvalidCommitment

namespace Clsag

/-- `Mode`: what signing and verifying do not share. -/
inductive Mode (Γ : Ctx) where
  | Sign (signerIndex : UInt8) (A AH : Γ.Point)
  | Verify (c1 : Scalar) (DSerialized : CompressedPoint)

/-- `PREFIX`. -/
def PREFIX : List UInt8 := ascii "CLSAG_"

/-- `AGG_0`. -/
def AGG_0 : List UInt8 := ascii "agg_0"

/-- `ROUND`. -/
def ROUND : List UInt8 := ascii "round"

/-- The state of the loop of `core`. -/
structure CoreState where
  toHash : List UInt8
  inRange : Bool
  c : Scalar
  c1 : Scalar

section

variable (Γ : Ctx)

/-- The points `L` and `R` of one member of the ring, `(s * G) + (c_p * P) + (c_c * C)` and `(c_p * I) + (c_c * D) + (s * PH)`. -/
def coreLR (I DTorsionFree P C : Γ.Point) (s cP cC : Scalar) : Γ.Point × Γ.Point :=
  let PH := Point.biasedHash Γ (Γ.compress P)
  (s • Γ.G + cP • P + cC • C, cP • I + cC • DTorsionFree + s • PH)

/-- One iteration of the loop of `core`. -/
def coreStep (ring : List (Γ.Point × Γ.Point)) (I pseudoOut DTorsionFree : Γ.Point) (s : List Scalar) (muP muC : Scalar)
    (start stop : ℕ) (state : CoreState) (i : ℕ) : CoreState :=
  let n := ring.length
  let inRange := Bool.xor (state.inRange || i == start) (i == stop)
  let i := i % n
  let member := ring.getD i (0, 0)
  let (L, R) := coreLR Γ I DTorsionFree member.1 (member.2 - pseudoOut) (s.getD i 0) (muP * state.c) (muC * state.c)
  let toHash := state.toHash.take ((2 * n + 3) * 32) ++ (Γ.compress L).toList ++ (Γ.compress R).toList
  let c := if inRange then Scalar.hash Γ toHash else state.c
  let c1 := if inRange && i == n - 1 then c else state.c1
  { toHash, inRange, c, c1 }

/-- The transcript for the two aggregation coefficients, for the first of them. -/
def aggTranscript (ring : List (Γ.Point × Γ.Point)) (I pseudoOut : Γ.Point) (D : CompressedPoint) : List UInt8 :=
  PREFIX ++ AGG_0 ++ List.replicate (32 - (PREFIX.length + AGG_0.length)) 0 ++
    ring.flatMap (fun member => (Γ.compress member.1).toList) ++ ring.flatMap (fun member => (Γ.compress member.2).toList) ++
    (Γ.compress I).toList ++ D.toList ++ (Γ.compress pseudoOut).toList

/-- The transcript for a round, which is that for the second coefficient cut back and with its domain changed. -/
def roundTranscript (n : ℕ) (pseudoOut : Γ.Point) (msgHash : Bytes 32) (toHash : List UInt8) : List UInt8 :=
  let toHash := toHash.take ((2 * n + 1) * 32)
  let toHash := ROUND.zipIdx.foldl (fun toHash byte => toHash.set (PREFIX.length + byte.2) byte.1) toHash
  toHash ++ (Γ.compress pseudoOut).toList ++ msgHash.toList

/-- `core`: the core of the CLSAG algorithm, applicable to both signing and verifying. It returns what signing continues with, and
the challenge to test or to work with. -/
def core (ring : List (Γ.Point × Γ.Point)) (I pseudoOut : Γ.Point) (msgHash : Bytes 32) (DTorsionFree : Γ.Point)
    (s : List Scalar) (Ac1 : Mode Γ) : (Γ.Point × Scalar × Scalar) × Scalar :=
  let n := ring.length
  let DInvEight := Scalar.INV_EIGHT • DTorsionFree
  let toHash := aggTranscript Γ ring I pseudoOut (match Ac1 with
    | .Sign .. => Γ.compress DInvEight
    | .Verify _ DSerialized => DSerialized)
  let muP := Scalar.hash Γ toHash
  let toHash := toHash.set (PREFIX.length + AGG_0.length - 1) 49
  let muC := Scalar.hash Γ toHash
  let toHash := roundTranscript Γ n pseudoOut msgHash toHash
  let (start, stop, iterEnd, toHash, c) := match Ac1 with
    | .Sign signerIndex A AH =>
      let toHash := toHash ++ (Γ.compress A).toList ++ (Γ.compress AH).toList
      (signerIndex.toNat + 1, signerIndex.toNat + n, 2 * n, toHash, Scalar.hash Γ toHash)
    | .Verify c1 _ => (0, n, n, toHash, c1)
  let final := (List.range iterEnd).foldl (coreStep Γ ring I pseudoOut DTorsionFree s muP muC start stop)
    { toHash, inRange := false, c, c1 := c }
  ((DInvEight, final.c * muP, final.c * muC), final.c1)

end

/-- `ClsagSignCore`. -/
structure SignCore (Γ : Ctx) where
  incompleteClsag : Clsag
  pseudoOut : Γ.Point
  keyChallenge : Scalar
  challengedMask : Scalar

/-- Draw a list of random scalars. -/
def randomScalars : ℕ → Rng → List Scalar × Rng
  | 0, rng => ([], rng)
  | n + 1, rng =>
    let (s, rng) := Scalar.random rng
    let (ss, rng) := randomScalars n rng
    (s :: ss, rng)

section

variable {Γ : Ctx}

/-- `Clsag::sign_core`: the extension of `core` for signing, shared by a single signer and multisig. -/
def signCore (rng : Rng) (I : Γ.Point) (input : ClsagContext Γ) (mask : Scalar) (msgHash : Bytes 32) (A AH : Γ.Point) :
    SignCore Γ × Rng :=
  let signerIndex := input.decoys.signerIndex
  let pseudoOut := Commitment.commit Γ { mask, amount := input.commitment.amount }
  let maskDelta := input.commitment.mask - mask
  let H := Point.biasedHash Γ (Γ.compress input.decoys.signerRingMembers.1)
  let D := maskDelta • H
  let (s, rng) := randomScalars input.decoys.ring.length rng
  let ((D, cP, cC), c1) := core Γ input.decoys.ring I pseudoOut msgHash D s (.Sign signerIndex A AH)
  ({ incompleteClsag := { D := Γ.compress D, s, c1 }, pseudoOut, keyChallenge := cP, challengedMask := cC * maskDelta }, rng)

/-- What `Clsag::sign` computes of each input first: the generator of its key image, and the key image. -/
def keyImages : List (Scalar × ClsagContext Γ) → Except ClsagError (List (Γ.Point × Γ.Point))
  | [] => .ok []
  | (key, context) :: inputs => do
    let publicKey := context.decoys.signerRingMembers.1
    if key • Γ.G ≠ publicKey then throw .InvalidKey
    else do
      let keyImageGenerator := Point.biasedHash Γ (Γ.compress publicKey)
      let rest ← keyImages inputs
      pure ((keyImageGenerator, key • keyImageGenerator) :: rest)

/-- Put the signer's response in its place. The loop of the source goes through the places up to the end of the list. -/
def setSignerS (s : List Scalar) (signerIndex : UInt8) (signerS : Scalar) : List Scalar :=
  s.zipIdx.map fun member => if member.2 = signerIndex.toNat then signerS else member.1

/-- The second loop of `Clsag::sign`, with the sum of the masks of the pseudo-outs so far. The mask of the last input is what the
others leave of the sum. -/
def signLoop (sumOutputs : Scalar) (msgHash : Bytes 32) :
    List ((Scalar × ClsagContext Γ) × (Γ.Point × Γ.Point)) → Scalar → Rng → List (Clsag × Γ.Point) × Rng
  | [], _, rng => ([], rng)
  | ((key, context), (keyImageGenerator, keyImage)) :: inputs, sumPseudoOuts, rng =>
    let (mask, sumPseudoOuts, rng) :=
      if inputs.isEmpty then (sumOutputs - sumPseudoOuts, sumPseudoOuts, rng)
      else
        let (mask, rng) := Scalar.random rng
        (mask, sumPseudoOuts + mask, rng)
    let (nonce, rng) := Scalar.random rng
    let (signed, rng) := signCore rng keyImage context mask msgHash (nonce • Γ.G) (nonce • keyImageGenerator)
    let signerS := nonce - (signed.keyChallenge * key + signed.challengedMask)
    let clsag := { signed.incompleteClsag with
      s := setSignerS signed.incompleteClsag.s context.decoys.signerIndex signerS }
    let (res, rng) := signLoop sumOutputs msgHash inputs sumPseudoOuts rng
    ((clsag, signed.pseudoOut) :: res, rng)

/-- `Clsag::sign`: sign for the inputs, each given as the discrete logarithm of its key and its context. -/
def sign (rng : Rng) (inputs : List (Scalar × ClsagContext Γ)) (sumOutputs : Scalar) (msgHash : Bytes 32) :
    Except ClsagError (List (Clsag × Γ.Point) × Rng) := do
  let images ← keyImages inputs
  pure (signLoop sumOutputs msgHash (inputs.zip images) 0 rng)

/-- Decompress both points of a member of the ring. -/
def decompressMember (Γ : Ctx) (member : CompressedPoint × CompressedPoint) : Option (Γ.Point × Γ.Point) := do
  let key ← CompressedPoint.decompress Γ member.1
  let commitment ← CompressedPoint.decompress Γ member.2
  pure (key, commitment)

/-- `Clsag::verify`. -/
def verify (Γ : Ctx) (clsag : Clsag) (ring : List (CompressedPoint × CompressedPoint)) (I pseudoOut : CompressedPoint)
    (msgHash : Bytes 32) : Except ClsagError Unit :=
  if ring.isEmpty then .error .InvalidRing
  else if ring.length ≠ clsag.s.length then .error .InvalidS
  else match (CompressedPoint.decompress Γ I).bind (Point.keyImage Γ) with
    | none => .error .InvalidImage
    | some I => match CompressedPoint.decompress Γ pseudoOut with
      | none => .error .InvalidCommitment
      | some pseudoOut => match CompressedPoint.decompress Γ clsag.D with
        | none => .error .InvalidD
        | some D =>
          let DTorsionFree := (8 : ℕ) • D
          if DTorsionFree = 0 then .error .InvalidD
          else match ring.mapM (decompressMember Γ) with
            | none => .error .InvalidRing
            | some ring =>
              let (_, c1) := core Γ ring I pseudoOut msgHash DTorsionFree clsag.s (.Verify clsag.c1 clsag.D)
              if c1 ≠ clsag.c1 then .error .InvalidC1 else .ok ()

end

end Clsag

end MoneroOxide
