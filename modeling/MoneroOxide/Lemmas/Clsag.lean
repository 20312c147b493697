import MoneroOxide.Clsag
import MoneroOxide.Lib.ChallengeRing

/-!
# What `core` computes

The loop of `core` is the window loop of `ChallengeRing` over the challenge of a round, and the transcript it works on always starts
with the same bytes. From this follow `core_sign` and `core_verify`, and that a signature completed with the signer's response
verifies (`verify_signCore`), which both a single signer and multisig rest on.
-/

namespace MoneroOxide

open ChallengeRing

namespace Decoys

variable {Γ : Ctx}

/-- Selecting the member with an index while going through a list. -/
theorem foldl_select {α : Type} (l : ℕ) (xs : List α) (k : ℕ) (a : α) :
    (xs.zipIdx k).foldl (fun result member => if member.2 = l then member.1 else result) a =
      if k ≤ l then xs.getD (l - k) a else a := by
  induction xs generalizing k a with
  | nil => simp
  | cons x xs ih =>
    rw [List.zipIdx_cons, List.foldl_cons, ih]
    rcases Nat.lt_trichotomy k l with h | h | h
    · rw [if_pos (by omega), if_neg (by omega), if_pos (by omega), show l - k = (l - (k + 1)) + 1 by omega, List.getD_cons_succ]
    · rw [if_neg (by omega), if_pos h, if_pos (by omega), h, Nat.sub_self, List.getD_cons_zero]
    · rw [if_neg (by omega), if_neg (by omega), if_neg (by omega)]

/-- The members selected are those at the signer's place. -/
theorem signerRingMembers_eq (decoys : Decoys Γ) (a : Γ.Point × Γ.Point) :
    decoys.signerRingMembers = decoys.ring.getD decoys.signerIndex.toNat a := by
  have hlt := decoys.signerIndex_lt
  unfold signerRingMembers
  generalize decoys.ring_ne_nil = hne
  generalize decoys.signerIndex.toNat = l at hlt
  revert hne hlt
  cases decoys.ring with
  | nil => exact fun hne => absurd rfl hne
  | cons x xs =>
    intro hne hlt
    rw [List.zipIdx_cons, List.drop_one, List.tail_cons, foldl_select, List.head_cons]
    cases l with
    | zero => rfl
    | succ l =>
      rw [if_pos (by omega), Nat.zero_add, Nat.add_sub_cancel, List.getD_cons_succ]
      have : l < xs.length := by simpa using hlt
      rw [List.getD_eq_getElem?_getD, List.getD_eq_getElem?_getD, List.getElem?_eq_getElem this]
      rfl

end Decoys

namespace Clsag

section

variable (Γ : Ctx) (ring : List (Γ.Point × Γ.Point)) (I pseudoOut D : Γ.Point) (Dc : CompressedPoint) (msgHash : Bytes 32)

/-- `mu_P`. -/
def muP : Scalar := Scalar.hash Γ (aggTranscript Γ ring I pseudoOut Dc)

/-- `mu_C`. -/
def muC : Scalar := Scalar.hash Γ ((aggTranscript Γ ring I pseudoOut Dc).set (PREFIX.length + AGG_0.length - 1) 49)

/-- What the transcript of every round starts with. -/
def roundBase : List UInt8 :=
  roundTranscript Γ ring.length pseudoOut msgHash
    ((aggTranscript Γ ring I pseudoOut Dc).set (PREFIX.length + AGG_0.length - 1) 49)

/-- The challenge of the next member, from the points `L` and `R` of a member. -/
def challenge (LR : Γ.Point × Γ.Point) : Scalar :=
  Scalar.hash Γ (roundBase Γ ring I pseudoOut Dc msgHash ++ (Γ.compress LR.1).toList ++ (Γ.compress LR.2).toList)

/-- The points `L` and `R` of the member at an index, for its challenge. -/
def memberLR (s : List Scalar) (i : ℕ) (c : Scalar) : Γ.Point × Γ.Point :=
  let member := ring.getD i (0, 0)
  coreLR Γ I D member.1 (member.2 - pseudoOut) (s.getD i 0) (muP Γ ring I pseudoOut Dc * c) (muC Γ ring I pseudoOut Dc * c)

/-- The challenge of the member after an index, from the challenge of the member at that index. -/
def nextChallenge (s : List Scalar) (i : ℕ) (c : Scalar) : Scalar :=
  challenge Γ ring I pseudoOut Dc msgHash (memberLR Γ ring I pseudoOut D Dc s i c)

theorem length_flatMap_compress (f : Γ.Point × Γ.Point → Γ.Point) :
    (ring.flatMap fun member => (Γ.compress (f member)).toList).length = 32 * ring.length := by
  induction ring with
  | nil => rfl
  | cons member ring ih =>
    rw [List.flatMap_cons, List.length_append, ih, Bytes.length_toList, List.length_cons]
    omega

theorem length_aggTranscript : (aggTranscript Γ ring I pseudoOut Dc).length = (2 * ring.length + 4) * 32 := by
  have hdomain : (PREFIX ++ AGG_0 ++ List.replicate (32 - (PREFIX.length + AGG_0.length)) 0).length = 32 := by decide
  unfold aggTranscript
  simp only [List.length_append, length_flatMap_compress, Bytes.length_toList] at hdomain ⊢
  omega

theorem length_foldl_set (bytes : List (UInt8 × ℕ)) (toHash : List UInt8) :
    (bytes.foldl (fun toHash byte => toHash.set (PREFIX.length + byte.2) byte.1) toHash).length = toHash.length := by
  induction bytes generalizing toHash with
  | nil => rfl
  | cons byte bytes ih => rw [List.foldl_cons, ih, List.length_set]

theorem length_roundBase : (roundBase Γ ring I pseudoOut Dc msgHash).length = (2 * ring.length + 3) * 32 := by
  simp only [roundBase, roundTranscript, List.length_append, length_foldl_set, List.length_take, List.length_set,
    length_aggTranscript, Bytes.length_toList]
  omega

variable {Γ ring I pseudoOut D Dc msgHash}

/-- The window of a state of the loop. -/
def CoreState.window (state : CoreState) : Window Scalar := { inRange := state.inRange, c := state.c, c1 := state.c1 }

/-- One iteration keeps the start of the transcript, and does to the window what `windowStep` does. -/
theorem coreStep_spec (D : Γ.Point) (s : List Scalar) (start stop : ℕ) {state : CoreState}
    (h : state.toHash.take ((2 * ring.length + 3) * 32) = roundBase Γ ring I pseudoOut Dc msgHash) (i : ℕ) :
    let next := coreStep Γ ring I pseudoOut D s (muP Γ ring I pseudoOut Dc) (muC Γ ring I pseudoOut Dc) start stop state i
    next.toHash.take ((2 * ring.length + 3) * 32) = roundBase Γ ring I pseudoOut Dc msgHash ∧
    next.window = windowStep (nextChallenge Γ ring I pseudoOut D Dc msgHash s) ring.length start stop state.window i := by
  constructor
  · simp only [coreStep, h, List.append_assoc]
    rw [List.take_append_of_le_length (by rw [length_roundBase]), ← length_roundBase Γ ring I pseudoOut Dc msgHash,
      List.take_length]
  · simp only [coreStep, h, CoreState.window, windowStep, nextChallenge, challenge, memberLR]
    rfl

theorem foldl_coreStep (D : Γ.Point) (s : List Scalar) (start stop : ℕ) (is : List ℕ) {state : CoreState}
    (h : state.toHash.take ((2 * ring.length + 3) * 32) = roundBase Γ ring I pseudoOut Dc msgHash) :
    (is.foldl (coreStep Γ ring I pseudoOut D s (muP Γ ring I pseudoOut Dc) (muC Γ ring I pseudoOut Dc) start stop) state).window =
      is.foldl (windowStep (nextChallenge Γ ring I pseudoOut D Dc msgHash s) ring.length start stop) state.window := by
  induction is generalizing state with
  | nil => rfl
  | cons i is ih =>
    obtain ⟨hbase, hwindow⟩ := coreStep_spec D s start stop h i
    rw [List.foldl_cons, List.foldl_cons, ih hbase, hwindow]

/-- What `core` returns when signing: the challenges go from the place after the signer's around to the signer's. -/
theorem core_sign (I pseudoOut : Γ.Point) (msgHash : Bytes 32) (s : List Scalar) {l : UInt8} (A AH : Γ.Point)
    (hl : l.toNat < ring.length) (hDc : Dc = Γ.compress (Scalar.INV_EIGHT • D)) {at' : ℕ → Scalar}
    (hat : at' = chain (nextChallenge Γ ring I pseudoOut D Dc msgHash s) ring.length (l.toNat + 1)
      (challenge Γ ring I pseudoOut Dc msgHash (A, AH))) :
    core Γ ring I pseudoOut msgHash D s (.Sign l A AH) =
      ((Scalar.INV_EIGHT • D, at' (ring.length + l.toNat) * muP Γ ring I pseudoOut Dc,
        at' (ring.length + l.toNat) * muC Γ ring I pseudoOut Dc), at' ring.length) := by
  subst hDc hat
  set Dc := Γ.compress (Scalar.INV_EIGHT • D)
  set c₀ := challenge Γ ring I pseudoOut Dc msgHash (A, AH)
  let state : CoreState :=
    { toHash := roundBase Γ ring I pseudoOut Dc msgHash ++ (Γ.compress A).toList ++ (Γ.compress AH).toList,
      inRange := false, c := c₀, c1 := c₀ }
  let final := (List.range (2 * ring.length)).foldl (coreStep Γ ring I pseudoOut D s (muP Γ ring I pseudoOut Dc)
    (muC Γ ring I pseudoOut Dc) (l.toNat + 1) (l.toNat + ring.length)) state
  have hcore : core Γ ring I pseudoOut msgHash D s (.Sign l A AH) =
      ((Scalar.INV_EIGHT • D, final.c * muP Γ ring I pseudoOut Dc, final.c * muC Γ ring I pseudoOut Dc), final.c1) := rfl
  have htake : state.toHash.take ((2 * ring.length + 3) * 32) = roundBase Γ ring I pseudoOut Dc msgHash := by
    simp only [state, List.append_assoc]
    exact List.take_left' (length_roundBase ..)
  have hwindow : final.window = _ := (foldl_coreStep D s _ _ _ htake).trans
    (foldl_windowStep (nextChallenge Γ ring I pseudoOut D Dc msgHash s) (l.toNat + 1) (l.toNat + ring.length)
      (by omega) (by omega) (by omega) (by omega) c₀ le_rfl)
  rw [Nat.min_eq_right (by omega), if_pos (by omega), Nat.add_comm l.toNat ring.length] at hwindow
  have hc : final.c = _ := congrArg Window.c hwindow
  have hc1 : final.c1 = _ := congrArg Window.c1 hwindow
  rw [hcore, hc, hc1]

/-- What `core` returns when verifying: the challenges go around the ring once. -/
theorem core_verify {s : List Scalar} {c1 : Scalar} (hring : ring ≠ []) :
    (core Γ ring I pseudoOut msgHash D s (.Verify c1 Dc)).2 =
      chain (nextChallenge Γ ring I pseudoOut D Dc msgHash s) ring.length 0 c1 ring.length := by
  have hn : 0 < ring.length := List.length_pos_iff.2 hring
  let state : CoreState :=
    { toHash := roundBase Γ ring I pseudoOut Dc msgHash, inRange := false, c := c1, c1 := c1 }
  have htake : state.toHash.take ((2 * ring.length + 3) * 32) = roundBase Γ ring I pseudoOut Dc msgHash := by
    rw [← length_roundBase Γ ring I pseudoOut Dc msgHash]
    exact List.take_length
  have hwindow := (foldl_coreStep D s 0 ring.length (List.range ring.length) htake).trans
    (foldl_windowStep (nextChallenge Γ ring I pseudoOut D Dc msgHash s) 0 ring.length hn (by omega)
      le_rfl (by omega) c1 (by omega))
  rw [if_pos le_rfl] at hwindow
  exact congrArg Window.c1 hwindow

end

/-! ## A completed signature verifies -/

section

variable {Γ : Ctx}

/-- The ring as whoever verifies is given it. -/
def compressRing (Γ : Ctx) (ring : List (Γ.Point × Γ.Point)) : List (CompressedPoint × CompressedPoint) :=
  ring.map fun member => (Γ.compress member.1, Γ.compress member.2)

theorem decompress_compressRing (ring : List (Γ.Point × Γ.Point)) :
    (compressRing Γ ring).mapM (decompressMember Γ) = some ring := by
  induction ring with
  | nil => rfl
  | cons member ring ih =>
    have hmember : decompressMember Γ (Γ.compress member.1, Γ.compress member.2) = some member := by
      simp [decompressMember, CompressedPoint.decompress_compress]
    rw [compressRing] at ih
    simp [compressRing, hmember, ih]

theorem length_randomScalars (n : ℕ) (rng : Rng) : (randomScalars n rng).1.length = n := by
  induction n generalizing rng with
  | zero => rfl
  | succ n ih => simp [randomScalars, ih]

theorem length_setSignerS (s : List Scalar) (l : UInt8) (signerS : Scalar) : (setSignerS s l signerS).length = s.length := by
  simp [setSignerS]

theorem getD_setSignerS {s : List Scalar} {l : UInt8} {signerS : Scalar} {i : ℕ} (hi : i < s.length) :
    (setSignerS s l signerS).getD i 0 = if i = l.toNat then signerS else s.getD i 0 := by
  simp [setSignerS, List.getD_eq_getElem?_getD, hi]

/-- The points of the signer's place, for the response that cancels the challenge, are the nonce's. -/
theorem coreLR_signer {x Δ r cP cC : Scalar} {Hp P C : Γ.Point} (hHp : Hp = Point.biasedHash Γ (Γ.compress P))
    (hP : P = x • Γ.G) (hC : C = Δ • Γ.G) :
    coreLR Γ (x • Hp) (Δ • Hp) P C (r - (cP * x + cC * Δ)) cP cC = (r • Γ.G, r • Hp) := by
  have hG : Γ.TorsionFree Γ.G := Ctx.torsionFree_G
  have hH : Γ.TorsionFree Hp := hHp ▸ Ctx.torsionFree_biasedHash _
  rw [coreLR, ← hHp, hP, hC]
  refine Prod.ext ?_ ?_
  · show (r - (cP * x + cC * Δ)) • Γ.G + cP • x • Γ.G + cC • Δ • Γ.G = r • Γ.G
    rw [← hG.mul_smul, ← hG.mul_smul, ← hG.add_smul, ← hG.add_smul]
    congr 1
    ring
  · show cP • x • Hp + cC • Δ • Hp + (r - (cP * x + cC * Δ)) • Hp = r • Hp
    rw [← hH.mul_smul, ← hH.mul_smul, ← hH.add_smul, ← hH.add_smul]
    congr 1
    ring

/-- The difference of two commitments to one amount is that of the masks. -/
theorem commit_sub_commit (mask mask' : Scalar) (amount : UInt64) :
    Commitment.commit Γ { mask, amount } - Commitment.commit Γ { mask := mask', amount } = (mask - mask') • Γ.G := by
  rw [Commitment.commit, Commitment.commit, add_sub_add_right_eq_sub, Ctx.torsionFree_G.sub_smul]

/-- The generator of the key image of the signer's key. -/
def imageGenerator (context : ClsagContext Γ) : Γ.Point :=
  Point.biasedHash Γ (Γ.compress context.decoys.signerRingMembers.1)

/-- What `Clsag::verify` accepts: points that decompress, a valid key image and `D`, and challenges that go around the ring. -/
theorem verify_eq_ok {clsag : Clsag} {ring : List (Γ.Point × Γ.Point)} {I pseudoOut D : Γ.Point} {msgHash : Bytes 32}
    (hring : ring ≠ []) (hs : ring.length = clsag.s.length) (hI0 : I ≠ 0) (hI : Γ.TorsionFree I)
    (hD : clsag.D = Γ.compress D) (hD0 : (8 : ℕ) • D ≠ 0)
    (hc1 : chain (nextChallenge Γ ring I pseudoOut ((8 : ℕ) • D) clsag.D msgHash clsag.s) ring.length 0 clsag.c1 ring.length =
      clsag.c1) :
    verify Γ clsag (compressRing Γ ring) (Γ.compress I) (Γ.compress pseudoOut) msgHash = .ok () := by
  have hImage : Point.keyImage Γ I = some I := by simp [Point.keyImage, hI0, hI]
  have hne : (compressRing Γ ring).isEmpty = false := by simp [compressRing, hring]
  have hlen : ¬(compressRing Γ ring).length ≠ clsag.s.length := by simp [compressRing, hs]
  have hDd : CompressedPoint.decompress Γ clsag.D = some D := by rw [hD, CompressedPoint.decompress_compress]
  unfold verify
  simp only [hne, Bool.false_eq_true, if_false, if_neg hlen, CompressedPoint.decompress_compress, Option.bind_some, hImage, hDd,
    if_neg hD0, decompress_compressRing, core_verify hring, hc1, ne_eq, not_true_eq_false]

/-- A signature whose response at the signer's place cancels the challenge, for the discrete logarithm `x` of the signer's key and
the nonce `r`, verifies. -/
theorem verify_signCore {rng : Rng} {context : ClsagContext Γ} {x r mask : Scalar} {msgHash : Bytes 32} {signed : SignCore Γ}
    (hx : x • Γ.G = context.decoys.signerRingMembers.1) (hx0 : x ≠ 0) (hHp : imageGenerator context ≠ 0)
    (hmask : mask ≠ context.commitment.mask)
    (hsigned : signed =
      (signCore rng (x • imageGenerator context) context mask msgHash (r • Γ.G) (r • imageGenerator context)).1) :
    verify Γ { signed.incompleteClsag with
        s := setSignerS signed.incompleteClsag.s context.decoys.signerIndex
          (r - (signed.keyChallenge * x + signed.challengedMask)) }
      (compressRing Γ context.decoys.ring) (Γ.compress (x • imageGenerator context)) (Γ.compress signed.pseudoOut) msgHash =
      .ok () := by
  set l := context.decoys.signerIndex with hl
  set ring := context.decoys.ring with hring
  set Hp := imageGenerator context with hHpdef
  set Δ := context.commitment.mask - mask with hΔ
  set pseudoOut := Commitment.commit Γ { mask, amount := context.commitment.amount } with hpo
  set s := (randomScalars ring.length rng).1 with hs
  set Dc := Γ.compress (Scalar.INV_EIGHT • Δ • Hp) with hDc
  set g := nextChallenge Γ ring (x • Hp) pseudoOut (Δ • Hp) Dc msgHash s with hg
  set c₀ := challenge Γ ring (x • Hp) pseudoOut Dc msgHash (r • Γ.G, r • Hp) with hc₀
  set c := chain g ring.length (l.toNat + 1) c₀ (ring.length + l.toNat) with hc
  have hlt : l.toNat < ring.length := context.decoys.signerIndex_lt
  have hslen : s.length = ring.length := length_randomScalars _ _
  have hHpTF : Γ.TorsionFree Hp := Ctx.torsionFree_biasedHash _
  have hΔ0 : Δ ≠ 0 := sub_ne_zero.2 (Ne.symm hmask)
  have hsigned' : signed =
      { incompleteClsag := { D := Dc, s, c1 := chain g ring.length (l.toNat + 1) c₀ ring.length }, pseudoOut,
        keyChallenge := c * muP Γ ring (x • Hp) pseudoOut Dc,
        challengedMask := c * muC Γ ring (x • Hp) pseudoOut Dc * Δ } := by
    have hcore := core_sign (x • Hp) pseudoOut msgHash s (r • Γ.G) (r • Hp) hlt hDc rfl
    have hfst : (signCore rng (x • Hp) context mask msgHash (r • Γ.G) (r • Hp)).1 =
        let signed := core Γ ring (x • Hp) pseudoOut msgHash (Δ • Hp) s (.Sign l (r • Γ.G) (r • Hp))
        { incompleteClsag := { D := Γ.compress signed.1.1, s, c1 := signed.2 }, pseudoOut, keyChallenge := signed.1.2.1,
          challengedMask := signed.1.2.2 * Δ } := rfl
    rw [hsigned, hfst, hcore]
  subst hsigned'
  refine verify_eq_ok (D := Scalar.INV_EIGHT • Δ • Hp) context.decoys.ring_ne_nil ?_ ?_ (hHpTF.smul x) rfl ?_ ?_
  · rw [length_setSignerS, hslen]
  · rw [ne_eq, hHpTF.smul_eq_zero, not_or]
    exact ⟨hx0, hHp⟩
  · rw [eight_smul_inv_eight (hHpTF.smul Δ), ne_eq, hHpTF.smul_eq_zero, not_or]
    exact ⟨hΔ0, hHp⟩
  · rw [eight_smul_inv_eight (hHpTF.smul Δ)]
    refine chain_closes hlt ?_ ?_
    · intro i hi hne
      funext c
      rw [hg, nextChallenge, nextChallenge, memberLR, memberLR, getD_setSignerS (hslen ▸ hi), if_neg hne]
    · have hmember : ring.getD l.toNat (0, 0) = context.decoys.signerRingMembers :=
        (context.decoys.signerRingMembers_eq (0, 0)).symm
      have hC : context.decoys.signerRingMembers.2 - pseudoOut = Δ • Γ.G := by rw [context.opens, hpo, hΔ, ← commit_sub_commit]
      rw [← hc, nextChallenge, memberLR, getD_setSignerS (hslen ▸ hlt), if_pos rfl, hmember]
      have hs' : r - (c * muP Γ ring (x • Hp) pseudoOut Dc * x + c * muC Γ ring (x • Hp) pseudoOut Dc * Δ) =
          r - (muP Γ ring (x • Hp) pseudoOut Dc * c * x + muC Γ ring (x • Hp) pseudoOut Dc * c * Δ) := by ring
      dsimp only
      rw [hs', coreLR_signer hHpdef hx.symm hC]

end

end Clsag

end MoneroOxide
