import MoneroOxide.Lemmas.Clsag
import MoneroOxide.Lemmas.Instance
import MoneroOxide.Lemmas.RingProofs
import MoneroOxide.Lib.Results
import Mathlib.Data.Fintype.Pigeonhole

/-!
# CLSAGs are sound

A CLSAG is for the sum of a key and of what a commitment differs by from the pseudo-out, with coefficients which are hashes. A fork at
the challenges gives the discrete logarithm of that sum for some member. With more forks than members, for coefficients which are
independent, two of them are for one member: then the secret of its key is known, that the key image is the one for it, and that the
pseudo-out is a commitment to the amount of the member.
-/

namespace MoneroOxide

namespace Clsag

open ChallengeRing

variable {Γ : Ctx}

/-! ## What is accepted -/

/-- What is hashed for the member at an index. -/
def roundString (Γ : Ctx) (ring : List (Γ.Point × Γ.Point)) (I pseudoOut D : Γ.Point) (Dc : CompressedPoint) (msgHash : Bytes 32)
    (s : List Scalar) (c : Scalar) (i : ℕ) : List UInt8 :=
  roundBase Γ ring I pseudoOut Dc msgHash ++ (Γ.compress (memberLR Γ ring I pseudoOut D Dc s i c).1).toList ++
    (Γ.compress (memberLR Γ ring I pseudoOut D Dc s i c).2).toList

theorem chain_eq_around {ring : List (Γ.Point × Γ.Point)} {I pseudoOut D : Γ.Point} {Dc : CompressedPoint} {msgHash : Bytes 32}
    {s : List Scalar} (c1 : Scalar) :
    chain (nextChallenge Γ ring I pseudoOut D Dc msgHash s) ring.length 0 c1 ring.length =
      around (Scalar.hash Γ) (roundString Γ ring I pseudoOut D Dc msgHash s) (List.range ring.length) c1 := by
  rw [chain, Nat.sub_zero, ← List.range_eq_range', around]
  refine List.foldl_ext _ _ _ fun c i hi => ?_
  rw [Nat.mod_eq_of_lt (List.mem_range.1 hi)]
  rfl

/-- What `verify` is given, decompressed. -/
structure Opened (Γ : Ctx) (clsag : Clsag) (ring : List (CompressedPoint × CompressedPoint)) (I pseudoOut : CompressedPoint)
    (members : List (Γ.Point × Γ.Point)) (image pseudo D : Γ.Point) : Prop where
  ring : ring.mapM (decompressMember Γ) = some members
  nonempty : members ≠ []
  length : members.length = clsag.s.length
  image : (CompressedPoint.decompress Γ I).bind (Point.keyImage Γ) = some image
  pseudoOut : CompressedPoint.decompress Γ pseudoOut = some pseudo
  D : CompressedPoint.decompress Γ clsag.D = some D

/-- What is accepted: everything can be decompressed, and going around the members gives the challenge back. -/
theorem verify_ok {clsag : Clsag} {ring : List (CompressedPoint × CompressedPoint)} {I pseudoOut : CompressedPoint} {msgHash : Bytes 32}
    (h : verify Γ clsag ring I pseudoOut msgHash = .ok ()) :
    ∃ members image pseudo D, Opened Γ clsag ring I pseudoOut members image pseudo D ∧
      around (Scalar.hash Γ) (roundString Γ members image pseudo ((8 : ℕ) • D) clsag.D msgHash clsag.s) (List.range members.length)
        clsag.c1 = clsag.c1 := by
  unfold verify at h
  by_cases hempty : ring.isEmpty
  · rw [if_pos hempty] at h
    cases h
  rw [if_neg hempty] at h
  by_cases hlen : ring.length ≠ clsag.s.length
  · rw [if_pos hlen] at h
    cases h
  rw [if_neg hlen] at h
  rw [not_not] at hlen
  cases himage : (CompressedPoint.decompress Γ I).bind (Point.keyImage Γ) with
  | none => simp [himage] at h
  | some image =>
    cases hpseudo : CompressedPoint.decompress Γ pseudoOut with
    | none => simp [himage, hpseudo] at h
    | some pseudo =>
      cases hD : CompressedPoint.decompress Γ clsag.D with
      | none => simp [himage, hpseudo, hD] at h
      | some D =>
        simp only [himage, hpseudo, hD] at h
        by_cases hD0 : (8 : ℕ) • D = 0
        · rw [if_pos hD0] at h
          cases h
        rw [if_neg hD0] at h
        cases hring : ring.mapM (decompressMember Γ) with
        | none => simp [hring] at h
        | some members =>
          have hlength : members.length = ring.length := (Results.mapM_eq_some.1 hring).length_eq.symm
          have hne : members ≠ [] := by
            rintro rfl
            rw [List.length_nil, eq_comm, List.length_eq_zero_iff] at hlength
            exact hempty (by rw [hlength]; rfl)
          simp only [hring, core_verify hne, chain_eq_around] at h
          refine ⟨members, image, pseudo, D, ⟨hring, hne, hlength.trans hlen, himage, hpseudo, hD⟩, ?_⟩
          by_contra hc
          rw [if_pos hc] at h
          cases h

/-! ## What is hashed -/

/-- The transcripts which the loop of `core` hashes, one for each index. -/
def hashedLoop (Γ : Ctx) (ring : List (Γ.Point × Γ.Point)) (I pseudoOut D : Γ.Point) (s : List Scalar) (muP muC : Scalar) :
    List ℕ → CoreState → List (List UInt8)
  | [], _ => []
  | i :: is, state =>
    let next := coreStep Γ ring I pseudoOut D s muP muC 0 ring.length state i
    next.toHash :: hashedLoop Γ ring I pseudoOut D s muP muC is next

/-- The strings which `verify` hashes for the members. -/
def hashed (Γ : Ctx) (clsag : Clsag) (ring : List (CompressedPoint × CompressedPoint)) (I pseudoOut : CompressedPoint)
    (msgHash : Bytes 32) : List (List UInt8) :=
  (do
    let I ← (CompressedPoint.decompress Γ I).bind (Point.keyImage Γ)
    let pseudoOut ← CompressedPoint.decompress Γ pseudoOut
    let D ← CompressedPoint.decompress Γ clsag.D
    let ring ← ring.mapM (decompressMember Γ)
    let state : CoreState :=
      { toHash := roundBase Γ ring I pseudoOut clsag.D msgHash, inRange := false, c := clsag.c1, c1 := clsag.c1 }
    pure (hashedLoop Γ ring I pseudoOut ((8 : ℕ) • D) clsag.s (muP Γ ring I pseudoOut clsag.D) (muC Γ ring I pseudoOut clsag.D)
      (List.range ring.length) state)).getD []

/-- The coefficients which `verify` hashes. -/
def coefficients (Γ : Ctx) (clsag : Clsag) (ring : List (CompressedPoint × CompressedPoint)) (I pseudoOut : CompressedPoint) :
    Option (Scalar × Scalar) := do
  let I ← (CompressedPoint.decompress Γ I).bind (Point.keyImage Γ)
  let pseudoOut ← CompressedPoint.decompress Γ pseudoOut
  let ring ← ring.mapM (decompressMember Γ)
  pure (muP Γ ring I pseudoOut clsag.D, muC Γ ring I pseudoOut clsag.D)

/-- The loop goes through the members from `k` on. -/
theorem hashedLoop_eq {ring : List (Γ.Point × Γ.Point)} {I pseudoOut D : Γ.Point} {Dc : CompressedPoint} {msgHash : Bytes 32}
    {s : List Scalar} (n k : ℕ) (hk : k + n = ring.length) {state : CoreState}
    (hbase : state.toHash.take ((2 * ring.length + 3) * 32) = roundBase Γ ring I pseudoOut Dc msgHash)
    (hrange : (state.inRange || k == 0) = true) :
    hashedLoop Γ ring I pseudoOut D s (muP Γ ring I pseudoOut Dc) (muC Γ ring I pseudoOut Dc) (List.range' k n) state =
      strings (Scalar.hash Γ) (roundString Γ ring I pseudoOut D Dc msgHash s) (List.range' k n) state.c := by
  induction n generalizing k state with
  | zero => rfl
  | succ n ih =>
    have hmod : k % ring.length = k := Nat.mod_eq_of_lt (by omega)
    have hstop : (k == ring.length) = false := by
      rw [beq_eq_false_iff_ne]
      omega
    set next := coreStep Γ ring I pseudoOut D s (muP Γ ring I pseudoOut Dc) (muC Γ ring I pseudoOut Dc) 0 ring.length state k with hnext
    have htoHash : next.toHash = roundString Γ ring I pseudoOut D Dc msgHash s state.c k := by
      simp only [hnext, coreStep, hbase, roundString, memberLR, hmod]
    have hinRange : next.inRange = true := by
      simp only [hnext, coreStep, hrange, hstop, Bool.xor_false]
    have hc : next.c = Scalar.hash Γ (roundString Γ ring I pseudoOut D Dc msgHash s state.c k) := by
      rw [← htoHash]
      simp only [hnext, coreStep, hrange, hstop, Bool.xor_false, if_true]
    have hbase' : next.toHash.take ((2 * ring.length + 3) * 32) = roundBase Γ ring I pseudoOut Dc msgHash :=
      (coreStep_spec D s 0 ring.length hbase k).1
    rw [List.range'_succ, hashedLoop, strings, ← hnext, ih (k + 1) (by omega) hbase' (by rw [hinRange, Bool.true_or]), htoHash, hc]

theorem hashed_eq {clsag : Clsag} {ring : List (CompressedPoint × CompressedPoint)} {I pseudoOut : CompressedPoint}
    {members : List (Γ.Point × Γ.Point)} {image pseudo D : Γ.Point} (h : Opened Γ clsag ring I pseudoOut members image pseudo D)
    (msgHash : Bytes 32) :
    clsag.hashed Γ ring I pseudoOut msgHash =
      strings (Scalar.hash Γ) (roundString Γ members image pseudo ((8 : ℕ) • D) clsag.D msgHash clsag.s) (List.range members.length)
        clsag.c1 := by
  have htake : (roundBase Γ members image pseudo clsag.D msgHash).take ((2 * members.length + 3) * 32) =
      roundBase Γ members image pseudo clsag.D msgHash := by
    rw [← length_roundBase Γ members image pseudo clsag.D msgHash, List.take_length]
  let state : CoreState :=
    { toHash := roundBase Γ members image pseudo clsag.D msgHash, inRange := false, c := clsag.c1, c1 := clsag.c1 }
  have hloop : hashedLoop Γ members image pseudo ((8 : ℕ) • D) clsag.s (muP Γ members image pseudo clsag.D)
      (muC Γ members image pseudo clsag.D) (List.range' 0 members.length) state = _ :=
    hashedLoop_eq members.length 0 (Nat.zero_add _) htake rfl
  unfold hashed
  simp only [h.image, h.pseudoOut, h.D, h.ring, Option.bind_eq_bind, Option.bind_some, Option.pure_def, Option.getD_some]
  rw [List.range_eq_range']
  exact hloop

/-! ## What a fork gives away -/

/-- Two CLSAGs which were accepted under two hash functions, with the coefficients in common, and fork: they have the same string for
one member, of which the hash functions give different challenges, and the same string for the next member. -/
structure Fork (Γ : Ctx) (h h' : List UInt8 → Bytes 32) (ring : List (CompressedPoint × CompressedPoint)) (I pseudoOut : CompressedPoint)
    (msgHash : Bytes 32) (clsag clsag' : Clsag) : Prop where
  agrees : AgreesOnPoints Γ h
  agrees' : AgreesOnPoints Γ h'
  verify : verify (Γ.withHash h) clsag ring I pseudoOut msgHash = .ok ()
  verify' : Clsag.verify (Γ.withHash h') clsag' ring I pseudoOut msgHash = .ok ()
  D : clsag'.D = clsag.D
  coefficients : clsag'.coefficients (Γ.withHash h') ring I pseudoOut = clsag.coefficients (Γ.withHash h) ring I pseudoOut
  forks : ForksAround (Scalar.hash (Γ.withHash h)) (Scalar.hash (Γ.withHash h')) (clsag.hashed (Γ.withHash h) ring I pseudoOut msgHash)
    (clsag'.hashed (Γ.withHash h') ring I pseudoOut msgHash)

/-- `w` is the discrete logarithm of the sum with these coefficients, and the sum of the key image and `D` is the one for it. -/
def OpensSum (Γ : Ctx) (a b : Scalar) (P C I D : Γ.Point) (w : Scalar) : Prop :=
  HasLog Γ w (a • P + b • C) ∧ a • Γ.clear I + b • Γ.clear D = w • Γ.clear (Point.biasedHash Γ (Γ.compress P))

/-- Two responses for a member, to different challenges but with the same points. -/
theorem opensSum_of_two {a b d d' s s' : Scalar} {P C I D : Γ.Point} (hd : d ≠ d')
    (h : coreLR Γ I D P C s (a * d) (b * d) = coreLR Γ I D P C s' (a * d') (b * d')) : ∃ w, OpensSum Γ a b P C I D w := by
  obtain ⟨hL, hR⟩ := Prod.mk.inj h
  refine ⟨Schnorr.extract d s d' s', ?_, ?_⟩
  · refine Schnorr.extract_smul hd ?_
    have := congrArg Γ.clear hL
    simp only [map_add, Ctx.clear_smul] at this
    simp only [Schnorr.commitment, map_add, Ctx.clear_smul, smul_add, smul_smul, ← add_assoc, mul_comm _ a, mul_comm _ b]
    exact this
  · refine Schnorr.extract_smul hd ?_
    have := congrArg Γ.clear hR
    simp only [map_add, Ctx.clear_smul] at this
    simp only [Schnorr.commitment, smul_add, smul_smul, mul_comm _ a, mul_comm _ b]
    rw [add_comm, this, add_comm]

/-- Two sums for one member, with independent coefficients. -/
theorem opens_of_opensSum {a b a' b' w w' : Scalar} {P C I D : Γ.Point} (hfree : Γ.TorsionFree I) (hdet : a * b' - a' * b ≠ 0)
    (h : OpensSum Γ a b P C I D w) (h' : OpensSum Γ a' b' P C I D w') : ∃ x z, Opens Γ x P I ∧ HasLog Γ z C := by
  obtain ⟨hlog, himage⟩ := h
  obtain ⟨hlog', himage'⟩ := h'
  simp only [HasLog, map_add, Ctx.clear_smul] at hlog hlog'
  obtain ⟨hP, hC⟩ := Schnorr.eq_smul_of_two hdet hlog hlog'
  obtain ⟨hI, -⟩ := Schnorr.eq_smul_of_two hdet himage himage'
  refine ⟨_, _, ⟨hP, ?_⟩, hC⟩
  refine Ctx.clear_inj hfree ((Ctx.torsionFree_biasedHash _).smul _) ?_
  rw [Ctx.clear_smul]
  exact hI

theorem Opened.of_withHash {h : List UInt8 → Bytes 32} {clsag : Clsag} {ring : List (CompressedPoint × CompressedPoint)}
    {I pseudoOut : CompressedPoint} {members : List (Γ.Point × Γ.Point)} {image pseudo D : Γ.Point}
    (o : Opened (Γ.withHash h) clsag ring I pseudoOut members image pseudo D) :
    Opened Γ clsag ring I pseudoOut members image pseudo D :=
  ⟨o.ring, o.nonempty, o.length, o.image, o.pseudoOut, o.D⟩

theorem Opened.withHash {clsag : Clsag} {ring : List (CompressedPoint × CompressedPoint)} {I pseudoOut : CompressedPoint}
    {members : List (Γ.Point × Γ.Point)} {image pseudo D : Γ.Point} (o : Opened Γ clsag ring I pseudoOut members image pseudo D)
    (h : List UInt8 → Bytes 32) : Opened (Γ.withHash h) clsag ring I pseudoOut members image pseudo D :=
  ⟨o.ring, o.nonempty, o.length, o.image, o.pseudoOut, o.D⟩

theorem Opened.coefficients {clsag : Clsag} {ring : List (CompressedPoint × CompressedPoint)} {I pseudoOut : CompressedPoint}
    {members : List (Γ.Point × Γ.Point)} {image pseudo D : Γ.Point} (o : Opened Γ clsag ring I pseudoOut members image pseudo D) :
    clsag.coefficients Γ ring I pseudoOut = some (muP Γ members image pseudo clsag.D, muC Γ members image pseudo clsag.D) := by
  unfold Clsag.coefficients
  simp only [o.image, o.pseudoOut, o.ring, Option.bind_eq_bind, Option.bind_some, Option.pure_def]

/-- What is hashed for a member, with the coefficients. -/
theorem roundString_withHash {h : List UInt8 → Bytes 32} (hh : AgreesOnPoints Γ h) (members : List (Γ.Point × Γ.Point))
    (I pseudoOut D : Γ.Point) (Dc : CompressedPoint) (msgHash : Bytes 32) (s : List Scalar) (c : Scalar) (i : ℕ) :
    roundString (Γ.withHash h) members I pseudoOut D Dc msgHash s c i =
      let LR := coreLR Γ I D (members.getD i (0, 0)).1 ((members.getD i (0, 0)).2 - pseudoOut) (s.getD i 0)
        (muP (Γ.withHash h) members I pseudoOut Dc * c) (muC (Γ.withHash h) members I pseudoOut Dc * c)
      roundBase Γ members I pseudoOut Dc msgHash ++ (Γ.compress LR.1).toList ++ (Γ.compress LR.2).toList := by
  have hcore : ∀ P C : Γ.Point, ∀ s cP cC : Scalar, coreLR (Γ.withHash h) I D P C s cP cC = coreLR Γ I D P C s cP cC := by
    intro P C s cP cC
    unfold coreLR
    rw [hh.biasedHash]
  unfold roundString memberLR
  rw [hcore]
  rfl

/-- From a fork: the discrete logarithm of the sum for some member. -/
theorem Fork.opensSum {h h' : List UInt8 → Bytes 32} {ring : List (CompressedPoint × CompressedPoint)} {I pseudoOut : CompressedPoint}
    {msgHash : Bytes 32} {clsag clsag' : Clsag} (hfork : Fork Γ h h' ring I pseudoOut msgHash clsag clsag') :
    ∃ members image pseudo D, Opened Γ clsag ring I pseudoOut members image pseudo D ∧ ∃ a b,
      clsag.coefficients (Γ.withHash h) ring I pseudoOut = some (a, b) ∧ ∃ i < members.length, ∃ w,
        OpensSum Γ a b (members.getD i (0, 0)).1 ((members.getD i (0, 0)).2 - pseudo) image ((8 : ℕ) • D) w := by
  obtain ⟨hh, hh', hverify, hverify', hDc, hcoefficients, hforks⟩ := hfork
  obtain ⟨members, image, pseudo, D, o, haround⟩ := verify_ok hverify
  obtain ⟨members', image', pseudo', D', o', haround'⟩ := verify_ok hverify'
  obtain rfl : members = members' := Option.some.inj (o.ring.symm.trans o'.ring)
  obtain rfl : image = image' := Option.some.inj (o.image.symm.trans o'.image)
  obtain rfl : pseudo = pseudo' := Option.some.inj (o.pseudoOut.symm.trans o'.pseudoOut)
  have hD' := o'.D
  rw [hDc] at hD' haround'
  obtain rfl : D = D' := Option.some.inj (o.D.symm.trans hD')
  rw [o.coefficients, o'.coefficients, hDc, Option.some.injEq, Prod.mk.injEq] at hcoefficients
  rw [hashed_eq o, hashed_eq o', hDc] at hforks
  have hR : List.Forall₂ Eq (List.range members.length) (List.range members.length) := List.forall₂_refl _
  obtain ⟨i, hi, i', d, d', rfl, hd, hstring⟩ := exists_fork hR haround haround' hforks
  refine ⟨members, image, pseudo, D, o.of_withHash, _, _, o.coefficients, i, List.mem_range.1 hi, ?_⟩
  rw [roundString_withHash hh, roundString_withHash hh', hcoefficients.1, hcoefficients.2] at hstring
  simp only [List.append_assoc] at hstring
  obtain ⟨hL, hR⟩ := Bytes.append_inj (List.append_cancel_left hstring)
  exact opensSum_of_two hd (Prod.ext (Γ.compress_injective hL) (Γ.compress_injective (Bytes.ext hR)))

/-- More forks than there are members, with one `D`, and coefficients of which any two are independent. -/
structure Forks (Γ : Ctx) (ring : List (CompressedPoint × CompressedPoint)) (I pseudoOut : CompressedPoint) (msgHash : Bytes 32)
    (hs hs' : Fin (ring.length + 1) → List UInt8 → Bytes 32) (clsags clsags' : Fin (ring.length + 1) → Clsag) : Prop where
  fork : ∀ k, Fork Γ (hs k) (hs' k) ring I pseudoOut msgHash (clsags k) (clsags' k)
  D : ∀ k, (clsags k).D = (clsags 0).D
  independent : ∀ k l, k ≠ l → ∀ a b a' b', (clsags k).coefficients (Γ.withHash (hs k)) ring I pseudoOut = some (a, b) →
    (clsags l).coefficients (Γ.withHash (hs l)) ring I pseudoOut = some (a', b') → a * b' - a' * b ≠ 0

theorem Forks.extract {ring : List (CompressedPoint × CompressedPoint)} {I pseudoOut : CompressedPoint} {msgHash : Bytes 32}
    {hs hs' : Fin (ring.length + 1) → List UInt8 → Bytes 32} {clsags clsags' : Fin (ring.length + 1) → Clsag}
    (hforks : Forks Γ ring I pseudoOut msgHash hs hs' clsags clsags') :
    ∃ member ∈ ring, ∃ P C image pseudo x z, decompressMember Γ member = some (P, C) ∧
      CompressedPoint.decompress Γ I = some image ∧ CompressedPoint.decompress Γ pseudoOut = some pseudo ∧
      Opens Γ x P image ∧ HasLog Γ z (C - pseudo) := by
  obtain ⟨members, image, pseudo, D, o, -⟩ := (hforks.fork 0).opensSum
  have hlength : ring.length = members.length := (Results.mapM_eq_some.1 o.ring).length_eq
  -- Each fork is for a member.
  have hmember : ∀ k, ∃ i : Fin ring.length, ∃ a b w, (clsags k).coefficients (Γ.withHash (hs k)) ring I pseudoOut = some (a, b) ∧
      OpensSum Γ a b (members.getD i (0, 0)).1 ((members.getD i (0, 0)).2 - pseudo) image ((8 : ℕ) • D) w := by
    intro k
    obtain ⟨members', image', pseudo', D', o', a, b, hab, i, hi, w, hw⟩ := (hforks.fork k).opensSum
    obtain rfl : members' = members := Option.some.inj (o'.ring.symm.trans o.ring)
    obtain rfl : image' = image := Option.some.inj (o'.image.symm.trans o.image)
    obtain rfl : pseudo' = pseudo := Option.some.inj (o'.pseudoOut.symm.trans o.pseudoOut)
    have hD' := o'.D
    rw [hforks.D k] at hD'
    obtain rfl : D' = D := Option.some.inj (hD'.symm.trans o.D)
    exact ⟨⟨i, by rw [hlength]; exact hi⟩, a, b, w, hab, hw⟩
  choose place a b w hcoefficients hsum using hmember
  -- There are more forks than members, so that two are for the same one.
  obtain ⟨k, l, hkl, hplace⟩ := Fintype.exists_ne_map_eq_of_card_lt place (by simp)
  have hdet := hforks.independent k l hkl _ _ _ _ (hcoefficients k) (hcoefficients l)
  have hl := hsum l
  rw [← hplace] at hl
  obtain ⟨himage, -, hfree⟩ := keyImage_eq_some.1 o.image
  obtain ⟨x, z, hopens, hlog⟩ := opens_of_opensSum hfree hdet (hsum k) hl
  have hi : (place k : ℕ) < members.length := by
    rw [← hlength]
    exact (place k).isLt
  have hget : members.getD (place k) (0, 0) = members[(place k : ℕ)] := by
    rw [List.getD_eq_getElem?_getD, List.getElem?_eq_getElem hi, Option.getD_some]
  rw [hget] at hopens hlog
  exact ⟨ring[place k], List.getElem_mem _, _, _, image, pseudo, x, z,
    (Results.mapM_eq_some.1 o.ring).get (place k).isLt hi, himage, o.pseudoOut, hopens, hlog⟩

end Clsag

open Clsag

namespace Clsag

open ChallengeRing

/-- A hash function which gives these coefficients, and this challenge. -/
def loneHash (a b c : ℕ) (s : List UInt8) : Bytes 32 :=
  if s.length = 192 then leBytes 32 (if s.getD 10 0 = 48 then a else b) else leBytes 32 (if s.length = 224 then c else 1)

/-- The context of `instanceCtx` with it. -/
abbrev loneCtx (a b c : ℕ) : Ctx := instanceCtx.withHash (loneHash a b c)

theorem agreesOnPoints_loneHash (a b c : ℕ) : AgreesOnPoints instanceCtx (loneHash a b c) := by
  intro s hs
  rw [loneHash, hs]
  rfl

/-- The one member, whose secret is 1, with a commitment which differs from the pseudo-out by the generator. -/
def loneMembers : List (instanceCtx.Point × instanceCtx.Point) := [(instanceCtx.G, instanceCtx.G)]

/-- The point `D` of it. -/
@[irreducible]
def lonePoint : instanceCtx.Point := Scalar.INV_EIGHT • instanceCtx.G

/-- The CLSAG of the member, with the nonce 0. -/
def loneClsag (a b c : ℕ) : Clsag :=
  { D := instanceCtx.compress lonePoint, s := [0 - ((a * c : Scalar) * 1 + (b * c : Scalar) * 1)], c1 := c }

theorem eight_lonePoint : (8 : ℕ) • lonePoint = instanceCtx.G := by
  unfold lonePoint
  exact eight_smul_inv_eight Ctx.torsionFree_G

section Lone

variable {a b c : ℕ}

theorem loneClsag_D : (loneClsag a b c).D = instanceCtx.compress lonePoint := rfl

theorem opened_lone : Opened instanceCtx (loneClsag a b c) (compressRing instanceCtx loneMembers)
    (instanceCtx.compress instanceCtx.G) (instanceCtx.compress 0) loneMembers instanceCtx.G 0 lonePoint where
  ring := decompress_compressRing loneMembers
  nonempty := by simp [loneMembers]
  length := rfl
  image := keyImage_eq_some.2 ⟨CompressedPoint.decompress_compress _ _, instanceCtx_G_ne_zero, Ctx.torsionFree_G⟩
  pseudoOut := CompressedPoint.decompress_compress instanceCtx 0
  D := by
    rw [loneClsag_D]
    exact CompressedPoint.decompress_compress instanceCtx lonePoint

theorem hash_loneCtx (s : List UInt8) : Scalar.hash (loneCtx a b c) s =
    ((leBytes 32 (if s.length = 192 then (if s.getD 10 0 = 48 then a else b) else if s.length = 224 then c else 1)).toNat : Scalar) := by
  rw [Scalar.hash, Scalar.fromBytesModOrder]
  show ((loneHash a b c s).toNat : Scalar) = _
  rw [loneHash]
  split <;> rfl

theorem muP_lone (ha : a < 256 ^ 32) (Dc : CompressedPoint) : muP (loneCtx a b c) loneMembers instanceCtx.G 0 Dc = a := by
  have hlen : (aggTranscript (loneCtx a b c) loneMembers instanceCtx.G 0 Dc).length = 192 := length_aggTranscript ..
  have hbyte : (aggTranscript (loneCtx a b c) loneMembers instanceCtx.G 0 Dc).getD 10 0 = 48 := rfl
  rw [muP, hash_loneCtx, if_pos hlen, if_pos hbyte, Bytes.toNat_leBytes_of_lt ha]

theorem muC_lone (hb : b < 256 ^ 32) (Dc : CompressedPoint) : muC (loneCtx a b c) loneMembers instanceCtx.G 0 Dc = b := by
  have hlen : ((aggTranscript (loneCtx a b c) loneMembers instanceCtx.G 0 Dc).set 10 49).length = 192 := by
    rw [List.length_set]
    exact length_aggTranscript ..
  have hbyte : ((aggTranscript (loneCtx a b c) loneMembers instanceCtx.G 0 Dc).set 10 49).getD 10 0 ≠ 48 := by
    have : ((aggTranscript (loneCtx a b c) loneMembers instanceCtx.G 0 Dc).set 10 49).getD 10 0 = 49 := rfl
    rw [this]
    decide
  have hindex : PREFIX.length + AGG_0.length - 1 = 10 := rfl
  rw [muC, hindex, hash_loneCtx, if_pos hlen, if_neg hbyte, Bytes.toNat_leBytes_of_lt hb]

/-- What is hashed for the member: the responses are for the nonce 0. -/
theorem roundString_lone (ha : a < 256 ^ 32) (hb : b < 256 ^ 32) (msgHash : Bytes 32) :
    roundString (loneCtx a b c) loneMembers instanceCtx.G 0 ((8 : ℕ) • lonePoint) (instanceCtx.compress lonePoint) msgHash
      (loneClsag a b c).s c 0 =
        roundBase instanceCtx loneMembers instanceCtx.G 0 (instanceCtx.compress lonePoint) msgHash ++
          (instanceCtx.compress 0).toList ++ (instanceCtx.compress 0).toList := by
  have hsigner := @coreLR_signer instanceCtx 1 1 0 (a * c) (b * c) _ _ _ (biasedHash_instanceCtx _).symm
    (Scalar.one_smul instanceCtx.G).symm (Scalar.one_smul instanceCtx.G).symm
  rw [Scalar.one_smul, Scalar.zero_smul] at hsigner
  rw [roundString_withHash (agreesOnPoints_loneHash a b c), muP_lone ha, muC_lone hb, eight_lonePoint]
  simp only [loneMembers, List.getD_cons_zero, sub_zero, loneClsag]
  rw [hsigner]

/-- The string which is hashed for the member, whatever the hash function. -/
def loneString (msgHash : Bytes 32) : List UInt8 :=
  roundBase instanceCtx loneMembers instanceCtx.G 0 (instanceCtx.compress lonePoint) msgHash ++
    (instanceCtx.compress 0).toList ++ (instanceCtx.compress 0).toList

theorem hash_loneString (hc : c < 256 ^ 32) (msgHash : Bytes 32) : Scalar.hash (loneCtx a b c) (loneString msgHash) = c := by
  have hlen : (loneString msgHash).length = 224 := by
    rw [loneString, List.length_append, List.length_append, Bytes.length_toList, length_roundBase]
    rfl
  rw [hash_loneCtx, hlen]
  exact congrArg _ (Bytes.toNat_leBytes_of_lt hc)

theorem hashed_lone (ha : a < 256 ^ 32) (hb : b < 256 ^ 32) (msgHash : Bytes 32) :
    (loneClsag a b c).hashed (loneCtx a b c) (compressRing instanceCtx loneMembers) (instanceCtx.compress instanceCtx.G)
      (instanceCtx.compress 0) msgHash = [loneString msgHash] := by
  rw [hashed_eq (opened_lone.withHash (loneHash a b c)) msgHash]
  exact congrArg (fun s => [s]) (roundString_lone ha hb msgHash)

theorem verify_lone (ha : a < 256 ^ 32) (hb : b < 256 ^ 32) (hc : c < 256 ^ 32) (msgHash : Bytes 32) :
    verify (loneCtx a b c) (loneClsag a b c) (compressRing instanceCtx loneMembers) (instanceCtx.compress instanceCtx.G)
      (instanceCtx.compress 0) msgHash = .ok () := by
  have hD0 : (8 : ℕ) • lonePoint ≠ 0 := by
    rw [eight_lonePoint]
    exact instanceCtx_G_ne_zero
  have hring : loneMembers ≠ [] := List.cons_ne_nil _ _
  have hfree : (loneCtx a b c).TorsionFree instanceCtx.G := Ctx.torsionFree_G (Γ := loneCtx a b c)
  have hc1 : chain (nextChallenge (loneCtx a b c) loneMembers instanceCtx.G 0 ((8 : ℕ) • lonePoint) (loneClsag a b c).D msgHash
      (loneClsag a b c).s) loneMembers.length 0 (loneClsag a b c).c1 loneMembers.length = (loneClsag a b c).c1 := by
    rw [chain_eq_around]
    show Scalar.hash (loneCtx a b c) (roundString (loneCtx a b c) loneMembers instanceCtx.G 0 ((8 : ℕ) • lonePoint)
      (instanceCtx.compress lonePoint) msgHash (loneClsag a b c).s c 0) = c
    rw [roundString_lone ha hb]
    exact hash_loneString hc msgHash
  have hlen : loneMembers.length = (loneClsag a b c).s.length := rfl
  exact @verify_eq_ok (loneCtx a b c) (loneClsag a b c) loneMembers instanceCtx.G (0 : instanceCtx.Point) lonePoint msgHash hring hlen
    instanceCtx_G_ne_zero hfree loneClsag_D hD0 hc1

/-- Two CLSAGs with one nonce, for two challenges. -/
theorem fork_lone {c' : ℕ} (ha : a < 256 ^ 32) (hb : b < 256 ^ 32) (hc : c < 256 ^ 32) (hc' : c' < 256 ^ 32)
    (hne : (c : Scalar) ≠ (c' : Scalar)) (msgHash : Bytes 32) :
    Fork instanceCtx (loneHash a b c) (loneHash a b c') (compressRing instanceCtx loneMembers) (instanceCtx.compress instanceCtx.G)
      (instanceCtx.compress 0) msgHash (loneClsag a b c) (loneClsag a b c') where
  agrees := agreesOnPoints_loneHash a b c
  agrees' := agreesOnPoints_loneHash a b c'
  verify := verify_lone ha hb hc msgHash
  verify' := verify_lone ha hb hc' msgHash
  D := rfl
  coefficients := by
    rw [(opened_lone.withHash (loneHash a b c)).coefficients, (opened_lone.withHash (loneHash a b c')).coefficients, muP_lone ha,
      muP_lone ha, muC_lone hb, muC_lone hb]
  forks := by
    rw [hashed_lone ha hb, hashed_lone ha hb]
    refine ⟨0, loneString msgHash, rfl, rfl, ?_, loneString msgHash, by simp, by simp⟩
    rw [hash_loneString hc, hash_loneString hc']
    exact hne

end Lone

/-- Two forks of a ring of one member, for the coefficients 1 and 0, and 0 and 1. -/
theorem forks_lone (msgHash : Bytes 32) :
    Forks instanceCtx (compressRing instanceCtx loneMembers) (instanceCtx.compress instanceCtx.G) (instanceCtx.compress 0) msgHash
      (fun k => loneHash (1 - k.val) k.val 1) (fun k => loneHash (1 - k.val) k.val 2) (fun k => loneClsag (1 - k.val) k.val 1)
      (fun k => loneClsag (1 - k.val) k.val 2) := by
  have hne : ((1 : ℕ) : Scalar) ≠ ((2 : ℕ) : Scalar) := by decide +kernel
  have hlt : ∀ k : Fin 2, k.val < 256 ^ 32 := fun k => by omega
  have hindependent : ∀ k l : Fin 2, k ≠ l →
      ((1 - k.val : ℕ) : Scalar) * (l.val : Scalar) - ((1 - l.val : ℕ) : Scalar) * (k.val : Scalar) ≠ 0 := by
    decide +kernel
  refine ⟨fun k => fork_lone (by omega) (hlt k) (by norm_num) (by norm_num) hne _, fun k => rfl, fun k l hkl a b a' b' hab hab' => ?_⟩
  rw [(opened_lone.withHash (loneHash (1 - k.val) k.val 1)).coefficients, muP_lone (by omega), muC_lone (hlt k), Option.some.injEq,
    Prod.mk.injEq] at hab
  rw [(opened_lone.withHash (loneHash (1 - l.val) l.val 1)).coefficients, muP_lone (by omega), muC_lone (hlt l), Option.some.injEq,
    Prod.mk.injEq] at hab'
  obtain ⟨rfl, rfl⟩ := hab
  obtain ⟨rfl, rfl⟩ := hab'
  exact hindependent k l hkl

end Clsag

end MoneroOxide
