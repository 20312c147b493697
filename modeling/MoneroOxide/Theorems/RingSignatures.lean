import MoneroOxide.Lemmas.Instance
import MoneroOxide.Lemmas.RingProofs
import MoneroOxide.RingSignatures

/-!
# Ring signatures are complete and sound

A signature made with the secret of one member of the ring is accepted, whatever the parts for the other members are. Two signatures
with one transcript, accepted under hash functions which differ on it, give the secret of a member away, and with it that the key
image is the member's.
-/

namespace MoneroOxide

namespace RingSignature

variable {Γ : Ctx}

/-! ## What is accepted -/

/-- What the transcript has for a member. -/
def memberString (Γ : Ctx) (keyImage : Γ.Point) (member : Γ.Point × Signature) : List UInt8 :=
  (Γ.compress (member.2.c • member.1 + member.2.s • Γ.G)).toList ++
    (Γ.compress (member.2.s • Point.biasedHash Γ (Γ.compress member.1) + member.2.c • keyImage)).toList

/-- The transcript. -/
def transcript (Γ : Ctx) (msgHash : Bytes 32) (keyImage : Γ.Point) (members : List (Γ.Point × Signature)) : List UInt8 :=
  msgHash.toList ++ members.flatMap (memberString Γ keyImage)

/-- The sum of the challenges. -/
def challenges (members : List (Γ.Point × Signature)) : Scalar := (members.map fun member => member.2.c).sum

/-- A member as it is in the ring. -/
def compressMember (Γ : Ctx) (member : Γ.Point × Signature) : CompressedPoint × Signature := (Γ.compress member.1, member.2)

theorem verifyLoop_eq_some {keyImage : Γ.Point} {members : List (CompressedPoint × Signature)} {buf t : List UInt8} {sum c : Scalar} :
    verifyLoop Γ keyImage members buf sum = some (t, c) ↔ ∃ opened : List (Γ.Point × Signature),
      members = opened.map (compressMember Γ) ∧ t = buf ++ opened.flatMap (memberString Γ keyImage) ∧
        c = sum + challenges opened := by
  induction members generalizing buf sum with
  | nil =>
    rw [verifyLoop, Option.some.injEq, Prod.mk.injEq]
    constructor
    · rintro ⟨rfl, rfl⟩
      exact ⟨[], rfl, (List.append_nil _).symm, (add_zero _).symm⟩
    · rintro ⟨opened, hmap, rfl, rfl⟩
      rw [List.map_eq_nil_iff.1 hmap.symm]
      exact ⟨(List.append_nil _).symm, (add_zero _).symm⟩
  | cons member members ih =>
    obtain ⟨ringMember, sig⟩ := member
    simp only [verifyLoop, Option.bind_eq_bind, Option.bind_eq_some_iff, ih, CompressedPoint.decompress_eq_some]
    constructor
    · rintro ⟨P, rfl, opened, rfl, rfl, rfl⟩
      refine ⟨(P, sig) :: opened, rfl, ?_, ?_⟩
      · rw [List.flatMap_cons, memberString, List.append_assoc, List.append_assoc, List.append_assoc]
      · rw [challenges, challenges, List.map_cons, List.sum_cons, add_assoc]
    · rintro ⟨opened, hmap, rfl, rfl⟩
      rcases opened with _ | ⟨⟨P, sig'⟩, opened⟩
      · cases hmap
      · simp only [List.map_cons, compressMember, List.cons.injEq, Prod.mk.injEq] at hmap
        obtain ⟨⟨rfl, rfl⟩, rfl⟩ := hmap
        refine ⟨P, rfl, opened, rfl, ?_, ?_⟩
        · rw [List.flatMap_cons, memberString, List.append_assoc, List.append_assoc, List.append_assoc]
        · rw [challenges, challenges, List.map_cons, List.sum_cons, add_assoc]

/-- The strings which `verify` hashes to a challenge: there is one, if it gets so far. -/
def hashed (Γ : Ctx) (signature : RingSignature) (msgHash : Bytes 32) (ring : List CompressedPoint) (keyImage : CompressedPoint) :
    List (List UInt8) :=
  (do
    let keyImage ← (CompressedPoint.decompress Γ keyImage).bind (Point.keyImage Γ)
    let final ← verifyLoop Γ keyImage (ring.zip signature.sigs) msgHash.toList 0
    pure final.1).toList

/-- What `verify` checks, one after another. -/
theorem verify_eq_true {signature : RingSignature} {msgHash : Bytes 32} {ring : List CompressedPoint} {keyImage : CompressedPoint} :
    signature.verify Γ msgHash ring keyImage = true ↔ ring.length = signature.sigs.length ∧
      ∃ I, (CompressedPoint.decompress Γ keyImage).bind (Point.keyImage Γ) = some I ∧
        ∃ t c, verifyLoop Γ I (ring.zip signature.sigs) msgHash.toList 0 = some (t, c) ∧ c = Scalar.hash Γ t := by
  unfold verify
  by_cases hlen : ring.length = signature.sigs.length
  · rw [if_neg (not_not.2 hlen)]
    cases (CompressedPoint.decompress Γ keyImage).bind (Point.keyImage Γ) with
    | none => simp
    | some I =>
      cases hloop : verifyLoop Γ I (ring.zip signature.sigs) msgHash.toList 0 with
      | none => simp [hloop]
      | some final =>
        obtain ⟨t, c⟩ := final
        simp [hlen, hloop]
  · rw [if_pos hlen]
    simp [hlen]

/-- What is accepted: the members are points, and their challenges add up to that of the transcript. -/
theorem verify_iff {signature : RingSignature} {msgHash : Bytes 32} {ring : List CompressedPoint} {keyImage : CompressedPoint} :
    signature.verify Γ msgHash ring keyImage = true ↔ ∃ (members : List (Γ.Point × Signature)) (I : Γ.Point),
      ring = members.map (fun member => Γ.compress member.1) ∧ signature.sigs = members.map Prod.snd ∧
        (CompressedPoint.decompress Γ keyImage).bind (Point.keyImage Γ) = some I ∧
        signature.hashed Γ msgHash ring keyImage = [transcript Γ msgHash I members] ∧
        challenges members = Scalar.hash Γ (transcript Γ msgHash I members) := by
  rw [verify_eq_true]
  constructor
  · rintro ⟨hlen, I, hI, t, c, hloop, hc⟩
    obtain ⟨members, hmembers, rfl, rfl⟩ := verifyLoop_eq_some.1 hloop
    refine ⟨members, I, ?_, ?_, hI, ?_, ?_⟩
    · rw [← List.map_fst_zip hlen.le, hmembers, List.map_map]
      rfl
    · rw [← List.map_snd_zip hlen.ge, hmembers, List.map_map]
      rfl
    · unfold hashed
      rw [hI]
      simp [hloop, transcript]
    · exact (zero_add _).symm.trans hc
  · rintro ⟨members, I, hring, hsigs, hI, -, hc⟩
    have hzip : ring.zip signature.sigs = members.map (compressMember Γ) := by
      rw [hring, hsigs, List.zip_map']
      rfl
    refine ⟨by rw [hring, hsigs, List.length_map, List.length_map], I, hI, transcript Γ msgHash I members, challenges members,
      ?_, hc⟩
    rw [hzip]
    exact verifyLoop_eq_some.2 ⟨members, rfl, rfl, (zero_add _).symm⟩

/-! ## Signing -/

/-- The transcript of a signer with the nonce `r`, which does not depend on the challenge of the signer. -/
def signerTranscript (Γ : Ctx) (msgHash : Bytes 32) (x r : Scalar) (before after : List (Γ.Point × Signature)) : List UInt8 :=
  msgHash.toList ++ (before.flatMap (memberString Γ (secretImage Γ x)) ++
    (((Γ.compress (r • Γ.G)).toList ++ (Γ.compress (r • Point.biasedHash Γ (Γ.compress (x • Γ.G)))).toList) ++
      after.flatMap (memberString Γ (secretImage Γ x))))

/-- The challenge for the signer: what the challenges of the others leave of that of the transcript. -/
def signerChallenge (Γ : Ctx) (msgHash : Bytes 32) (x r : Scalar) (before after : List (Γ.Point × Signature)) : Scalar :=
  Scalar.hash Γ (signerTranscript Γ msgHash x r before after) - (challenges before + challenges after)

/-- The members and their parts, as signed with the secret `x` of the one between the others. -/
def signed (Γ : Ctx) (msgHash : Bytes 32) (x r : Scalar) (before after : List (Γ.Point × Signature)) : List (Γ.Point × Signature) :=
  let c := signerChallenge Γ msgHash x r before after
  before ++ (x • Γ.G, { c, s := Schnorr.respond x r c }) :: after

/-- The response of the signer is for the nonce. -/
theorem memberString_signer (x r c : Scalar) :
    memberString Γ (secretImage Γ x) (x • Γ.G, { c, s := Schnorr.respond x r c }) =
      (Γ.compress (r • Γ.G)).toList ++ (Γ.compress (r • Point.biasedHash Γ (Γ.compress (x • Γ.G)))).toList := by
  rw [memberString, secretImage, respond_smul Ctx.torsionFree_G, add_comm, respond_smul (Ctx.torsionFree_biasedHash _)]

theorem transcript_signed (msgHash : Bytes 32) (x r : Scalar) (before after : List (Γ.Point × Signature)) :
    transcript Γ msgHash (secretImage Γ x) (signed Γ msgHash x r before after) = signerTranscript Γ msgHash x r before after := by
  rw [transcript, signed, List.flatMap_append, List.flatMap_cons, memberString_signer, signerTranscript]

theorem challenges_signed (msgHash : Bytes 32) (x r : Scalar) (before after : List (Γ.Point × Signature)) :
    challenges (signed Γ msgHash x r before after) = Scalar.hash Γ (signerTranscript Γ msgHash x r before after) := by
  have hsum : challenges (signed Γ msgHash x r before after) =
      challenges before + (signerChallenge Γ msgHash x r before after + challenges after) := by
    simp only [signed, challenges, List.map_append, List.map_cons, List.sum_append, List.sum_cons]
  rw [hsum, signerChallenge]
  ring

/-- The signature made so. -/
def sign (Γ : Ctx) (msgHash : Bytes 32) (x r : Scalar) (before after : List (Γ.Point × Signature)) : RingSignature :=
  { sigs := (signed Γ msgHash x r before after).map Prod.snd }

/-- The ring which it is for. -/
def ringOf (Γ : Ctx) (x : Scalar) (before after : List (Γ.Point × Signature)) : List CompressedPoint :=
  before.map (fun member => Γ.compress member.1) ++ Γ.compress (x • Γ.G) :: after.map fun member => Γ.compress member.1

theorem verifyLoop_sign (msgHash : Bytes 32) (x r : Scalar) (before after : List (Γ.Point × Signature)) :
    verifyLoop Γ (secretImage Γ x) ((ringOf Γ x before after).zip (sign Γ msgHash x r before after).sigs) msgHash.toList 0 =
      some (signerTranscript Γ msgHash x r before after, Scalar.hash Γ (signerTranscript Γ msgHash x r before after)) := by
  have hring : ringOf Γ x before after = (signed Γ msgHash x r before after).map fun member => Γ.compress member.1 := by
    rw [ringOf, signed, List.map_append, List.map_cons]
  have hzip : (ringOf Γ x before after).zip (sign Γ msgHash x r before after).sigs =
      (signed Γ msgHash x r before after).map (compressMember Γ) := by
    rw [hring, sign, List.zip_map']
    rfl
  rw [hzip]
  refine verifyLoop_eq_some.2 ⟨_, rfl, ?_, ?_⟩
  · exact (transcript_signed msgHash x r before after).symm
  · rw [challenges_signed, zero_add]

/-- A signature with the secret of one member is accepted, with any parts for the other members. -/
theorem verify_sign (msgHash : Bytes 32) {x : Scalar} (hx : secretImage Γ x ≠ 0) (r : Scalar)
    (before after : List (Γ.Point × Signature)) :
    (sign Γ msgHash x r before after).verify Γ msgHash (ringOf Γ x before after) (Γ.compress (secretImage Γ x)) = true := by
  refine verify_eq_true.2 ⟨?_, _, keyImage_secretImage hx, _, _, verifyLoop_sign msgHash x r before after, rfl⟩
  simp [ringOf, sign, signed]

/-- The string hashed for it. -/
theorem hashed_sign (msgHash : Bytes 32) {x : Scalar} (hx : secretImage Γ x ≠ 0) (r : Scalar)
    (before after : List (Γ.Point × Signature)) :
    (sign Γ msgHash x r before after).hashed Γ msgHash (ringOf Γ x before after) (Γ.compress (secretImage Γ x)) =
      [signerTranscript Γ msgHash x r before after] := by
  unfold hashed
  rw [keyImage_secretImage hx]
  simp [verifyLoop_sign]

/-! ## What a fork gives away -/

theorem length_memberString (keyImage : Γ.Point) (member : Γ.Point × Signature) : (memberString Γ keyImage member).length = 64 := by
  simp [memberString]

/-- Two parts for a member, of different challenges but with one string in the transcript. -/
theorem opens_of_memberString {I P : Γ.Point} (hfree : Γ.TorsionFree I) {sig sig' : Signature} (hc : sig.c ≠ sig'.c)
    (h : memberString Γ I (P, sig) = memberString Γ I (P, sig')) : ∃ x, Opens Γ x P I := by
  obtain ⟨hL, hR⟩ := Bytes.append_inj h
  exact ⟨_, opens_of_two hfree hc (Γ.compress_injective hL) (Γ.compress_injective (Bytes.ext hR))⟩

/-- Where the sums of the challenges differ, the challenges of a member do. -/
theorem exists_opens {I : Γ.Point} (hfree : Γ.TorsionFree I) {members members' : List (Γ.Point × Signature)}
    (hkeys : members.map Prod.fst = members'.map Prod.fst)
    (ht : members.flatMap (memberString Γ I) = members'.flatMap (memberString Γ I)) (hc : challenges members ≠ challenges members') :
    ∃ member ∈ members, ∃ x, Opens Γ x member.1 I := by
  induction members generalizing members' with
  | nil =>
    rw [List.map_eq_nil_iff.1 hkeys.symm] at hc
    exact absurd rfl hc
  | cons member members ih =>
    rcases members' with _ | ⟨member', members'⟩
    · cases hkeys
    obtain ⟨P, sig⟩ := member
    obtain ⟨P', sig'⟩ := member'
    simp only [List.map_cons, List.cons.injEq] at hkeys
    obtain ⟨rfl, hkeys⟩ := hkeys
    simp only [List.flatMap_cons] at ht
    obtain ⟨hmember, ht⟩ := List.append_inj ht (by rw [length_memberString, length_memberString])
    by_cases hsig : sig.c = sig'.c
    · have hrest : challenges members ≠ challenges members' := by
        intro h
        simp only [challenges, List.map_cons, List.sum_cons, hsig] at hc h
        exact hc (by rw [h])
      obtain ⟨m, hm, hopens⟩ := ih hkeys ht hrest
      exact ⟨m, List.mem_cons_of_mem _ hm, hopens⟩
    · exact ⟨(P, sig), List.mem_cons_self, opens_of_memberString hfree hsig hmember⟩

theorem memberString_withHash {h : List UInt8 → Bytes 32} (hh : AgreesOnPoints Γ h) (I : Γ.Point) :
    memberString (Γ.withHash h) I = memberString Γ I := by
  funext member
  unfold memberString
  rw [hh.biasedHash]

theorem transcript_withHash {h : List UInt8 → Bytes 32} (hh : AgreesOnPoints Γ h) (msgHash : Bytes 32) (I : Γ.Point)
    (members : List (Γ.Point × Signature)) :
    transcript (Γ.withHash h) msgHash I members = transcript Γ msgHash I members := by
  rw [transcript, transcript, memberString_withHash hh]

/-- Two signatures which were accepted, of one transcript, under hash functions which give different challenges for it. -/
structure Fork (Γ : Ctx) (h : List UInt8 → Bytes 32) (msgHash : Bytes 32) (ring : List CompressedPoint) (keyImage : CompressedPoint)
    (signature signature' : RingSignature) : Prop where
  agrees : AgreesOnPoints Γ h
  verify : signature.verify Γ msgHash ring keyImage = true
  verify' : signature'.verify (Γ.withHash h) msgHash ring keyImage = true
  hashed : signature.hashed Γ msgHash ring keyImage = signature'.hashed (Γ.withHash h) msgHash ring keyImage
  forks : Forks Γ h (signature.hashed Γ msgHash ring keyImage)

/-- From a fork: the secret of a member of the ring, whose key image it is. -/
theorem Fork.extract {h : List UInt8 → Bytes 32} {signature signature' : RingSignature} {msgHash : Bytes 32}
    {ring : List CompressedPoint} {keyImage : CompressedPoint} (hfork : Fork Γ h msgHash ring keyImage signature signature') :
    ∃ key ∈ ring, ∃ P I x, CompressedPoint.decompress Γ key = some P ∧ CompressedPoint.decompress Γ keyImage = some I ∧
      Opens Γ x P I := by
  obtain ⟨hh, hverify, hverify', hhashed, hforks⟩ := hfork
  obtain ⟨members, I, hring, -, hI, hs, hc⟩ := verify_iff.1 hverify
  obtain ⟨members', I', hring', -, hI', hs', hc'⟩ := verify_iff.1 hverify'
  have hII : I' = I := Option.some.inj (hI'.symm.trans hI)
  subst hII
  obtain ⟨hI, -, hfree⟩ := keyImage_eq_some.1 hI
  have ht : transcript Γ msgHash I' members = transcript Γ msgHash I' members' := by
    rw [← transcript_withHash hh msgHash I' members']
    exact List.singleton_inj.1 (hs.symm.trans (hhashed.trans hs'))
  have hkeys : members.map Prod.fst = members'.map Prod.fst := by
    refine List.map_injective_iff.2 Γ.compress_injective ?_
    rw [List.map_map, List.map_map]
    exact hring.symm.trans hring'
  have hne : challenges members ≠ challenges members' := by
    obtain ⟨s, hmem, hne⟩ := hforks
    rw [hs, List.mem_singleton] at hmem
    rw [hmem] at hne
    rw [transcript_withHash hh, ← ht] at hc'
    rw [hc, hc']
    exact hne
  obtain ⟨⟨P, sig⟩, hmem, x, hopens⟩ := exists_opens hfree hkeys (List.append_inj_right ht rfl) hne
  refine ⟨Γ.compress P, ?_, P, I', x, CompressedPoint.decompress_compress Γ P, hI, hopens⟩
  rw [hring]
  exact List.mem_map_of_mem (f := fun member => Γ.compress member.1) hmem

/-- Whoever signs twice with one nonce, where the challenges differ, makes a fork. -/
theorem fork_sign {h : List UInt8 → Bytes 32} (hh : AgreesOnPoints Γ h) (msgHash : Bytes 32) {x : Scalar} (hx : secretImage Γ x ≠ 0)
    (r : Scalar) (before after : List (Γ.Point × Signature))
    (hforks : Forks Γ h [signerTranscript Γ msgHash x r before after]) :
    Fork Γ h msgHash (ringOf Γ x before after) (Γ.compress (secretImage Γ x)) (sign Γ msgHash x r before after)
      (sign (Γ.withHash h) msgHash x r before after) := by
  have himage := hh.secretImage x
  have htranscript : signerTranscript (Γ.withHash h) msgHash x r before after = signerTranscript Γ msgHash x r before after := by
    unfold signerTranscript
    rw [himage, memberString_withHash hh, hh.biasedHash]
  have hx' : secretImage (Γ.withHash h) x ≠ 0 := by
    rw [himage]
    exact hx
  refine ⟨hh, verify_sign msgHash hx r before after, ?_, ?_, ?_⟩
  · rw [← himage]
    exact verify_sign msgHash hx' r before after
  · rw [hashed_sign msgHash hx, ← htranscript, ← himage]
    exact (hashed_sign msgHash hx' r before after).symm
  · rw [hashed_sign msgHash hx]
    exact hforks

end RingSignature

open RingSignature

/-- Ring signatures are proofs of knowledge of the secret of a member. Whoever knows one makes a signature which is accepted, with any
parts for the other members; the secret of a member, whose key image it is, can be computed from any fork; and whoever signs twice
with one nonce, for different challenges, makes a fork. -/
theorem ringSignature_knowledge (Γ : Ctx) :
    (∀ (msgHash : Bytes 32) (x r : Scalar) (before after : List (Γ.Point × Signature)), secretImage Γ x ≠ 0 →
      (sign Γ msgHash x r before after).verify Γ msgHash (ringOf Γ x before after) (Γ.compress (secretImage Γ x)) = true) ∧
    (∀ h msgHash ring keyImage signature signature', Fork Γ h msgHash ring keyImage signature signature' →
      ∃ key ∈ ring, ∃ P I x, CompressedPoint.decompress Γ key = some P ∧ CompressedPoint.decompress Γ keyImage = some I ∧
        Opens Γ x P I) ∧
    ∀ h msgHash (x r : Scalar) (before after : List (Γ.Point × Signature)), AgreesOnPoints Γ h → secretImage Γ x ≠ 0 →
      Forks Γ h [signerTranscript Γ msgHash x r before after] →
        Fork Γ h msgHash (ringOf Γ x before after) (Γ.compress (secretImage Γ x)) (sign Γ msgHash x r before after)
          (sign (Γ.withHash h) msgHash x r before after) :=
  ⟨fun msgHash _ r before after hx => verify_sign msgHash hx r before after, fun _ _ _ _ _ _ hfork => hfork.extract,
    fun _ msgHash _ r before after hh hx hforks => fork_sign hh msgHash hx r before after hforks⟩

end MoneroOxide
