import MoneroOxide.Borromean
import MoneroOxide.Lemmas.RingProofs
import MoneroOxide.Lib.Binding
import MoneroOxide.Lib.Lists
import MoneroOxide.Lib.Results
import MoneroOxide.Theorems.UnreducedScalar

/-!
# Borromean range proofs are complete and sound

For every amount, the proof made with the masks of the commitments to its bits is accepted. Two proofs with one transcript, accepted
under hash functions which differ on it, open the commitment: to an amount of 64 bits, unless the challenges within the proofs
collide.
-/

namespace MoneroOxide

open Digest

namespace UnreducedScalar

theorem isSome_ref10SlideScalarVartime (scalar : UnreducedScalar) : (ref10SlideScalarVartime scalar).isSome := by
  unfold ref10SlideScalarVartime
  split
  · rfl
  · obtain ⟨digits, hnaf, hends⟩ := nonAdjacentForm_ends scalar
    rw [hnaf, Option.bind_eq_bind, Option.bind_some, recover_eq hends.digit]
    rfl

/-- The scalar which is used for 32 bytes, of which there always is one. -/
def value (scalar : UnreducedScalar) : Scalar := (ref10SlideScalarVartime scalar).get (isSome_ref10SlideScalarVartime scalar)

theorem ref10SlideScalarVartime_eq_value (scalar : UnreducedScalar) : ref10SlideScalarVartime scalar = some scalar.value :=
  (Option.some_get _).symm

/-- A reduced scalar is used as it is. -/
theorem value_toBytes (s : Scalar) : UnreducedScalar.value (Scalar.toBytes s) = s := by
  have hclear : (Scalar.toBytes s).toList.getD 31 0 &&& 128 = 0 := by
    rw [lastBit_eq_zero_iff, Scalar.toNat_toBytes]
    exact lt_trans (ZMod.val_lt s) (by decide +kernel)
  refine Option.some.inj ?_
  rw [← ref10SlideScalarVartime_eq_value, ref10SlideScalarVartime, if_pos hclear, Scalar.fromBytesModOrder, Scalar.toNat_toBytes,
    ZMod.natCast_zmod_val]

end UnreducedScalar

namespace BorromeanSignatures

variable {Γ : Ctx}

/-! ## What is accepted -/

/-- `LL` of a bit, with the commitment to it. -/
def LL (Γ : Ctx) (sigs : BorromeanSignatures) (commitment : Γ.Point) (i : Fin 64) : Γ.Point :=
  sigs.ee • commitment + (sigs.s0.get i).value • Γ.G

/-- `LV` of a bit, with the commitment to it. -/
def LV (Γ : Ctx) (sigs : BorromeanSignatures) (commitment : Γ.Point) (i : Fin 64) : Γ.Point :=
  Scalar.hash Γ (Γ.compress (sigs.LL Γ commitment i)).toList • (commitment - 2 ^ i.val • Γ.H) + (sigs.s1.get i).value • Γ.G

/-- The transcript. -/
def transcript (Γ : Ctx) (sigs : BorromeanSignatures) (commitments : Fin 64 → Γ.Point) : List UInt8 :=
  (List.finRange 64).flatMap fun i => (Γ.compress (sigs.LV Γ (commitments i) i)).toList

theorem hPow2_getElem? {i : ℕ} (hi : i < 64) : (HPow2 Γ)[i]? = some (2 ^ i • Γ.H) := by
  have hdouble : ∀ n : ℕ, (fun P : Γ.Point => P + P)^[n] Γ.H = 2 ^ n • Γ.H := by
    intro n
    induction n with
    | zero => rw [Function.iterate_zero_apply, pow_zero, one_nsmul]
    | succ n ih => rw [Function.iterate_succ_apply', ih, pow_succ', mul_nsmul', two_nsmul]
  rw [HPow2, List.getElem?_iterate _ _ _ _ hi, hdouble]

theorem bitTranscript_eq (sigs : BorromeanSignatures) (commitments : Fin 64 → Γ.Point) (i : Fin 64) :
    bitTranscript Γ sigs (List.ofFn commitments) (List.zipWith (· - ·) (List.ofFn commitments) (HPow2 Γ)) i =
      some (Γ.compress (sigs.LV Γ (commitments i) i)).toList := by
  have hA : (List.ofFn commitments)[i.val]? = some (commitments i) := by
    rw [List.getElem?_ofFn, dif_pos i.isLt]
  have hB : (List.zipWith (· - ·) (List.ofFn commitments) (HPow2 Γ))[i.val]? = some (commitments i - 2 ^ i.val • Γ.H) := by
    rw [List.getElem?_zipWith, hA, hPow2_getElem? i.isLt]
  unfold bitTranscript
  simp only [UnreducedScalar.ref10SlideScalarVartime_eq_value, hA, hB, Option.bind_eq_bind, Option.bind_some]
  rfl

theorem mapM_bitTranscript (sigs : BorromeanSignatures) (commitments : Fin 64 → Γ.Point) :
    (List.finRange 64).mapM (bitTranscript Γ sigs (List.ofFn commitments)
      (List.zipWith (· - ·) (List.ofFn commitments) (HPow2 Γ))) =
      some ((List.finRange 64).map fun i => (Γ.compress (sigs.LV Γ (commitments i) i)).toList) := by
  rw [Results.mapM_eq_some, List.forall₂_map_right_iff]
  exact List.forall₂_same.2 fun i _ => bitTranscript_eq sigs commitments i

theorem verify_eq (sigs : BorromeanSignatures) (commitments : Fin 64 → Γ.Point) :
    sigs.verify Γ (List.ofFn commitments) (List.zipWith (· - ·) (List.ofFn commitments) (HPow2 Γ)) =
      some (decide (Scalar.hash Γ (sigs.transcript Γ commitments) = sigs.ee)) := by
  unfold verify
  rw [mapM_bitTranscript, transcript, List.flatMap_def]
  rfl

end BorromeanSignatures

namespace BorromeanRange

variable {Γ : Ctx}

open BorromeanSignatures

/-- The commitments to the bits, if all of them are points. -/
theorem mapM_decompress_eq_some {range : BorromeanRange} {commitments : Fin 64 → Γ.Point} :
    range.bitCommitments.toList.mapM (CompressedPoint.decompress Γ) = some (List.ofFn commitments) ↔
      ∀ i, Γ.compress (commitments i) = range.bitCommitments.get i := by
  rw [Results.mapM_eq_some, List.forall₂_iff_get]
  constructor
  · rintro ⟨-, h⟩ i
    have hi := h i.val (by rw [List.Vector.toList_length]; exact i.isLt) (by rw [List.length_ofFn]; exact i.isLt)
    rw [CompressedPoint.decompress_eq_some, List.get_ofFn] at hi
    exact hi
  · intro h
    refine ⟨by rw [List.Vector.toList_length, List.length_ofFn], fun i hi hi' => ?_⟩
    rw [CompressedPoint.decompress_eq_some, List.get_ofFn]
    exact h _

/-- What `verify` returns: whether the commitments to the bits are points which add up to the commitment, and the challenge is that
of the transcript. -/
theorem verify_eq_some (range : BorromeanRange) (commitment : CompressedPoint) :
    ∃ accepted, range.verify Γ commitment = some accepted ∧
      (accepted = true ↔ ∃ commitments : Fin 64 → Γ.Point, (∀ i, Γ.compress (commitments i) = range.bitCommitments.get i) ∧
        Γ.compress (∑ i, commitments i) = commitment ∧ Scalar.hash Γ (range.sigs.transcript Γ commitments) = range.sigs.ee) := by
  unfold verify
  cases hopen : range.bitCommitments.toList.mapM (CompressedPoint.decompress Γ) with
  | none =>
    refine ⟨false, rfl, iff_of_false Bool.false_ne_true ?_⟩
    rintro ⟨commitments, hcommitments, -⟩
    rw [mapM_decompress_eq_some.2 hcommitments] at hopen
    cases hopen
  | some bitCommitments =>
    -- As many points as there are commitments to bits.
    obtain ⟨commitments, rfl⟩ : ∃ commitments : Fin 64 → Γ.Point, bitCommitments = List.ofFn commitments := by
      have hlen : bitCommitments.length = 64 := by
        rw [← (Results.mapM_eq_some.1 hopen).length_eq, List.Vector.toList_length]
      refine ⟨fun i => bitCommitments.get (i.cast hlen.symm), List.ext_getElem (hlen.trans List.length_ofFn.symm) ?_⟩
      intro i hi hi'
      rw [List.getElem_ofFn]
      rfl
    have hunique : ∀ commitments' : Fin 64 → Γ.Point, (∀ i, Γ.compress (commitments' i) = range.bitCommitments.get i) →
        commitments' = commitments := by
      intro commitments' h
      exact List.ofFn_injective (Option.some.inj ((mapM_decompress_eq_some.2 h).symm.trans hopen))
    simp only [List.sum_ofFn, verify_eq]
    by_cases hsum : Γ.compress (∑ i, commitments i) = commitment
    · rw [if_neg (not_not.2 hsum)]
      refine ⟨_, rfl, ?_⟩
      rw [decide_eq_true_eq]
      constructor
      · intro h
        exact ⟨commitments, mapM_decompress_eq_some.1 hopen, hsum, h⟩
      · rintro ⟨commitments', hcommitments', -, h⟩
        rw [hunique commitments' hcommitments'] at h
        exact h
    · rw [if_pos hsum]
      refine ⟨false, rfl, iff_of_false Bool.false_ne_true ?_⟩
      rintro ⟨commitments', hcommitments', h, -⟩
      rw [hunique commitments' hcommitments'] at h
      exact hsum h

/-! ## Proving -/

/-- What a bit is proved with: the mask of the commitment to it, a nonce, and the response for the other member of the ring. -/
structure BitWitness where
  mask : Scalar
  nonce : Scalar
  other : UnreducedScalar

section Prove

variable (Γ : Ctx) (amount : UInt64) (witness : Fin 64 → BitWitness)

/-- The commitment to a bit. -/
def bitCommitment (i : Fin 64) : Γ.Point :=
  (witness i).mask • Γ.G + if amount.toNat.testBit i then 2 ^ i.val • Γ.H else 0

/-- `LV` of a bit, as it is computed before the challenge is known: by the nonce if the bit is set, and otherwise by the response for
the other member. -/
def proverLV (i : Fin 64) : Γ.Point :=
  if amount.toNat.testBit i then (witness i).nonce • Γ.G
  else Scalar.hash Γ (Γ.compress ((witness i).nonce • Γ.G)).toList • (bitCommitment Γ amount witness i - 2 ^ i.val • Γ.H) +
    (witness i).other.value • Γ.G

/-- The transcript, which does not depend on the challenge. -/
def proverTranscript : List UInt8 := (List.finRange 64).flatMap fun i => (Γ.compress (proverLV Γ amount witness i)).toList

/-- The challenge. -/
def proverEe : Scalar := Scalar.hash Γ (proverTranscript Γ amount witness)

/-- The response `s0` of a bit. -/
def proverS0 (i : Fin 64) : UnreducedScalar :=
  if amount.toNat.testBit i then (witness i).other
  else Scalar.toBytes (Schnorr.respond (witness i).mask (witness i).nonce (proverEe Γ amount witness))

/-- The response `s1` of a bit. -/
def proverS1 (i : Fin 64) : UnreducedScalar :=
  if amount.toNat.testBit i then
    let LL := proverEe Γ amount witness • bitCommitment Γ amount witness i + (witness i).other.value • Γ.G
    Scalar.toBytes (Schnorr.respond (witness i).mask (witness i).nonce (Scalar.hash Γ (Γ.compress LL).toList))
  else (witness i).other

/-- The proof. -/
def prove : BorromeanRange where
  sigs :=
    { s0 := List.Vector.ofFn (proverS0 Γ amount witness), s1 := List.Vector.ofFn (proverS1 Γ amount witness),
      ee := proverEe Γ amount witness }
  bitCommitments := List.Vector.ofFn fun i => Γ.compress (bitCommitment Γ amount witness i)

end Prove

/-- The bits of an amount add up to it. -/
theorem sum_testBit (n amount : ℕ) : ∑ i ∈ Finset.range n, (if amount.testBit i then 2 ^ i else 0) = amount % 2 ^ n := by
  induction n with
  | zero => rw [Finset.range_zero, Finset.sum_empty, pow_zero, Nat.mod_one]
  | succ n ih =>
    rw [Finset.sum_range_succ, ih, Nat.mod_pow_succ, Nat.testBit_eq_decide_div_mod_eq]
    rcases Nat.mod_two_eq_zero_or_one (amount / 2 ^ n) with h | h <;> simp [h]

/-- The commitments to the bits add up to that to the amount. -/
theorem sum_bitCommitment (amount : UInt64) (witness : Fin 64 → BitWitness) :
    ∑ i, bitCommitment Γ amount witness i = Commitment.commit Γ { mask := ∑ i, (witness i).mask, amount } := by
  have hmasks : ∀ bits : Finset (Fin 64), ∑ i ∈ bits, (witness i).mask • Γ.G = (∑ i ∈ bits, (witness i).mask) • Γ.G := by
    intro bits
    induction bits using Finset.cons_induction with
    | empty => rw [Finset.sum_empty, Finset.sum_empty, Scalar.zero_smul]
    | cons i bits hi ih => rw [Finset.sum_cons, Finset.sum_cons, ih, Ctx.torsionFree_G.add_smul]
  have hbits : ∑ i : Fin 64, (if amount.toNat.testBit i then 2 ^ i.val • Γ.H else 0) = amount.toNat • Γ.H := by
    have hterm : ∀ i : Fin 64, (if amount.toNat.testBit i then 2 ^ i.val • Γ.H else 0) =
        (if amount.toNat.testBit i then 2 ^ i.val else 0) • Γ.H := by
      intro i
      split
      · rfl
      · exact (zero_nsmul _).symm
    rw [Finset.sum_congr rfl fun i _ => hterm i, Finset.sum_nsmul_assoc,
      Fin.sum_univ_eq_sum_range fun i => if amount.toNat.testBit i then 2 ^ i else 0, sum_testBit,
      Nat.mod_eq_of_lt amount.toNat_lt]
  have hval : (Commitment.amountScalar amount).val = amount.toNat :=
    ZMod.val_natCast_of_lt (lt_trans amount.toNat_lt (by decide +kernel))
  simp only [bitCommitment, Finset.sum_add_distrib, hmasks, hbits]
  rw [Commitment.commit, Scalar.smul_def (Commitment.amountScalar amount), hval]

/-- The points `LV` of the proof are those computed before the challenge. -/
theorem LV_prove (amount : UInt64) (witness : Fin 64 → BitWitness) (i : Fin 64) :
    (prove Γ amount witness).sigs.LV Γ (bitCommitment Γ amount witness i) i = proverLV Γ amount witness i := by
  by_cases hbit : amount.toNat.testBit i = true
  · have hC : bitCommitment Γ amount witness i - 2 ^ i.val • Γ.H = (witness i).mask • Γ.G := by
      rw [bitCommitment, if_pos hbit, add_sub_cancel_right]
    simp only [LV, LL, prove, List.Vector.get_ofFn, proverS0, proverS1, if_pos hbit, UnreducedScalar.value_toBytes, proverLV, hC,
      respond_smul Ctx.torsionFree_G]
  · have hLL : proverEe Γ amount witness • bitCommitment Γ amount witness i +
        Schnorr.respond (witness i).mask (witness i).nonce (proverEe Γ amount witness) • Γ.G = (witness i).nonce • Γ.G := by
      rw [bitCommitment, if_neg hbit, add_zero, respond_smul Ctx.torsionFree_G]
    simp only [LV, LL, prove, List.Vector.get_ofFn, proverS0, proverS1, if_neg hbit, UnreducedScalar.value_toBytes, proverLV, hLL]

theorem transcript_prove (amount : UInt64) (witness : Fin 64 → BitWitness) :
    (prove Γ amount witness).sigs.transcript Γ (bitCommitment Γ amount witness) = proverTranscript Γ amount witness := by
  simp only [transcript, LV_prove]
  rfl

/-- The proof is accepted, for the commitment with the sum of the masks. -/
theorem verify_prove (amount : UInt64) (witness : Fin 64 → BitWitness) :
    (prove Γ amount witness).verify Γ (Γ.compress (Commitment.commit Γ { mask := ∑ i, (witness i).mask, amount })) = some true := by
  obtain ⟨accepted, hverify, haccepted⟩ := verify_eq_some (Γ := Γ) (prove Γ amount witness)
    (Γ.compress (Commitment.commit Γ { mask := ∑ i, (witness i).mask, amount }))
  rw [hverify, haccepted.2 ⟨bitCommitment Γ amount witness, ?_, ?_, ?_⟩]
  · intro i
    rw [prove, List.Vector.get_ofFn]
  · rw [sum_bitCommitment]
  · rw [transcript_prove]
    rfl

/-! ## The strings hashed -/

/-- The strings of which the challenges within a proof are hashed. -/
def innerStrings (Γ : Ctx) (range : BorromeanRange) (commitments : Fin 64 → Γ.Point) : List (List UInt8) :=
  (List.finRange 64).map fun i => (Γ.compress (range.sigs.LL Γ (commitments i) i)).toList

/-- The strings which `verify` hashes to the challenge: there is one, if the commitments to the bits are points. -/
def hashed (Γ : Ctx) (range : BorromeanRange) : List (List UInt8) :=
  (do
    let bitCommitments ← range.bitCommitments.toList.mapM (CompressedPoint.decompress Γ)
    let transcript ← (List.finRange 64).mapM
      (bitTranscript Γ range.sigs bitCommitments (List.zipWith (· - ·) bitCommitments (HPow2 Γ)))
    pure transcript.flatten).toList

theorem hashed_eq {range : BorromeanRange} {commitments : Fin 64 → Γ.Point}
    (h : ∀ i, Γ.compress (commitments i) = range.bitCommitments.get i) :
    range.hashed Γ = [range.sigs.transcript Γ commitments] := by
  rw [hashed, mapM_decompress_eq_some.2 h, Option.bind_eq_bind, Option.bind_some, mapM_bitTranscript, transcript, List.flatMap_def]
  rfl

theorem LV_withHash {h : List UInt8 → Bytes 32} (hh : AgreesOnPoints Γ h) (sigs : BorromeanSignatures) (commitment : Γ.Point)
    (i : Fin 64) : sigs.LV (Γ.withHash h) commitment i = sigs.LV Γ commitment i := by
  simp only [LV]
  rw [hh.hash]
  rfl

theorem transcript_withHash {h : List UInt8 → Bytes 32} (hh : AgreesOnPoints Γ h) (sigs : BorromeanSignatures)
    (commitments : Fin 64 → Γ.Point) : sigs.transcript (Γ.withHash h) commitments = sigs.transcript Γ commitments := by
  simp only [transcript, LV_withHash hh]

/-- Two proofs for the same commitments to bits, of one transcript, which were accepted under hash functions which give different
challenges for it. -/
structure Fork (Γ : Ctx) (h : List UInt8 → Bytes 32) (commitment : CompressedPoint) (range range' : BorromeanRange) : Prop where
  agrees : AgreesOnPoints Γ h
  verify : range.verify Γ commitment = some true
  verify' : range'.verify (Γ.withHash h) commitment = some true
  bits : range.bitCommitments = range'.bitCommitments
  hashed : range.hashed Γ = range'.hashed (Γ.withHash h)
  forks : Forks Γ h (range.hashed Γ)

/-- What a bit of a fork gives away: whichever of the challenges of its ring it is that differs, the discrete logarithm for the
member it comes before. -/
theorem exists_hasLog {sigs sigs' : BorromeanSignatures} {C : Γ.Point} {i : Fin 64} (hee : sigs.ee ≠ sigs'.ee)
    (hLV : sigs.LV Γ C i = sigs'.LV Γ C i)
    (hLL : Scalar.hash Γ (Γ.compress (sigs.LL Γ C i)).toList = Scalar.hash Γ (Γ.compress (sigs'.LL Γ C i)).toList →
      sigs.LL Γ C i = sigs'.LL Γ C i) :
    ∃ mask bit, HasLog Γ mask (C - if bit = true then 2 ^ i.val • Γ.H else 0) := by
  by_cases hc : Scalar.hash Γ (Γ.compress (sigs.LL Γ C i)).toList = Scalar.hash Γ (Γ.compress (sigs'.LL Γ C i)).toList
  · obtain ⟨mask, hlog⟩ : ∃ mask, HasLog Γ mask C := ⟨_, hasLog_of_two hee (hLL hc)⟩
    refine ⟨mask, false, ?_⟩
    rw [if_neg Bool.false_ne_true, sub_zero]
    exact hlog
  · obtain ⟨mask, hlog⟩ : ∃ mask, HasLog Γ mask (C - 2 ^ i.val • Γ.H) := ⟨_, hasLog_of_two hc hLV⟩
    refine ⟨mask, true, ?_⟩
    rw [if_pos rfl]
    exact hlog

/-- Openings of commitments to bits are an opening of their sum, to an amount of 64 bits. -/
theorem exists_opening {commitments : Fin 64 → Γ.Point}
    (h : ∀ i, ∃ mask bit, HasLog Γ mask (commitments i - if bit = true then 2 ^ i.val • Γ.H else 0)) :
    ∃ opening, Γ.clear (∑ i, commitments i) = Γ.clear (Commitment.commit Γ opening) := by
  choose mask bit hlog using h
  have hbits : ∀ i : Fin 64, (UInt64.ofNat (Nat.ofBits bit)).toNat.testBit i = bit i := by
    intro i
    rw [UInt64.toNat_ofNat_of_lt' (Nat.ofBits_lt_two_pow bit), Nat.testBit_ofBits_lt bit i i.isLt]
  refine ⟨{ mask := ∑ i, mask i, amount := UInt64.ofNat (Nat.ofBits bit) }, ?_⟩
  rw [← sum_bitCommitment (UInt64.ofNat (Nat.ofBits bit)) fun i => { mask := mask i, nonce := 0, other := Scalar.toBytes 0 }, map_sum, map_sum]
  refine Finset.sum_congr rfl fun i _ => ?_
  have hi := hlog i
  rw [HasLog, map_sub, sub_eq_iff_eq_add] at hi
  rw [hi, bitCommitment, hbits, map_add, Ctx.clear_smul]

/-- From a fork: an opening of the commitment, to an amount of 64 bits, unless the challenges within the proofs collide. -/
theorem Fork.extract {h : List UInt8 → Bytes 32} {commitment : CompressedPoint} {range range' : BorromeanRange}
    (hfork : Fork Γ h commitment range range') :
    ∃ commitments : Fin 64 → Γ.Point, (∀ i, Γ.compress (commitments i) = range.bitCommitments.get i) ∧
      Γ.compress (∑ i, commitments i) = commitment ∧
      ((∃ opening, Γ.clear (∑ i, commitments i) = Γ.clear (Commitment.commit Γ opening)) ∨
        Collide (Scalar.hash Γ) (innerStrings Γ range commitments) (innerStrings Γ range' commitments)) := by
  obtain ⟨hh, hverify, hverify', hbits, hhashed, hforks⟩ := hfork
  obtain ⟨_, haccepted, hiff⟩ := verify_eq_some (Γ := Γ) range commitment
  obtain ⟨commitments, hpoints, hsum, hee⟩ := hiff.1 (Option.some.inj (haccepted.symm.trans hverify))
  obtain ⟨_, haccepted', hiff'⟩ := verify_eq_some (Γ := Γ.withHash h) range' commitment
  obtain ⟨commitments', hpoints', -, hee'⟩ := hiff'.1 (Option.some.inj (haccepted'.symm.trans hverify'))
  have hsame : commitments' = commitments := by
    funext i
    refine Γ.compress_injective ?_
    rw [hpoints i, hbits]
    exact hpoints' i
  subst hsame
  rw [hashed_eq hpoints] at hhashed hforks
  rw [hashed_eq hpoints', transcript_withHash hh] at hhashed
  have htranscript := List.singleton_inj.1 hhashed
  have hne : range.sigs.ee ≠ range'.sigs.ee := by
    obtain ⟨s, hs, hne⟩ := hforks
    rw [List.mem_singleton.1 hs] at hne
    rw [transcript_withHash hh, ← htranscript] at hee'
    rw [← hee, ← hee']
    exact hne
  have hLV : ∀ i, range.sigs.LV Γ (commitments' i) i = range'.sigs.LV Γ (commitments' i) i := by
    intro i
    refine Γ.compress_injective (Bytes.ext (Lists.flatMap_inj (fun j => ?_) htranscript i (List.mem_finRange i)))
    rw [Bytes.length_toList, Bytes.length_toList]
  refine ⟨commitments', hpoints, hsum, ?_⟩
  by_cases hcollide : Collide (Scalar.hash Γ) (innerStrings Γ range commitments') (innerStrings Γ range' commitments')
  · exact Or.inr hcollide
  refine Or.inl (exists_opening fun i => exists_hasLog hne (hLV i) fun hc => ?_)
  have hmem : ∀ range : BorromeanRange,
      (Γ.compress (range.sigs.LL Γ (commitments' i) i)).toList ∈ innerStrings Γ range commitments' :=
    fun _ => List.mem_map_of_mem (List.mem_finRange i)
  rcases eq_or_collide (hmem range) (hmem range') hc with hLL | hc
  · exact Γ.compress_injective (Bytes.ext hLL)
  · exact absurd hc hcollide

end BorromeanRange

end MoneroOxide
