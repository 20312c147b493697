import MoneroOxide.Lemmas.Instance
import MoneroOxide.Lemmas.Mlsag

/-!
# MLSAGs are complete and sound

An MLSAG made with the secrets of all of the entries of one member is accepted. Two MLSAGs with the same strings hashed, accepted
under hash functions which differ on one of these, give the secrets of a member away, and with them that the key images are those of
its entries.
-/

namespace MoneroOxide

namespace Mlsag

open ChallengeRing

variable {Γ : Ctx}

/-! ## Signing -/

/-- The secret and the nonce for a layer. -/
abbrev Layer : Type := Scalar × Scalar

/-- The key of the signer for a layer, and the response to its challenge. -/
def signerEntry (Γ : Ctx) (c : Scalar) (layer : Layer) : Γ.Point × Scalar := (layer.1 • Γ.G, Schnorr.respond layer.1 layer.2 c)

/-- The keys and the responses of the signer. The last layer has no key image. -/
def signerMember (Γ : Ctx) (layers : List Layer) (last : Layer) (c : Scalar) : List Γ.Point × List Scalar :=
  ((layers ++ [last]).map fun layer => (signerEntry Γ c layer).1, (layers ++ [last]).map fun layer => (signerEntry Γ c layer).2)

/-- The key images of the signer. -/
def signerImages (Γ : Ctx) (layers : List Layer) : List Γ.Point := layers.map fun layer => secretImage Γ layer.1

/-- What is hashed for a layer with a key image. -/
def layerString (Γ : Ctx) (layer : Layer) : List UInt8 :=
  (Γ.compress (layer.1 • Γ.G)).toList ++ (Γ.compress (layer.2 • Γ.G)).toList ++
    (Γ.compress (layer.2 • Point.biasedHash Γ (Γ.compress (layer.1 • Γ.G)))).toList

/-- What is hashed for the signer, which does not depend on its challenge. -/
def signerString (Γ : Ctx) (msg : Bytes 32) (layers : List Layer) (last : Layer) : List UInt8 :=
  msg.toList ++ (layers.flatMap (layerString Γ) ++ ((Γ.compress (last.1 • Γ.G)).toList ++ (Γ.compress (last.2 • Γ.G)).toList))

theorem rowOf_signerMember (layers : List Layer) (last : Layer) (c : Scalar) :
    rowOf (signerImages Γ layers) (signerMember Γ layers last c) =
      (layers.map fun layer => (signerEntry Γ c layer, some (secretImage Γ layer.1))) ++ [(signerEntry Γ c last, none)] := by
  have hzip : ((layers ++ [last]).map fun layer => (signerEntry Γ c layer).1).zip
      ((layers ++ [last]).map fun layer => (signerEntry Γ c layer).2) = (layers ++ [last]).map (signerEntry Γ c) := List.zip_map'
  rw [rowOf, signerMember, hzip, layersOf, signerImages, List.map_append, List.map_map,
    List.zip_append (by rw [List.length_map, List.length_map]), List.zip_map']
  rfl

theorem memberString_signerMember (msg : Bytes 32) (layers : List Layer) (last : Layer) (c : Scalar) :
    memberString Γ msg (signerImages Γ layers) c (signerMember Γ layers last c) = signerString Γ msg layers last := by
  have hlinked : ∀ layer : Layer, entryString Γ c (signerEntry Γ c layer, some (secretImage Γ layer.1)) = layerString Γ layer := by
    intro layer
    simp only [entryString, signerEntry, Option.elim_some, respond_smul Ctx.torsionFree_G]
    rw [secretImage, add_comm (Schnorr.respond _ _ _ • _), respond_smul (Ctx.torsionFree_biasedHash _), layerString]
  have hlast : entryString Γ c (signerEntry Γ c last, none) =
      (Γ.compress (last.1 • Γ.G)).toList ++ (Γ.compress (last.2 • Γ.G)).toList := by
    simp only [entryString, signerEntry, Option.elim_none, respond_smul Ctx.torsionFree_G, List.append_nil]
  rw [memberString, rowOf_signerMember, rowString, signerString, List.flatMap_append, List.flatMap_map, List.flatMap_singleton, hlast]
  simp only [hlinked]

section Sign

variable (Γ : Ctx) (msg : Bytes 32) (layers : List Layer) (last : Layer) (before after : List (List Γ.Point × List Scalar))

/-- The challenge of the first member, reached from the nonces of the signer. -/
def signCc : Scalar :=
  around (Scalar.hash Γ) (memberString Γ msg (signerImages Γ layers)) after (Scalar.hash Γ (signerString Γ msg layers last))

/-- The challenge of the signer. -/
def signerChallenge : Scalar :=
  around (Scalar.hash Γ) (memberString Γ msg (signerImages Γ layers)) before (signCc Γ msg layers last after)

/-- The members and their responses, as signed with the secrets of the one between the others. -/
def signedMembers : List (List Γ.Point × List Scalar) :=
  before ++ signerMember Γ layers last (signerChallenge Γ msg layers last before after) :: after

/-- The MLSAG made so. -/
def sign : Mlsag :=
  { ss := (signedMembers Γ msg layers last before after).map Prod.snd, cc := signCc Γ msg layers last after }

/-- The keys of the members which it is for. -/
def matrixOf : List (List Γ.Point) :=
  before.map Prod.fst ++ ((layers ++ [last]).map fun layer => layer.1 • Γ.G) :: after.map Prod.fst

end Sign

theorem images_signerImages {layers : List Layer} (hlayers : ∀ layer ∈ layers, secretImage Γ layer.1 ≠ 0) :
    Images Γ ((signerImages Γ layers).map Γ.compress) (signerImages Γ layers) := by
  rw [Images, List.forall₂_map_left_iff]
  refine List.forall₂_same.2 fun I hI => ?_
  obtain ⟨layer, hlayer, rfl⟩ := List.mem_map.1 hI
  exact keyImage_secretImage (hlayers layer hlayer)

theorem zip_sign (msg : Bytes 32) (layers : List Layer) (last : Layer) (before after : List (List Γ.Point × List Scalar)) :
    (matrixOf Γ layers last before after).zip (sign Γ msg layers last before after).ss =
      signedMembers Γ msg layers last before after := by
  have hmatrix : matrixOf Γ layers last before after = (signedMembers Γ msg layers last before after).map Prod.fst := by
    simp [matrixOf, signedMembers, signerMember, signerEntry]
  rw [hmatrix, sign, List.zip_map']
  exact List.map_id _

/-- Going around the members gives the challenge back. -/
theorem around_signedMembers (msg : Bytes 32) (layers : List Layer) (last : Layer) (before after : List (List Γ.Point × List Scalar)) :
    around (Scalar.hash Γ) (memberString Γ msg (signerImages Γ layers)) (signedMembers Γ msg layers last before after)
      (signCc Γ msg layers last after) = signCc Γ msg layers last after := by
  rw [around, signedMembers, List.foldl_append, List.foldl_cons]
  show List.foldl _ (Scalar.hash Γ (memberString Γ msg (signerImages Γ layers) (signerChallenge Γ msg layers last before after) _))
    after = _
  rw [memberString_signerMember]
  rfl

/-- An MLSAG with the secrets of one member is accepted, with any responses for the other members. -/
theorem verify_sign (msg : Bytes 32) {layers : List Layer} (hlayers : ∀ layer ∈ layers, secretImage Γ layer.1 ≠ 0) (last : Layer)
    {before after : List (List Γ.Point × List Scalar)} (hresponses : ∀ member ∈ before ++ after, member.1.length = member.2.length)
    {ring : RingMatrix Γ} (hring : ring.matrix = matrixOf Γ layers last before after) :
    (sign Γ msg layers last before after).verify Γ msg ring ((signerImages Γ layers).map Γ.compress) = .ok () := by
  have hsigner : ((layers ++ [last]).map fun layer => layer.1 • Γ.G) ∈ ring.matrix := by
    rw [hring, matrixOf]
    simp
  have hmemberLen : ring.memberLen = ((signerImages Γ layers).map Γ.compress).length + 1 := by
    rw [← length_of_mem_matrix hsigner]
    simp [signerImages]
  have hmembers : (sign Γ msg layers last before after).members ring = signedMembers Γ msg layers last before after := by
    rw [members, hring, zip_sign]
  refine verify_iff.2 ⟨hmemberLen, ?_, ?_, signerImages Γ layers, images_signerImages hlayers, ?_⟩
  · rw [hring]
    simp [matrixOf, sign, signedMembers]
  · intro member hmem
    refine ⟨?_, ?_⟩
    · rw [hmembers, signedMembers, List.mem_append, List.mem_cons] at hmem
      rcases hmem with hmem | rfl | hmem
      · exact hresponses member (List.mem_append_left _ hmem)
      · simp [signerMember]
      · exact hresponses member (List.mem_append_right _ hmem)
    · rw [length_of_mem_matrix (List.of_mem_zip hmem).1, hmemberLen]
  · rw [hmembers]
    exact around_signedMembers msg layers last before after

/-! ## What a fork gives away -/

/-- The strings which `verify` hashes, one for each member, as far as it gets. -/
def hashedLoop (Γ : Ctx) (msg : Bytes 32) (keyImages : List (Option CompressedPoint)) :
    List (List Γ.Point × List Scalar) → Scalar → List (List UInt8)
  | [], _ => []
  | (ringMember, ss) :: members, ci =>
    match memberBuf Γ ci ((ringMember.zip ss).zip keyImages) msg.toList with
    | .error _ => []
    | .ok buf => buf :: hashedLoop Γ msg keyImages members (Scalar.hash Γ buf)

/-- The strings which `verify` hashes. -/
def hashed (Γ : Ctx) (mlsag : Mlsag) (msg : Bytes 32) (ring : RingMatrix Γ) (keyImages : List CompressedPoint) : List (List UInt8) :=
  hashedLoop Γ msg (keyImages.map some ++ [none]) (mlsag.members ring) mlsag.cc

theorem hashedLoop_eq {keyImages : List CompressedPoint} {images : List Γ.Point} (himages : Images Γ keyImages images)
    {members : List (List Γ.Point × List Scalar)} (hshaped : ∀ member ∈ members, Shaped keyImages member) (msg : Bytes 32) (ci : Scalar) :
    hashedLoop Γ msg (keyImages.map some ++ [none]) members ci =
      strings (Scalar.hash Γ) (memberString Γ msg images) members ci := by
  induction members generalizing ci with
  | nil => rfl
  | cons member members ih =>
    obtain ⟨ringMember, ss⟩ := member
    obtain ⟨hmember, hmembers⟩ := List.forall_mem_cons.1 hshaped
    simp only [hashedLoop, memberBuf_of_images himages hmember msg ci, ih hmembers, strings]

/-- The secret of the key is known, and the key image is that of it, if there is one. -/
def Known (Γ : Ctx) (key : Γ.Point) (image : Option Γ.Point) : Prop :=
  ∃ x, HasLog Γ x key ∧ ∀ I, image = some I → Opens Γ x key I

theorem length_entryString (c : Scalar) (entry : Entry Γ) : (entryString Γ c entry).length = 64 + entry.2.elim 0 fun _ => 32 := by
  cases h : entry.2 <;> simp [entryString, h]

/-- Two responses for an entry, to different challenges but with one string hashed. -/
theorem known_of_entryString {P : Γ.Point} {image : Option Γ.Point} (hfree : ∀ I, image = some I → Γ.TorsionFree I)
    {c s c' s' : Scalar} (hc : c ≠ c') (h : entryString Γ c ((P, s), image) = entryString Γ c' ((P, s'), image)) :
    Known Γ P image := by
  cases image with
  | none =>
    simp only [entryString, Option.elim_none, List.append_nil] at h
    have hL := Γ.compress_injective (Bytes.ext (List.append_cancel_left h))
    exact ⟨_, hasLog_of_two hc hL, fun I hI => by cases hI⟩
  | some I =>
    simp only [entryString, Option.elim_some, List.append_assoc] at h
    obtain ⟨hL, hR⟩ := Bytes.append_inj (List.append_cancel_left h)
    have hopens := opens_of_two (hfree I rfl) hc (Γ.compress_injective hL) (Γ.compress_injective (Bytes.ext hR))
    refine ⟨_, hopens.1, fun I' hI' => ?_⟩
    rw [← Option.some.inj hI']
    exact hopens

/-- Two rows of responses for a member, with one string hashed. -/
theorem known_of_row {keys : List Γ.Point} {ss ss' : List Scalar} {images : List (Option Γ.Point)}
    (hfree : ∀ I, some I ∈ images → Γ.TorsionFree I) (hss : keys.length = ss.length) (hss' : keys.length = ss'.length) {c c' : Scalar}
    (hc : c ≠ c') (h : ((keys.zip ss).zip images).flatMap (entryString Γ c) = ((keys.zip ss').zip images).flatMap (entryString Γ c')) :
    ∀ entry ∈ keys.zip images, Known Γ entry.1 entry.2 := by
  induction keys generalizing ss ss' images with
  | nil => exact fun _ hmem => absurd hmem List.not_mem_nil
  | cons P keys ih =>
    obtain ⟨s, ss, rfl⟩ := List.exists_cons_of_length_eq_add_one hss.symm
    obtain ⟨s', ss', rfl⟩ := List.exists_cons_of_length_eq_add_one hss'.symm
    rcases images with _ | ⟨image, images⟩
    · exact fun _ hmem => absurd hmem List.not_mem_nil
    simp only [List.zip_cons_cons, List.flatMap_cons] at h
    obtain ⟨hentry, hrest⟩ := List.append_inj h (by rw [length_entryString, length_entryString])
    refine List.forall_mem_cons.2 ⟨known_of_entryString (fun I hI => hfree I ?_) hc hentry,
      ih (fun I hI => hfree I (List.mem_cons_of_mem _ hI)) (Nat.succ.inj hss) (Nat.succ.inj hss') hrest⟩
    rw [← hI]
    exact List.mem_cons_self

theorem memberString_withHash {h : List UInt8 → Bytes 32} (hh : AgreesOnPoints Γ h) (msg : Bytes 32) (images : List Γ.Point) :
    memberString (Γ.withHash h) msg images = memberString Γ msg images := by
  have hentry : ∀ c, entryString (Γ.withHash h) c = entryString Γ c := by
    intro c
    funext entry
    unfold entryString
    rw [hh.biasedHash]
  funext c member
  unfold memberString rowString
  rw [hentry]
  rfl

/-- Two MLSAGs which were accepted under two hash functions and fork: they have the same string for one member, of which the hash
functions give different challenges, and the same string for the next member. -/
structure Fork (Γ : Ctx) (h : List UInt8 → Bytes 32) (msg : Bytes 32) (ring : RingMatrix Γ) (keyImages : List CompressedPoint)
    (mlsag mlsag' : Mlsag) : Prop where
  agrees : AgreesOnPoints Γ h
  verify : mlsag.verify Γ msg ring keyImages = .ok ()
  verify' : mlsag'.verify (Γ.withHash h) msg (ring.withHash h) keyImages = .ok ()
  forks : ForksAround (Scalar.hash Γ) (Scalar.hash (Γ.withHash h)) (mlsag.hashed Γ msg ring keyImages)
    (mlsag'.hashed (Γ.withHash h) msg (ring.withHash h) keyImages)

/-- Members with the same keys, and responses of their own. -/
def SameKeys (keyImages : List CompressedPoint) (member member' : List Γ.Point × List Scalar) : Prop :=
  member.1 = member'.1 ∧ Shaped keyImages member ∧ Shaped keyImages member'

theorem forall₂_sameKeys {keyImages : List CompressedPoint} {matrix : List (List Γ.Point)} {ss ss' : List (List Scalar)}
    (hss : matrix.length = ss.length) (hss' : matrix.length = ss'.length) (hshaped : ∀ member ∈ matrix.zip ss, Shaped keyImages member)
    (hshaped' : ∀ member ∈ matrix.zip ss', Shaped keyImages member) :
    List.Forall₂ (SameKeys keyImages) (matrix.zip ss) (matrix.zip ss') := by
  induction matrix generalizing ss ss' with
  | nil => exact .nil
  | cons keys matrix ih =>
    obtain ⟨s, ss, rfl⟩ := List.exists_cons_of_length_eq_add_one hss.symm
    obtain ⟨s', ss', rfl⟩ := List.exists_cons_of_length_eq_add_one hss'.symm
    obtain ⟨hmember, hrest⟩ := List.forall_mem_cons.1 hshaped
    obtain ⟨hmember', hrest'⟩ := List.forall_mem_cons.1 hshaped'
    exact .cons ⟨rfl, hmember, hmember'⟩ (ih (Nat.succ.inj hss) (Nat.succ.inj hss') hrest hrest')

/-- From a fork: the secrets of all of the entries of a member, whose key images they are. -/
theorem Fork.extract {h : List UInt8 → Bytes 32} {msg : Bytes 32} {ring : RingMatrix Γ} {keyImages : List CompressedPoint}
    {mlsag mlsag' : Mlsag} (hfork : Fork Γ h msg ring keyImages mlsag mlsag') :
    ∃ member ∈ ring.matrix, ∃ images, Images Γ keyImages images ∧ member.length = images.length + 1 ∧
      ∀ entry ∈ member.zip (layersOf images), Known Γ entry.1 entry.2 := by
  obtain ⟨hh, hverify, hverify', hforks⟩ := hfork
  obtain ⟨-, hss, hshaped, images, himages, haround⟩ := verify_iff.1 hverify
  obtain ⟨-, hss', hshaped', images', himages', haround'⟩ := verify_iff.1 hverify'
  obtain rfl : images = images' := himages.unique himages'
  rw [hashed, hashed, hashedLoop_eq himages hshaped, hashedLoop_eq himages' hshaped', memberString_withHash hh] at hforks
  rw [memberString_withHash hh] at haround'
  obtain ⟨member, hmem, member', d, d', ⟨hkeys, hmember, hmember'⟩, hd, hstring⟩ :=
    exists_fork (forall₂_sameKeys hss hss' hshaped hshaped') haround haround' hforks
  refine ⟨member.1, (List.of_mem_zip hmem).1, images, himages, ?_, ?_⟩
  · rw [hmember.2, himages.length_eq]
  · have hrow := List.append_cancel_left hstring
    rw [rowOf, rowOf, ← hkeys] at hrow
    refine known_of_row (fun I hI => himages.torsionFree I ?_) hmember.1 (by rw [hkeys]; exact hmember'.1) hd hrow
    simpa [layersOf] using hI

/-! ## Signing twice -/

section SignTwice

variable (Γ : Ctx) (msg : Bytes 32) (layers : List Layer) (last : Layer) (before after : List (List Γ.Point × List Scalar))
  (previous : List Γ.Point × List Scalar)

/-- The strings hashed from the signer on, up to the member before it, which is not one of those before that. -/
def signerStrings : List (List UInt8) :=
  signerString Γ msg layers last ::
    strings (Scalar.hash Γ) (memberString Γ msg (signerImages Γ layers)) (after ++ before) (Scalar.hash Γ (signerString Γ msg layers last))

/-- The string hashed for the member before the signer, of which the challenge of the signer is the hash. -/
def previousString : List UInt8 :=
  memberString Γ msg (signerImages Γ layers) (around (Scalar.hash Γ) (memberString Γ msg (signerImages Γ layers)) (after ++ before)
    (Scalar.hash Γ (signerString Γ msg layers last))) previous

end SignTwice

/-- The strings which are hashed for the members signed for: that before the signer, and that of the signer. -/
theorem hashed_sign (msg : Bytes 32) {layers : List Layer} (hlayers : ∀ layer ∈ layers, secretImage Γ layer.1 ≠ 0) {last : Layer}
    {before after : List (List Γ.Point × List Scalar)} {previous : List Γ.Point × List Scalar}
    (hresponses : ∀ member ∈ before ++ [previous] ++ after, member.1.length = member.2.length)
    {ring : RingMatrix Γ} (hring : ring.matrix = matrixOf Γ layers last (before ++ [previous]) after) :
    ∃ ss ss' : List (List UInt8), ss.length = before.length ∧
      (sign Γ msg layers last (before ++ [previous]) after).hashed Γ msg ring ((signerImages Γ layers).map Γ.compress) =
        ss ++ previousString Γ msg layers last before after previous :: signerString Γ msg layers last :: ss' := by
  obtain ⟨-, -, hshaped, -⟩ := verify_iff.1 (verify_sign msg hlayers last hresponses hring)
  rw [hashed, hashedLoop_eq (images_signerImages hlayers) hshaped, members, hring, zip_sign, signedMembers, strings_append,
    strings_append]
  refine ⟨strings (Scalar.hash Γ) (memberString Γ msg (signerImages Γ layers)) before (signCc Γ msg layers last after),
    strings (Scalar.hash Γ) (memberString Γ msg (signerImages Γ layers)) after (Scalar.hash Γ (signerString Γ msg layers last)),
    length_strings _ _ before _, ?_⟩
  rw [List.append_assoc]
  congr 1
  have hchallenge : around (Scalar.hash Γ) (memberString Γ msg (signerImages Γ layers)) (before ++ [previous])
      (sign Γ msg layers last (before ++ [previous]) after).cc = signerChallenge Γ msg layers last (before ++ [previous]) after := rfl
  rw [hchallenge, strings, strings, strings, memberString_signerMember, previousString, around_append]
  rfl

/-- Whoever signs twice with one nonce, where only the challenge of the signer differs, makes a fork. -/
theorem fork_sign {h : List UInt8 → Bytes 32} (hh : AgreesOnPoints Γ h) {msg : Bytes 32} {layers : List Layer}
    (hlayers : ∀ layer ∈ layers, secretImage Γ layer.1 ≠ 0) {last : Layer} {before after : List (List Γ.Point × List Scalar)}
    {previous : List Γ.Point × List Scalar} (hresponses : ∀ member ∈ before ++ [previous] ++ after, member.1.length = member.2.length)
    {ring : RingMatrix Γ} (hring : ring.matrix = matrixOf Γ layers last (before ++ [previous]) after)
    (hothers : ∀ s ∈ signerStrings Γ msg layers last before after, Scalar.hash (Γ.withHash h) s = Scalar.hash Γ s)
    (hprevious : Scalar.hash Γ (previousString Γ msg layers last before after previous) ≠
      Scalar.hash (Γ.withHash h) (previousString Γ msg layers last before after previous)) :
    Fork Γ h msg ring ((signerImages Γ layers).map Γ.compress) (sign Γ msg layers last (before ++ [previous]) after)
      (sign (Γ.withHash h) msg layers last (before ++ [previous]) after) := by
  have himages : signerImages (Γ.withHash h) layers = signerImages Γ layers := List.map_congr_left fun layer _ => hh.secretImage layer.1
  have hstring : signerString (Γ.withHash h) msg layers last = signerString Γ msg layers last := by
    have hlayer : layerString (Γ.withHash h) = layerString Γ := by
      funext layer
      unfold layerString
      rw [hh.biasedHash]
    unfold signerString
    rw [hlayer]
  obtain ⟨hsigner, hrest⟩ := List.forall_mem_cons.1 hothers
  have hprevious' : previousString (Γ.withHash h) msg layers last before after previous =
      previousString Γ msg layers last before after previous := by
    unfold previousString
    rw [himages, memberString_withHash hh, hstring, hsigner, (strings_congr hrest).2]
  have hlayers' : ∀ layer ∈ layers, secretImage (Γ.withHash h) layer.1 ≠ 0 := by
    intro layer hlayer
    rw [hh.secretImage]
    exact hlayers layer hlayer
  have hring' : (ring.withHash h).matrix = matrixOf (Γ.withHash h) layers last (before ++ [previous]) after := hring
  have hverify' := verify_sign msg hlayers' last hresponses hring'
  obtain ⟨ss, rest, hlen, hhashed⟩ := hashed_sign msg hlayers hresponses hring
  obtain ⟨ss', rest', hlen', hhashed'⟩ := hashed_sign msg hlayers' hresponses hring'
  rw [himages] at hverify' hhashed'
  rw [hprevious', hstring] at hhashed'
  refine ⟨hh, verify_sign msg hlayers last hresponses hring, hverify', ?_⟩
  rw [hhashed, hhashed']
  exact forksAround_append (hlen.trans hlen'.symm) hprevious

end Mlsag

open Mlsag

end MoneroOxide
