import MoneroOxide.Theorems.ClsagExtract
import MoneroOxide.Theorems.MlsagVerify
import MoneroOxide.Theorems.RingSignatures
import Mathlib.Combinatorics.Enumerative.DoubleCounting

/-!
# An output is spent once

An output has one key image. Whoever is able to make the signature for an input anew, for other challenges, knows the secret of an
output in its ring, whose key image it is. So inputs with different key images are at most as many as the outputs in their rings,
whichever kinds of signatures they have.
-/

namespace MoneroOxide

variable {Γ : Ctx}

variable (Γ) in
/-- The secret of the output with this key is known, and this is its key image. -/
def KnownSecret (key keyImage : CompressedPoint) : Prop :=
  ∃ P I x, CompressedPoint.decompress Γ key = some P ∧ CompressedPoint.decompress Γ keyImage = some I ∧ Opens Γ x P I

/-- A key has one key image. -/
theorem KnownSecret.unique (hG : Γ.G ≠ 0) {key keyImage keyImage' : CompressedPoint} (h : KnownSecret Γ key keyImage)
    (h' : KnownSecret Γ key keyImage') : keyImage = keyImage' := by
  obtain ⟨P, I, x, hP, hI, hx⟩ := h
  obtain ⟨P', I', x', hP', hI', hx'⟩ := h'
  obtain rfl : P = P' := Option.some.inj (hP.symm.trans hP')
  rw [CompressedPoint.decompress_eq_some] at hI hI'
  rw [← hI, ← hI', hx.unique hG hx']

variable (Γ) in
/-- The signature for an input, of whichever kind, could be made anew for other challenges. The ring is the one of the keys. -/
inductive Forked : List CompressedPoint → CompressedPoint → Prop
  | ringSignature {h : List UInt8 → Bytes 32} {msgHash : Bytes 32} {ring : List CompressedPoint} {keyImage : CompressedPoint}
      {signature signature' : RingSignature} (hfork : RingSignature.Fork Γ h msgHash ring keyImage signature signature') :
      Forked ring keyImage
  | mlsag {h : List UInt8 → Bytes 32} {msg : Bytes 32} {ring : RingMatrix Γ} {keyImages : List CompressedPoint} {mlsag mlsag' : Mlsag}
      (hfork : Mlsag.Fork Γ h msg ring keyImages mlsag mlsag') {layer : ℕ} {keyImage : CompressedPoint}
      (hlayer : keyImages[layer]? = some keyImage) :
      Forked (ring.matrix.map fun member => Γ.compress (member.getD layer 0)) keyImage
  | clsag {ring : List (CompressedPoint × CompressedPoint)} {keyImage pseudoOut : CompressedPoint} {msgHash : Bytes 32}
      {hs hs' : Fin (ring.length + 1) → List UInt8 → Bytes 32} {clsags clsags' : Fin (ring.length + 1) → Clsag}
      (hforks : Clsag.Forks Γ ring keyImage pseudoOut msgHash hs hs' clsags clsags') :
      Forked (ring.map Prod.fst) keyImage

/-- The layer of an MLSAG which has a key image has a key of the member whose secrets are known. -/
theorem Mlsag.Fork.knownSecret {h : List UInt8 → Bytes 32} {msg : Bytes 32} {ring : RingMatrix Γ} {keyImages : List CompressedPoint}
    {mlsag mlsag' : Mlsag} (hfork : Fork Γ h msg ring keyImages mlsag mlsag') {layer : ℕ} {keyImage : CompressedPoint}
    (hlayer : keyImages[layer]? = some keyImage) :
    ∃ member ∈ ring.matrix, KnownSecret Γ (Γ.compress (member.getD layer 0)) keyImage := by
  obtain ⟨member, hmember, images, himages, hlength, hknown⟩ := hfork.extract
  have hlt : layer < images.length := by
    rw [← himages.length_eq]
    exact (List.getElem?_eq_some_iff.1 hlayer).1
  have hlt' : layer < member.length := by omega
  have himage := Lists.forall₂_getElem? himages hlayer (List.getElem?_eq_getElem hlt)
  have hentry : (member[layer], some images[layer]) ∈ member.zip (layersOf images) := by
    refine List.mem_of_getElem? (i := layer) ?_
    have himages' : (layersOf images)[layer]? = some (some images[layer]) := by
      rw [layersOf, List.getElem?_append_left (by rw [List.length_map]; exact hlt), List.getElem?_map, List.getElem?_eq_getElem hlt]
      rfl
    rw [List.zip, List.getElem?_zipWith, List.getElem?_eq_getElem hlt', himages']
  obtain ⟨x, -, hopens⟩ := hknown _ hentry
  refine ⟨member, hmember, member[layer], images[layer], x, ?_, (keyImage_eq_some.1 himage).1, hopens _ rfl⟩
  rw [List.getD_eq_getElem?_getD, List.getElem?_eq_getElem hlt', Option.getD_some, CompressedPoint.decompress_compress]

/-- Whichever the kind of signature, the secret of an output in the ring is known, whose key image it is. -/
theorem Forked.knownSecret {ring : List CompressedPoint} {keyImage : CompressedPoint} (h : Forked Γ ring keyImage) :
    ∃ key ∈ ring, KnownSecret Γ key keyImage := by
  cases h with
  | ringSignature hfork =>
    obtain ⟨key, hkey, P, I, x, hP, hI, hopens⟩ := hfork.extract
    exact ⟨key, hkey, P, I, x, hP, hI, hopens⟩
  | mlsag hfork hlayer =>
    obtain ⟨member, hmember, hknown⟩ := hfork.knownSecret hlayer
    exact ⟨_, List.mem_map_of_mem hmember, hknown⟩
  | clsag hforks =>
    obtain ⟨member, hmember, P, C, image, pseudo, x, z, hopened, hI, -, hopens, -⟩ := hforks.extract
    refine ⟨member.1, List.mem_map_of_mem hmember, P, image, x, ?_, hI, hopens⟩
    simp only [Clsag.decompressMember, Option.bind_eq_bind, Option.bind_eq_some_iff] at hopened
    obtain ⟨P', hP', C', -, hpair⟩ := hopened
    cases hpair
    exact hP'

/-- Inputs with different key images are at most as many as the outputs in their rings. -/
theorem keyImages_le_outputs {Γ : Ctx} (hG : Γ.G ≠ 0) {outputs : Finset CompressedPoint}
    {inputs : List (List CompressedPoint × CompressedPoint)} (hforked : ∀ input ∈ inputs, Forked Γ input.1 input.2)
    (hrings : ∀ input ∈ inputs, ∀ key ∈ input.1, key ∈ outputs) (hdistinct : (inputs.map Prod.snd).Nodup) :
    inputs.length ≤ outputs.card := by
  have hcard : inputs.length = (inputs.map Prod.snd).toFinset.card := by
    rw [List.toFinset_card_of_nodup hdistinct, List.length_map]
  rw [hcard]
  refine Finset.card_le_card_of_forall_subsingleton (fun keyImage key => KnownSecret Γ key keyImage) ?_ ?_
  · intro keyImage hmem
    obtain ⟨input, hinput, rfl⟩ := List.mem_map.1 (List.mem_toFinset.1 hmem)
    obtain ⟨key, hkey, hknown⟩ := (hforked input hinput).knownSecret
    exact ⟨key, hrings input hinput key hkey, hknown⟩
  · rintro key - keyImage ⟨-, hknown⟩ keyImage' ⟨-, hknown'⟩
    exact hknown.unique hG hknown'

/-- One input, which is signed with a CLSAG. -/
theorem keyImages_le_outputs_lone :
    [((Clsag.compressRing instanceCtx Clsag.loneMembers).map Prod.fst, instanceCtx.compress instanceCtx.G)].length ≤
      ({instanceCtx.compress instanceCtx.G} : Finset CompressedPoint).card := by
  refine keyImages_le_outputs instanceCtx_G_ne_zero ?_ ?_ (List.nodup_singleton _)
  · intro input hinput
    rw [List.mem_singleton.1 hinput]
    exact .clsag (Clsag.forks_lone (Bytes.replicate 32 0))
  · intro input hinput key hkey
    rw [List.mem_singleton.1 hinput] at hkey
    rw [Finset.mem_singleton]
    exact List.mem_singleton.1 hkey

end MoneroOxide
