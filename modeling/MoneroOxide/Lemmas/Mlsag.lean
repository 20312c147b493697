import MoneroOxide.Lemmas.RingProofs
import MoneroOxide.Lib.Lists
import MoneroOxide.Lib.Results
import MoneroOxide.Mlsag

/-!
# What `Mlsag::verify` accepts

The loops of `Mlsag::verify` go around the ring, with one string hashed for each member, where the key images can be read and there is
a response for each entry (`verify_iff`).
-/

namespace MoneroOxide

/-- The same matrix, over another hash function. -/
def RingMatrix.withHash {Γ : Ctx} (ring : RingMatrix Γ) (h : List UInt8 → Bytes 32) : RingMatrix (Γ.withHash h) where
  matrix := ring.matrix
  members := ring.members
  uniform := ring.uniform

namespace Mlsag

open ChallengeRing

variable {Γ : Ctx}

/-- An entry of a member, with its response and its key image if it has one. -/
abbrev Entry (Γ : Ctx) : Type := (Γ.Point × Scalar) × Option Γ.Point

/-- What is hashed for an entry. -/
def entryString (Γ : Ctx) (ci : Scalar) (entry : Entry Γ) : List UInt8 :=
  (Γ.compress entry.1.1).toList ++ (Γ.compress (ci • entry.1.1 + entry.1.2 • Γ.G)).toList ++
    entry.2.elim [] fun ki => (Γ.compress (entry.1.2 • Point.biasedHash Γ (Γ.compress entry.1.1) + ci • ki)).toList

/-- What is hashed for a member. -/
def rowString (Γ : Ctx) (msg : Bytes 32) (ci : Scalar) (row : List (Entry Γ)) : List UInt8 :=
  msg.toList ++ row.flatMap (entryString Γ ci)

/-- The entry is the one given, with its key image decompressed. -/
def OpensEntry (Γ : Ctx) (given : (Γ.Point × Scalar) × Option CompressedPoint) (entry : Entry Γ) : Prop :=
  given.1 = entry.1 ∧ given.2.map (fun ki => (CompressedPoint.decompress Γ ki).bind (Point.keyImage Γ)) = entry.2.map some

theorem entryBuf_ok {ci : Scalar} {given : (Γ.Point × Scalar) × Option CompressedPoint} {buf : List UInt8} :
    entryBuf Γ ci given.1.1 given.1.2 given.2 = .ok buf ↔ ∃ entry, OpensEntry Γ given entry ∧ buf = entryString Γ ci entry := by
  obtain ⟨⟨P, s⟩, ki⟩ := given
  cases ki with
  | none =>
    simp only [entryBuf, Except.ok.injEq]
    constructor
    · rintro rfl
      exact ⟨((P, s), none), ⟨rfl, rfl⟩, (List.append_nil _).symm⟩
    · rintro ⟨⟨⟨P', s'⟩, ki'⟩, ⟨h, hki⟩, rfl⟩
      obtain rfl : ki' = none := Option.map_eq_none_iff.1 hki.symm
      obtain ⟨rfl, rfl⟩ := Prod.mk.inj h
      exact (List.append_nil _).symm
  | some ki =>
    unfold entryBuf
    cases hI : (CompressedPoint.decompress Γ ki).bind (Point.keyImage Γ) with
    | none =>
      simp only [hI]
      constructor
      · intro h
        cases h
      · rintro ⟨⟨⟨P', s'⟩, ki'⟩, ⟨-, hki⟩, -⟩
        rw [Option.map_some, hI] at hki
        cases ki' <;> cases hki
    | some I =>
      simp only [hI, Except.ok.injEq]
      constructor
      · rintro rfl
        exact ⟨((P, s), some I), ⟨rfl, by rw [Option.map_some, hI, Option.map_some]⟩, rfl⟩
      · rintro ⟨⟨⟨P', s'⟩, ki'⟩, ⟨h, hki⟩, rfl⟩
        obtain ⟨rfl, rfl⟩ := Prod.mk.inj h
        rw [Option.map_some, hI] at hki
        cases ki' with
        | none => cases hki
        | some I' =>
          obtain rfl : I = I' := Option.some.inj (Option.some.inj hki)
          rfl

theorem memberBuf_ok {ci : Scalar} {given : List ((Γ.Point × Scalar) × Option CompressedPoint)} {buf t : List UInt8} :
    memberBuf Γ ci given buf = .ok t ↔
      ∃ row, List.Forall₂ (OpensEntry Γ) given row ∧ t = buf ++ row.flatMap (entryString Γ ci) := by
  induction given generalizing buf with
  | nil =>
    rw [memberBuf, Except.ok.injEq]
    constructor
    · rintro rfl
      exact ⟨[], .nil, (List.append_nil _).symm⟩
    · rintro ⟨row, hrow, rfl⟩
      rw [List.forall₂_nil_left_iff.1 hrow]
      exact (List.append_nil _).symm
  | cons entry given ih =>
    simp only [memberBuf, Results.bind_eq_ok, ih]
    constructor
    · rintro ⟨added, hadded, row, hrow, rfl⟩
      obtain ⟨opened, hopened, rfl⟩ := entryBuf_ok.1 hadded
      exact ⟨opened :: row, .cons hopened hrow, by rw [List.flatMap_cons, List.append_assoc]⟩
    · rintro ⟨row, hrow, rfl⟩
      obtain ⟨opened, rest, hopened, hrest, rfl⟩ := List.forall₂_cons_left_iff.1 hrow
      exact ⟨_, entryBuf_ok.2 ⟨opened, hopened, rfl⟩, rest, hrest, by rw [List.flatMap_cons, List.append_assoc]⟩

/-- The key images, decompressed. -/
def Images (Γ : Ctx) (keyImages : List CompressedPoint) (images : List Γ.Point) : Prop :=
  List.Forall₂ (fun ki I => (CompressedPoint.decompress Γ ki).bind (Point.keyImage Γ) = some I) keyImages images

theorem Images.unique {keyImages : List CompressedPoint} {images images' : List Γ.Point} (h : Images Γ keyImages images)
    (h' : Images Γ keyImages images') : images = images' :=
  List.right_unique_forall₂' (fun _ _ _ hI hI' => Option.some.inj (hI.symm.trans hI')) h h'

theorem Images.torsionFree {keyImages : List CompressedPoint} {images : List Γ.Point} (h : Images Γ keyImages images) :
    ∀ I ∈ images, Γ.TorsionFree I := by
  intro I hI
  obtain ⟨ki, -, hki⟩ := Lists.exists_mem_of_forall₂ h hI
  exact (keyImage_eq_some.1 hki).2.2

/-- The layers of a member: each has a key image but for the last one. -/
def layersOf (images : List Γ.Point) : List (Option Γ.Point) := images.map some ++ [none]

/-- The row of a member with its responses. -/
def rowOf (images : List Γ.Point) (member : List Γ.Point × List Scalar) : List (Entry Γ) :=
  (member.1.zip member.2).zip (layersOf images)

theorem opensEntry_some {entry : Γ.Point × Scalar} {ki : CompressedPoint} {opened : Entry Γ} :
    OpensEntry Γ (entry, some ki) opened ↔
      ∃ I, (CompressedPoint.decompress Γ ki).bind (Point.keyImage Γ) = some I ∧ opened = (entry, some I) := by
  obtain ⟨entry', ki'⟩ := opened
  cases ki' with
  | none => simp [OpensEntry]
  | some I =>
    simp only [OpensEntry, Option.map_some, Option.some.injEq, Prod.mk.injEq]
    constructor
    · rintro ⟨rfl, h⟩
      exact ⟨I, h, rfl, rfl⟩
    · rintro ⟨I', h, rfl, rfl⟩
      exact ⟨rfl, h⟩

theorem opensEntry_none {entry : Γ.Point × Scalar} {opened : Entry Γ} :
    OpensEntry Γ (entry, none) opened ↔ opened = (entry, none) := by
  obtain ⟨entry', ki'⟩ := opened
  cases ki' with
  | none => simp [OpensEntry, eq_comm]
  | some I => simp [OpensEntry]

theorem forall₂_opensEntry {entries : List (Γ.Point × Scalar)} {keyImages : List CompressedPoint} {row : List (Entry Γ)}
    (hlen : entries.length = keyImages.length + 1) :
    List.Forall₂ (OpensEntry Γ) (entries.zip (keyImages.map some ++ [none])) row ↔
      ∃ images, Images Γ keyImages images ∧ row = entries.zip (layersOf images) := by
  induction keyImages generalizing entries row with
  | nil =>
    obtain ⟨entry, rfl⟩ := List.length_eq_one_iff.1 hlen
    constructor
    · intro h
      obtain ⟨opened, row, hopened, hrow, rfl⟩ := List.forall₂_cons_left_iff.1 h
      rw [List.forall₂_nil_left_iff.1 hrow, opensEntry_none.1 hopened]
      exact ⟨[], .nil, rfl⟩
    · rintro ⟨images, himages, rfl⟩
      rw [List.forall₂_nil_left_iff.1 himages]
      exact .cons (opensEntry_none.2 rfl) .nil
  | cons ki keyImages ih =>
    obtain ⟨entry, entries, rfl⟩ := List.exists_cons_of_length_eq_add_one hlen
    have hrest : entries.length = keyImages.length + 1 := Nat.succ.inj hlen
    constructor
    · intro h
      obtain ⟨opened, row, hopened, hrow, rfl⟩ := List.forall₂_cons_left_iff.1 h
      obtain ⟨I, hI, rfl⟩ := opensEntry_some.1 hopened
      obtain ⟨images, himages, rfl⟩ := (ih hrest).1 hrow
      exact ⟨I :: images, .cons hI himages, rfl⟩
    · rintro ⟨images, himages, rfl⟩
      obtain ⟨I, rest, hI, himages', rfl⟩ := List.forall₂_cons_left_iff.1 himages
      exact .cons (opensEntry_some.2 ⟨I, hI, rfl⟩) ((ih hrest).2 ⟨rest, himages', rfl⟩)

/-- What is hashed for a member. -/
def memberString (Γ : Ctx) (msg : Bytes 32) (images : List Γ.Point) (ci : Scalar) (member : List Γ.Point × List Scalar) : List UInt8 :=
  rowString Γ msg ci (rowOf images member)

/-- There are as many responses as keys, and as many of these as layers. -/
def Shaped (keyImages : List CompressedPoint) (member : List Γ.Point × List Scalar) : Prop :=
  member.1.length = member.2.length ∧ member.1.length = keyImages.length + 1

theorem memberBuf_of_images {keyImages : List CompressedPoint} {images : List Γ.Point} (himages : Images Γ keyImages images)
    {member : List Γ.Point × List Scalar} (hshaped : Shaped keyImages member) (msg : Bytes 32) (ci : Scalar) :
    memberBuf Γ ci ((member.1.zip member.2).zip (keyImages.map some ++ [none])) msg.toList =
      .ok (memberString Γ msg images ci member) := by
  have hlen : (member.1.zip member.2).length = keyImages.length + 1 := by
    rw [List.length_zip, ← hshaped.1, Nat.min_self, hshaped.2]
  exact memberBuf_ok.2 ⟨_, (forall₂_opensEntry hlen).2 ⟨images, himages, rfl⟩, rfl⟩

/-- The loop goes around the ring, if the key images can be read and the members are shaped so. -/
theorem verifyLoop_of_images {keyImages : List CompressedPoint} {images : List Γ.Point} (himages : Images Γ keyImages images)
    {members : List (List Γ.Point × List Scalar)} (hshaped : ∀ member ∈ members, Shaped keyImages member) (msg : Bytes 32) (ci : Scalar) :
    verifyLoop Γ msg (keyImages.map some ++ [none]) members ci =
      .ok (around (Scalar.hash Γ) (memberString Γ msg images) members ci) := by
  induction members generalizing ci with
  | nil => rfl
  | cons member members ih =>
    obtain ⟨ringMember, ss⟩ := member
    obtain ⟨hmember, hmembers⟩ := List.forall_mem_cons.1 hshaped
    have hlen : ringMember.length = ss.length := hmember.1
    rw [verifyLoop, if_neg (not_not.2 hlen), memberBuf_of_images himages hmember msg ci, Results.ok_bind, ih hmembers]
    rfl

/-- A member which was gone through is shaped so, and has the key images read. -/
theorem verifyLoop_cons_ok {keyImages : List CompressedPoint} {member : List Γ.Point × List Scalar}
    {members : List (List Γ.Point × List Scalar)} {msg : Bytes 32} {ci c : Scalar} (hlen : member.1.length = keyImages.length + 1)
    (h : verifyLoop Γ msg (keyImages.map some ++ [none]) (member :: members) ci = .ok c) :
    Shaped keyImages member ∧ (∃ images, Images Γ keyImages images) ∧
      ∃ ci', verifyLoop Γ msg (keyImages.map some ++ [none]) members ci' = .ok c := by
  obtain ⟨ringMember, ss⟩ := member
  rw [verifyLoop] at h
  by_cases hss : ringMember.length = ss.length
  · rw [if_neg (not_not.2 hss)] at h
    obtain ⟨buf, hbuf, hrest⟩ := Results.bind_eq_ok.1 h
    obtain ⟨row, hrow, -⟩ := memberBuf_ok.1 hbuf
    have hzip : (ringMember.zip ss).length = keyImages.length + 1 := by
      rw [List.length_zip, ← hss, Nat.min_self]
      exact hlen
    obtain ⟨images, himages, -⟩ := (forall₂_opensEntry hzip).1 hrow
    exact ⟨⟨hss, hlen⟩, ⟨images, himages⟩, _, hrest⟩
  · rw [if_pos hss] at h
    cases h

theorem shaped_of_verifyLoop_ok {keyImages : List CompressedPoint} {members : List (List Γ.Point × List Scalar)} {msg : Bytes 32}
    {ci c : Scalar} (hlen : ∀ member ∈ members, member.1.length = keyImages.length + 1)
    (h : verifyLoop Γ msg (keyImages.map some ++ [none]) members ci = .ok c) : ∀ member ∈ members, Shaped keyImages member := by
  induction members generalizing ci with
  | nil => exact fun _ hmem => absurd hmem List.not_mem_nil
  | cons member members ih =>
    obtain ⟨hmember, hmembers⟩ := List.forall_mem_cons.1 hlen
    obtain ⟨hshaped, -, ci', hrest⟩ := verifyLoop_cons_ok hmember h
    exact List.forall_mem_cons.2 ⟨hshaped, ih hmembers hrest⟩

/-- The members of a ring matrix have the length of the first one. -/
theorem length_of_mem_matrix {ring : RingMatrix Γ} {member : List Γ.Point} (h : member ∈ ring.matrix) : member.length = ring.memberLen := by
  have := ring.uniform member h
  rw [not_or, not_not] at this
  exact this.2

/-- The members with their responses. -/
def members (mlsag : Mlsag) (ring : RingMatrix Γ) : List (List Γ.Point × List Scalar) := ring.matrix.zip mlsag.ss

/-- What is accepted: the key images can be read, and going around the members gives the challenge back. -/
theorem verify_iff {mlsag : Mlsag} {msg : Bytes 32} {ring : RingMatrix Γ} {keyImages : List CompressedPoint} :
    mlsag.verify Γ msg ring keyImages = .ok () ↔
      ring.memberLen = keyImages.length + 1 ∧ ring.matrix.length = mlsag.ss.length ∧
        (∀ member ∈ mlsag.members ring, Shaped keyImages member) ∧ ∃ images, Images Γ keyImages images ∧
          around (Scalar.hash Γ) (memberString Γ msg images) (mlsag.members ring) mlsag.cc = mlsag.cc := by
  unfold verify
  by_cases hlen : ring.memberLen = keyImages.length + 1
  · by_cases hss : ring.matrix.length = mlsag.ss.length
    · rw [if_neg (not_not.2 hlen), if_neg (not_not.2 hss), Results.bind_eq_ok]
      have hmember : ∀ member ∈ mlsag.members ring, member.1.length = keyImages.length + 1 := by
        intro member hmem
        rw [length_of_mem_matrix (List.of_mem_zip hmem).1, hlen]
      constructor
      · rintro ⟨ci, hloop, hci⟩
        have hshaped := shaped_of_verifyLoop_ok hmember hloop
        obtain ⟨member, rest, hmembers⟩ : ∃ member rest, ring.matrix.zip mlsag.ss = member :: rest := by
          refine List.exists_cons_of_ne_nil (List.ne_nil_of_length_pos ?_)
          have := ring.members
          rw [List.length_zip, ← hss, Nat.min_self]
          omega
        have hfirst := hloop
        rw [hmembers] at hfirst
        have hlength := hmember member (by rw [members, hmembers]; exact List.mem_cons_self)
        obtain ⟨-, ⟨images, himages⟩, -⟩ := verifyLoop_cons_ok hlength hfirst
        refine ⟨hlen, hss, hshaped, images, himages, ?_⟩
        have hend := Except.ok.inj ((verifyLoop_of_images himages hshaped msg mlsag.cc).symm.trans hloop)
        rw [hend]
        by_contra hne
        rw [if_pos hne] at hci
        cases hci
      · rintro ⟨-, -, hshaped, images, himages, haround⟩
        exact ⟨_, verifyLoop_of_images himages hshaped msg mlsag.cc, if_neg (not_not.2 haround)⟩
    · simp [hlen, hss]
  · simp [hlen]

end Mlsag

end MoneroOxide
