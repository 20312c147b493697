import MoneroOxide.Lemmas.Instance
import MoneroOxide.Lib.Lists
import MoneroOxide.Lib.Results
import MoneroOxide.Mlsag

/-!
# Rings pushed to an aggregate matrix

`push_ring` changes the builder as it goes through the members of a ring, so that a call which fails at one of them leaves those
before it behind. Here it is said which calls leave the builder as it was when they fail, and what is built where all calls are so.
-/

namespace MoneroOxide

namespace AggregateRingMatrixBuilder

variable {Γ : Ctx}

/-! ## Runs -/

/-- The builder after a call, whether or not it failed. -/
def after (builder : AggregateRingMatrixBuilder Γ) (ring : List (CompressedPoint × CompressedPoint)) :
    AggregateRingMatrixBuilder Γ :=
  match pushRing ring builder with
  | .ok _ builder => builder
  | .error _ builder => builder

/-- Whether a call succeeds. -/
def succeeds (builder : AggregateRingMatrixBuilder Γ) (ring : List (CompressedPoint × CompressedPoint)) : Bool :=
  match pushRing ring builder with
  | .ok _ _ => true
  | .error _ _ => false

/-- The builder after a sequence of calls. -/
def pushRings (builder : AggregateRingMatrixBuilder Γ) (rings : List (List (CompressedPoint × CompressedPoint))) :
    AggregateRingMatrixBuilder Γ :=
  rings.foldl after builder

/-- The rings of the calls that succeed. -/
def pushed (builder : AggregateRingMatrixBuilder Γ) :
    List (List (CompressedPoint × CompressedPoint)) → List (List (CompressedPoint × CompressedPoint))
  | [] => []
  | ring :: rings =>
    if succeeds builder ring then ring :: pushed (after builder ring) rings else pushed (after builder ring) rings

/-- The points of a ring. -/
def openRing (Γ : Ctx) (ring : List (CompressedPoint × CompressedPoint)) : Option (List (Γ.Point × Γ.Point)) :=
  ring.mapM fun ringMember => do
    let key ← CompressedPoint.decompress Γ ringMember.1
    let commitment ← CompressedPoint.decompress Γ ringMember.2
    some (key, commitment)

/-- When a call does not change the builder if it fails: all of the ring can be decompressed, or it is refused before its members
are looked at, or at the key of the first one. The latter two only where the length of the rings is known already. -/
def Keeps (builder : AggregateRingMatrixBuilder Γ) (ring : List (CompressedPoint × CompressedPoint)) : Prop :=
  (openRing Γ ring).isSome ∨ ring = [] ∨
    builder.keyRing ≠ [] ∧ (builder.amountsRing.length ≠ ring.length ∨
      ∃ ringMember rest, ring = ringMember :: rest ∧ CompressedPoint.decompress Γ ringMember.1 = none)

/-- Each call of a sequence is one of these. -/
def KeepsAll (builder : AggregateRingMatrixBuilder Γ) : List (List (CompressedPoint × CompressedPoint)) → Prop
  | [] => True
  | ring :: rings => Keeps builder ring ∧ KeepsAll (after builder ring) rings

/-! ## The loop over the members -/

/-- What the loop does where all of the members can be decompressed. -/
def pushOpened : ℕ → List (Γ.Point × Γ.Point) → AggregateRingMatrixBuilder Γ → AggregateRingMatrixBuilder Γ
  | _, [], builder => builder
  | i, (key, commitment) :: ring, builder => pushOpened (i + 1) ring (addAmount i commitment (pushKey i key builder))

theorem openRing_cons (ringMember : CompressedPoint × CompressedPoint) (ring : List (CompressedPoint × CompressedPoint)) :
    openRing Γ (ringMember :: ring) = (CompressedPoint.decompress Γ ringMember.1).bind fun key =>
      (CompressedPoint.decompress Γ ringMember.2).bind fun commitment =>
        (openRing Γ ring).bind fun rest => some ((key, commitment) :: rest) := by
  rw [openRing, List.mapM_cons]
  cases CompressedPoint.decompress Γ ringMember.1 with
  | none => rfl
  | some key =>
    cases CompressedPoint.decompress Γ ringMember.2 with
    | none => rfl
    | some commitment => rfl

/-- The number of keys pushed. -/
def keys (builder : AggregateRingMatrixBuilder Γ) : ℕ := (builder.keyRing.map List.length).sum

theorem sum_length_modify {α : Type} {rows : List (List α)} {i : ℕ} (a : α) (hi : i < rows.length) :
    ((rows.modify i (· ++ [a])).map List.length).sum = (rows.map List.length).sum + 1 := by
  induction rows generalizing i with
  | nil => simp at hi
  | cons row rows ih =>
    cases i with
    | zero =>
      simp only [List.modify_zero_cons, List.map_cons, List.sum_cons, List.length_append, List.length_singleton]
      omega
    | succ i =>
      rw [List.modify_succ_cons, List.map_cons, List.sum_cons, ih (Nat.lt_of_succ_lt_succ hi), List.map_cons, List.sum_cons,
        Nat.add_assoc]

theorem keys_pushKey {i : ℕ} {key : Γ.Point} {builder : AggregateRingMatrixBuilder Γ} (hi : i < builder.keyRing.length) :
    keys (pushKey i key builder) = keys builder + 1 := sum_length_modify key hi

theorem keys_addAmount (i : ℕ) (commitment : Γ.Point) (builder : AggregateRingMatrixBuilder Γ) :
    keys (addAmount i commitment builder) = keys builder := rfl

theorem length_pushKey (i : ℕ) (key : Γ.Point) (builder : AggregateRingMatrixBuilder Γ) :
    (pushKey i key builder).keyRing.length = builder.keyRing.length := by
  simp [pushKey]

theorem decompress_some {P : CompressedPoint} {point : Γ.Point} (h : CompressedPoint.decompress Γ P = some point)
    (builder : AggregateRingMatrixBuilder Γ) : decompress Γ P builder = .ok point builder := by
  rw [decompress, h]
  rfl

theorem decompress_none {P : CompressedPoint} (h : CompressedPoint.decompress Γ P = none)
    (builder : AggregateRingMatrixBuilder Γ) : decompress Γ P builder = .error .InvalidRing builder := by
  rw [decompress, h]
  rfl

theorem pushMembers_some {i : ℕ} {ring : List (CompressedPoint × CompressedPoint)} {opened : List (Γ.Point × Γ.Point)}
    (h : openRing Γ ring = some opened) (builder : AggregateRingMatrixBuilder Γ) :
    pushMembers i ring builder = .ok () (pushOpened i opened builder) := by
  induction ring generalizing i opened builder with
  | nil =>
    obtain rfl : [] = opened := by simpa [openRing] using h
    rfl
  | cons ringMember ring ih =>
    simp only [openRing_cons, Option.bind_eq_some_iff, Option.some.injEq] at h
    obtain ⟨key, hkey, commitment, hcommitment, rest, hrest, rfl⟩ := h
    rw [pushMembers, Call.bind_of_ok (decompress_some hkey builder)]
    change (decompress Γ ringMember.2 >>= _) (pushKey i key builder) = _
    rw [Call.bind_of_ok (decompress_some hcommitment _)]
    exact ih hrest _

/-- Where a member cannot be decompressed, the keys pushed before stay. -/
theorem pushMembers_none {i : ℕ} {ring : List (CompressedPoint × CompressedPoint)} (h : openRing Γ ring = none)
    {builder : AggregateRingMatrixBuilder Γ} (hi : i + ring.length = builder.keyRing.length) :
    ∃ left, pushMembers i ring builder = .error .InvalidRing left ∧ left.keyRing.length = builder.keyRing.length ∧
      keys builder ≤ keys left ∧
      ∀ ringMember rest key, ring = ringMember :: rest → CompressedPoint.decompress Γ ringMember.1 = some key →
        keys builder < keys left := by
  induction ring generalizing i builder with
  | nil => simp [openRing] at h
  | cons ringMember ring ih =>
    rw [List.length_cons] at hi
    rw [pushMembers]
    cases hkey : CompressedPoint.decompress Γ ringMember.1 with
    | none =>
      rw [Call.bind_of_error (decompress_none hkey builder)]
      refine ⟨builder, rfl, rfl, le_refl _, ?_⟩
      rintro _ _ key ⟨rfl, rfl⟩ hsome
      rw [hkey] at hsome
      contradiction
    | some key =>
      have hkeys : keys (pushKey i key builder) = keys builder + 1 := keys_pushKey (by omega)
      rw [Call.bind_of_ok (decompress_some hkey builder)]
      change ∃ left, (decompress Γ ringMember.2 >>= _) (pushKey i key builder) = _ ∧ _
      cases hcommitment : CompressedPoint.decompress Γ ringMember.2 with
      | none =>
        rw [Call.bind_of_error (decompress_none hcommitment _)]
        refine ⟨_, rfl, length_pushKey i key builder, by omega, ?_⟩
        intro _ _ _ _ _
        omega
      | some commitment =>
        rw [Call.bind_of_ok (decompress_some hcommitment _)]
        have hrest : openRing Γ ring = none := by
          rw [openRing_cons, hkey, hcommitment] at h
          exact Option.eq_none_iff_forall_ne_some.2 (by simpa using h)
        have hi' : i + 1 + ring.length = (addAmount i commitment (pushKey i key builder)).keyRing.length := by
          change _ = (pushKey i key builder).keyRing.length
          rw [length_pushKey]
          omega
        obtain ⟨left, herror, hlength, hle, -⟩ := ih hrest hi'
        rw [keys_addAmount] at hle
        refine ⟨left, herror, hlength.trans (length_pushKey i key builder), by omega, ?_⟩
        intro _ _ _ _ _
        omega

/-! ## A call -/

/-- The builder whose rings have the length of the one to be pushed, if none was pushed before. -/
def started (builder : AggregateRingMatrixBuilder Γ) (len : ℕ) : AggregateRingMatrixBuilder Γ :=
  if builder.keyRing = [] then builder.start len else builder

theorem pushRing_eq (ring : List (CompressedPoint × CompressedPoint)) (builder : AggregateRingMatrixBuilder Γ) :
    pushRing ring builder = (do
      if (← get).amountsRing.length ≠ ring.length ∨ ring = [] then throw .InvalidRing
      pushMembers 0 ring : Method Γ Unit) (builder.started ring.length) := by
  unfold pushRing started
  rw [Call.get_bind]
  split
  · rfl
  · rfl

theorem pushRing_refused {ring : List (CompressedPoint × CompressedPoint)} {builder : AggregateRingMatrixBuilder Γ}
    (h : (builder.started ring.length).amountsRing.length ≠ ring.length ∨ ring = []) :
    pushRing ring builder = .error .InvalidRing (builder.started ring.length) := by
  rw [pushRing_eq]
  rw [Call.get_bind, if_pos h]
  rfl

theorem pushRing_members {ring : List (CompressedPoint × CompressedPoint)} {builder : AggregateRingMatrixBuilder Γ}
    (h : ¬((builder.started ring.length).amountsRing.length ≠ ring.length ∨ ring = [])) :
    pushRing ring builder = pushMembers 0 ring (builder.started ring.length) := by
  rw [pushRing_eq]
  rw [Call.get_bind, if_neg h]

theorem started_of_empty {builder : AggregateRingMatrixBuilder Γ} (h : builder.keyRing = []) (len : ℕ) :
    builder.started len = builder.start len := if_pos h

theorem started_of_ne {builder : AggregateRingMatrixBuilder Γ} (h : builder.keyRing ≠ []) (len : ℕ) :
    builder.started len = builder :=
  if_neg h

/-- There is nothing to start with no members. -/
theorem started_zero (builder : AggregateRingMatrixBuilder Γ) : builder.started 0 = builder := by
  by_cases h : builder.keyRing = []
  · rw [started_of_empty h]
    have hamounts : builder.amountsRing = [] := List.eq_nil_of_length_eq_zero (by rw [builder.length_eq, h]; rfl)
    ext1
    · exact h.symm
    · exact hamounts.symm
    · rfl
  · exact started_of_ne h 0

theorem of_ok {builder left : AggregateRingMatrixBuilder Γ} {ring : List (CompressedPoint × CompressedPoint)}
    (h : pushRing ring builder = .ok () left) : succeeds builder ring = true ∧ after builder ring = left := by
  simp [succeeds, after, h]

theorem of_error {builder left : AggregateRingMatrixBuilder Γ} {ring : List (CompressedPoint × CompressedPoint)} {e : MlsagError}
    (h : pushRing ring builder = .error e left) : succeeds builder ring = false ∧ after builder ring = left := by
  simp [succeeds, after, h]

/-- The calls that leave the builder as it was if they fail are those that `Keeps` describes. -/
theorem kept_iff (builder : AggregateRingMatrixBuilder Γ) (ring : List (CompressedPoint × CompressedPoint)) :
    (succeeds builder ring = false → after builder ring = builder) ↔ Keeps builder ring := by
  by_cases hnil : ring = []
  · -- An empty ring is refused, without a change.
    have hrefused := of_error (pushRing_refused (Or.inr hnil : (builder.started ring.length).amountsRing.length ≠ ring.length ∨ _))
    rw [hnil, List.length_nil, started_zero] at hrefused
    rw [hnil]
    exact ⟨fun _ => Or.inr (Or.inl rfl), fun _ _ => hrefused.2⟩
  by_cases hlen : (builder.started ring.length).amountsRing.length = ring.length
  · have hmembers := pushRing_members (not_or.2 ⟨not_not.2 hlen, hnil⟩)
    cases hopen : openRing Γ ring with
    | some opened =>
      rw [pushMembers_some hopen] at hmembers
      rw [(of_ok hmembers).1]
      exact ⟨fun _ => Or.inl (by rw [hopen]; rfl), fun _ h => nomatch h⟩
    | none =>
      have hcount : 0 + ring.length = (builder.started ring.length).keyRing.length := by
        rw [← (builder.started ring.length).length_eq, hlen, Nat.zero_add]
      obtain ⟨left, herror, hlength, -, hgrows⟩ := pushMembers_none hopen hcount
      rw [herror] at hmembers
      obtain ⟨hfails, hafter⟩ := of_error hmembers
      rw [hfails, hafter]
      constructor
      · intro hkept
        have hkept := hkept rfl
        have hstarted : builder.keyRing ≠ [] := by
          intro hempty
          rw [hkept, hempty, ← hcount] at hlength
          exact hnil (List.eq_nil_of_length_eq_zero (by simpa using hlength.symm))
        obtain ⟨ringMember, rest, rfl⟩ := List.exists_cons_of_ne_nil hnil
        refine Or.inr (Or.inr ⟨hstarted, Or.inr ⟨ringMember, rest, rfl, ?_⟩⟩)
        -- Had the key of the first member been pushed, there would be one more.
        rw [started_of_ne hstarted] at hgrows
        refine Option.eq_none_iff_forall_ne_some.2 ?_
        intro key hkey
        have hgrows := hgrows ringMember rest key rfl hkey
        rw [hkept] at hgrows
        exact lt_irrefl _ hgrows
      · rintro (hsome | hnil' | ⟨hstarted, hlen' | ⟨ringMember, rest, rfl, hkey⟩⟩) -
        · rw [hopen] at hsome
          contradiction
        · contradiction
        · rw [started_of_ne hstarted] at hlen
          contradiction
        · rw [started_of_ne hstarted, pushMembers, Call.bind_of_error (decompress_none hkey builder)] at herror
          cases herror
          rfl
  · -- Rings of another length were pushed before.
    have hstarted : builder.keyRing ≠ [] := by
      intro hempty
      rw [started_of_empty hempty] at hlen
      exact hlen List.length_replicate
    have hrefused := of_error (pushRing_refused (Or.inl hlen))
    rw [started_of_ne hstarted] at hrefused hlen
    exact ⟨fun _ => Or.inr (Or.inr ⟨hstarted, Or.inl hlen⟩), fun _ _ => hrefused.2⟩

/-! ## The rows -/

/-- The builder holds the keys of rings of a length in its rows, and for each row the sum of the commitments less `sumOut`. -/
structure RowsOf (sumOut : Γ.Point) (len : ℕ) (rings : List (List (Γ.Point × Γ.Point))) (builder : AggregateRingMatrixBuilder Γ) :
    Prop where
  sumOut_eq : builder.sumOut = sumOut
  length_ring : ∀ ring ∈ rings, ring.length = len
  keyRing_eq : builder.keyRing = (List.range len).map fun j => rings.map fun ring => (ring.getD j 0).1
  amountsRing_eq : builder.amountsRing = (List.range len).map fun j => (rings.map fun ring => (ring.getD j 0).2).sum - sumOut

theorem pushOpened_sumOut (i : ℕ) (ring : List (Γ.Point × Γ.Point)) (builder : AggregateRingMatrixBuilder Γ) :
    (pushOpened i ring builder).sumOut = builder.sumOut := by
  induction ring generalizing i builder with
  | nil => rfl
  | cons member ring ih => rw [pushOpened, ih]; rfl

theorem pushOpened_keyRing (i : ℕ) (ring : List (Γ.Point × Γ.Point)) (builder : AggregateRingMatrixBuilder Γ) :
    (pushOpened i ring builder).keyRing = Lists.modifyFrom (fun keys member => keys ++ [member.1]) i ring builder.keyRing := by
  induction ring generalizing i builder with
  | nil => rfl
  | cons member ring ih => rw [pushOpened, ih, Lists.modifyFrom]; rfl

theorem pushOpened_amountsRing (i : ℕ) (ring : List (Γ.Point × Γ.Point)) (builder : AggregateRingMatrixBuilder Γ) :
    (pushOpened i ring builder).amountsRing = Lists.modifyFrom (fun amount member => amount + member.2) i ring builder.amountsRing := by
  induction ring generalizing i builder with
  | nil => rfl
  | cons member ring ih => rw [pushOpened, ih, Lists.modifyFrom]; rfl

/-- A ring pushed is the last key of each row, and its commitments are added. -/
theorem RowsOf.pushOpened {sumOut : Γ.Point} {rings : List (List (Γ.Point × Γ.Point))} {ring : List (Γ.Point × Γ.Point)}
    {builder : AggregateRingMatrixBuilder Γ} (h : RowsOf sumOut ring.length rings builder) :
    RowsOf sumOut ring.length (rings ++ [ring]) (pushOpened 0 ring builder) := by
  have hkeys : builder.keyRing.length = ring.length := by simp [h.keyRing_eq]
  have hamounts : builder.amountsRing.length = ring.length := by simp [h.amountsRing_eq]
  refine ⟨by rw [pushOpened_sumOut, h.sumOut_eq], ?_, ?_, ?_⟩
  · intro other hother
    rcases List.mem_append.1 hother with hother | hother
    · exact h.length_ring other hother
    · rw [List.mem_singleton.1 hother]
  · have hmodify := Lists.modifyFrom_append (fun keys (member : Γ.Point × Γ.Point) => keys ++ [member.1]) [] _ ring hkeys
    rw [List.nil_append, List.nil_append, List.length_nil, h.keyRing_eq, Lists.zipWith_map_range _ _ ring 0] at hmodify
    rw [pushOpened_keyRing, h.keyRing_eq, hmodify]
    simp
  · have hmodify := Lists.modifyFrom_append (fun amount (member : Γ.Point × Γ.Point) => amount + member.2) [] _ ring hamounts
    rw [List.nil_append, List.nil_append, List.length_nil, h.amountsRing_eq, Lists.zipWith_map_range _ _ ring 0] at hmodify
    rw [pushOpened_amountsRing, h.amountsRing_eq, hmodify]
    refine List.map_congr_left ?_
    intro j _
    simp only [List.map_append, List.map_cons, List.map_nil, List.sum_append, List.sum_singleton]
    abel

/-- What the builder holds after calls that succeeded. -/
structure Rows (sumOut : Γ.Point) (rings : List (List (Γ.Point × Γ.Point))) (builder : AggregateRingMatrixBuilder Γ) : Prop where
  rowsOf : RowsOf sumOut builder.keyRing.length rings builder
  empty : builder.keyRing = [] → rings = []
  started : rings = [] → builder.keyRing = []

theorem Rows.started_rowsOf {sumOut : Γ.Point} {rings : List (List (Γ.Point × Γ.Point))} {builder : AggregateRingMatrixBuilder Γ}
    (h : Rows sumOut rings builder) {len : ℕ} (hlen : (builder.started len).amountsRing.length = len) :
    RowsOf sumOut len rings (builder.started len) := by
  by_cases hempty : builder.keyRing = []
  · obtain rfl := h.empty hempty
    rw [started_of_empty hempty]
    refine ⟨h.rowsOf.sumOut_eq, by simp, ?_, ?_⟩
    · simp [start]
    · simp [start, h.rowsOf.sumOut_eq]
  · rw [started_of_ne hempty, builder.length_eq] at hlen
    rw [started_of_ne hempty, ← hlen]
    exact h.rowsOf

/-- A call that succeeds pushes the points of its ring. -/
theorem Rows.pushRing {sumOut : Γ.Point} {rings : List (List (Γ.Point × Γ.Point))} {builder left : AggregateRingMatrixBuilder Γ}
    {ring : List (CompressedPoint × CompressedPoint)} (h : Rows sumOut rings builder)
    (hok : AggregateRingMatrixBuilder.pushRing ring builder = .ok () left) :
    ∃ opened, openRing Γ ring = some opened ∧ Rows sumOut (rings ++ [opened]) left := by
  by_cases hrefused : (builder.started ring.length).amountsRing.length ≠ ring.length ∨ ring = []
  · rw [pushRing_refused hrefused] at hok
    cases hok
  · obtain ⟨hlen, hnil⟩ := not_or.1 hrefused
    rw [not_ne_iff] at hlen
    rw [pushRing_members hrefused] at hok
    cases hopen : openRing Γ ring with
    | none =>
      have hi : 0 + ring.length = (builder.started ring.length).keyRing.length := by
        rw [← (builder.started ring.length).length_eq, hlen, Nat.zero_add]
      obtain ⟨left', herror, -⟩ := pushMembers_none hopen hi
      rw [herror] at hok
      cases hok
    | some opened =>
      rw [pushMembers_some hopen] at hok
      cases hok
      have hopened : opened.length = ring.length := (Results.mapM_eq_some.1 hopen).length_eq.symm
      have hrows := h.started_rowsOf hlen
      rw [← hopened] at hrows
      have hpushed := hrows.pushOpened
      rw [hopened] at hpushed
      have hkeys : (AggregateRingMatrixBuilder.pushOpened 0 opened (builder.started ring.length)).keyRing.length = ring.length := by
        simp [hpushed.keyRing_eq]
      refine ⟨opened, rfl, ⟨by rwa [hkeys], ?_, by simp⟩⟩
      intro hempty
      rw [hempty] at hkeys
      exact absurd (List.eq_nil_of_length_eq_zero hkeys.symm) hnil

/-! ## Sequences of calls -/

theorem pushRing_of_succeeds {builder : AggregateRingMatrixBuilder Γ} {ring : List (CompressedPoint × CompressedPoint)}
    (h : succeeds builder ring = true) : pushRing ring builder = .ok () (after builder ring) := by
  unfold succeeds after at *
  cases hpush : pushRing ring builder with
  | ok u left => rfl
  | error e left =>
    rw [hpush] at h
    contradiction

/-- Without the calls that failed, the builder is the same. -/
theorem pushRings_pushed {builder : AggregateRingMatrixBuilder Γ} {rings : List (List (CompressedPoint × CompressedPoint))}
    (h : KeepsAll builder rings) : pushRings builder rings = pushRings builder (pushed builder rings) := by
  induction rings generalizing builder with
  | nil => rfl
  | cons ring rings ih =>
    obtain ⟨hkeeps, hrest⟩ := h
    rw [pushed]
    cases hsucceeds : succeeds builder ring with
    | true =>
      rw [if_pos rfl]
      exact ih hrest
    | false =>
      rw [if_neg (by decide)]
      have hkept := (kept_iff builder ring).2 hkeeps hsucceeds
      have hrun := ih hrest
      rw [hkept] at hrun ⊢
      change pushRings (after builder ring) rings = _
      rw [hkept, hrun]

/-- The builder holds the points of the rings of the calls that succeeded. -/
theorem rows_pushRings {sumOut : Γ.Point} {held : List (List (Γ.Point × Γ.Point))} {builder : AggregateRingMatrixBuilder Γ}
    {rings : List (List (CompressedPoint × CompressedPoint))} (hrows : Rows sumOut held builder) (h : KeepsAll builder rings) :
    ∃ opened, (pushed builder rings).mapM (openRing Γ) = some opened ∧ Rows sumOut (held ++ opened) (pushRings builder rings) := by
  induction rings generalizing builder held with
  | nil => exact ⟨[], rfl, by rwa [List.append_nil]⟩
  | cons ring rings ih =>
    obtain ⟨hkeeps, hrest⟩ := h
    rw [pushed]
    cases hsucceeds : succeeds builder ring with
    | true =>
      obtain ⟨first, hfirst, hrows'⟩ := hrows.pushRing (pushRing_of_succeeds hsucceeds)
      obtain ⟨opened, hopened, hrun⟩ := ih hrows' hrest
      refine ⟨first :: opened, ?_, ?_⟩
      · rw [if_pos rfl, List.mapM_cons, hfirst, hopened]
        rfl
      · rw [List.append_assoc, List.singleton_append] at hrun
        exact hrun
    | false =>
      have hkept := (kept_iff builder ring).2 hkeeps hsucceeds
      rw [if_neg (by decide)]
      change ∃ opened, _ ∧ Rows sumOut (held ++ opened) (pushRings (after builder ring) rings)
      rw [hkept] at hrest ⊢
      exact ih hrows hrest

theorem build_eq_ok {builder : AggregateRingMatrixBuilder Γ} {matrix : RingMatrix Γ} (h : builder.build = .ok matrix) :
    matrix.matrix = List.zipWith (fun keys amountCommitment => keys ++ [amountCommitment]) builder.keyRing builder.amountsRing := by
  unfold build RingMatrix.new at h
  split at h
  · cases h
  · split at h
    · cases h
    · cases h
      rfl

theorem new_eq_ok {commitments : List CompressedPoint} {fee : UInt64} {builder : AggregateRingMatrixBuilder Γ}
    (h : new Γ commitments fee = .ok builder) : ∃ outs, commitments.mapM (CompressedPoint.decompress Γ) = some outs ∧
      Rows (outs.sum + (fee.toNat : Scalar) • Γ.H) [] builder := by
  unfold new at h
  split at h
  · cases h
  · rename_i outs houts
    cases h
    exact ⟨outs, houts, ⟨⟨rfl, by simp, rfl, rfl⟩, fun _ => rfl, fun _ => rfl⟩⟩

/-- Which calls of `push_ring` leave the builder as it was if they fail. With only such calls, what is built is what the calls that
succeeded give: in row `j` the `j`-th keys of the rings, in order, followed by the sum of the `j`-th commitments less those of
the outputs and the fee. -/
theorem pushRing_atomic (Γ : Ctx) :
    (∀ (builder : AggregateRingMatrixBuilder Γ) (ring : List (CompressedPoint × CompressedPoint)),
      (succeeds builder ring = false → after builder ring = builder) ↔ Keeps builder ring) ∧
    ∀ (commitments : List CompressedPoint) (fee : UInt64) (builder : AggregateRingMatrixBuilder Γ)
      (rings : List (List (CompressedPoint × CompressedPoint))),
      new Γ commitments fee = .ok builder → KeepsAll builder rings →
        pushRings builder rings = pushRings builder (pushed builder rings) ∧
        (pushRings builder rings).build = (pushRings builder (pushed builder rings)).build ∧
        ∀ matrix, (pushRings builder rings).build = .ok matrix → ∃ outs opened,
          commitments.mapM (CompressedPoint.decompress Γ) = some outs ∧ (pushed builder rings).mapM (openRing Γ) = some opened ∧
          (∀ ring ∈ opened, ring.length = matrix.matrix.length) ∧
          matrix.matrix = (List.range matrix.matrix.length).map fun j =>
            (opened.map fun ring => (ring.getD j 0).1) ++
              [(opened.map fun ring => (ring.getD j 0).2).sum - outs.sum - (fee.toNat : Scalar) • Γ.H] := by
  refine ⟨kept_iff, ?_⟩
  intro commitments fee builder rings hnew hkeeps
  have hrun := pushRings_pushed hkeeps
  refine ⟨hrun, by rw [← hrun], ?_⟩
  intro matrix hbuild
  obtain ⟨outs, houts, hstart⟩ := new_eq_ok hnew
  obtain ⟨opened, hopened, hrows⟩ := rows_pushRings hstart hkeeps
  rw [List.nil_append] at hrows
  have hmatrix := build_eq_ok hbuild
  generalize pushRings builder rings = left at hrows hmatrix
  have hlen : matrix.matrix.length = left.keyRing.length := by
    rw [hmatrix, List.length_zipWith, left.length_eq, Nat.min_self]
  refine ⟨outs, opened, houts, hopened, ?_, ?_⟩
  · rw [hlen]
    exact hrows.rowsOf.length_ring
  · rw [hlen, hmatrix, hrows.rowsOf.amountsRing_eq]
    nth_rewrite 1 [hrows.rowsOf.keyRing_eq]
    rw [List.zipWith_map, List.zipWith_self]
    refine List.map_congr_left ?_
    intro j _
    rw [sub_add_eq_sub_sub]

/-- A builder without outputs and without a fee. -/
def emptyBuilder : AggregateRingMatrixBuilder instanceCtx where
  keyRing := []
  amountsRing := []
  sumOut := 0 + ((0 : UInt64).toNat : Scalar) • instanceCtx.H
  length_eq := rfl

/-- A ring, and then one that is refused. -/
def ringAndRefused : List (List (CompressedPoint × CompressedPoint)) :=
  [[(leBytes 32 3, leBytes 32 4), (leBytes 32 5, leBytes 32 6)], []]

theorem pushRing_atomic_refused : pushRings emptyBuilder ringAndRefused =
    pushRings emptyBuilder (pushed emptyBuilder ringAndRefused) :=
  ((pushRing_atomic instanceCtx).2 [] 0 emptyBuilder ringAndRefused rfl
    ⟨Or.inl (by decide +kernel), Or.inr (Or.inl rfl), trivial⟩).1

/-- A ring of two members the last commitment of which cannot be decompressed: it is not reduced. -/
def brokenRing : List (CompressedPoint × CompressedPoint) :=
  [(leBytes 32 3, leBytes 32 4), (leBytes 32 5, Bytes.replicate 32 255)]

/-- The call fails, and a matrix of its keys is built afterwards. Without the call there is none. -/
theorem pushRing_brokenRing :
    ¬∀ (commitments : List CompressedPoint) (fee : UInt64) (builder : AggregateRingMatrixBuilder instanceCtx)
      (rings : List (List (CompressedPoint × CompressedPoint))), new instanceCtx commitments fee = .ok builder →
        (∀ ring, succeeds builder ring = false → after builder ring = builder) ∧
        (pushRings builder rings).build = (pushRings builder (pushed builder rings)).build := by
  intro h
  obtain ⟨-, hbuild⟩ := h [] 0 emptyBuilder [brokenRing] rfl
  have hbuilt : (pushRings emptyBuilder [brokenRing]).build.isOk = true := by decide +kernel
  have hnone : (pushRings emptyBuilder (pushed emptyBuilder [brokenRing])).build.isOk = false := by decide +kernel
  rw [hbuild, hnone] at hbuilt
  contradiction

end AggregateRingMatrixBuilder

end MoneroOxide
