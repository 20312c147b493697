import MoneroOxide.Lemmas.EpeeObject

/-!
# Decoding EPEE: no panic on any encoding, faithful under every way of consuming an object, synchronised after a mismatch
-/

namespace MoneroOxide

namespace Epee

/-! ## No call panics, and every loop ends -/

/-- The states after any calls and drops on a decoder of an encoding, whatever they returned. -/
inductive Reachable (encoding : List UInt8) : State → Prop
  | new {epee : Epee} : new encoding = .ok epee → Reachable encoding ⟨epee, []⟩
  | call {s s' : State} {c : Call} {r : Response} : Reachable encoding s → call c s = some (.ok (r, s')) → Reachable encoding s'

/-- The decoders of the reachable states, and those which single steps pass through from there. -/
inductive Visited (encoding : List UInt8) : Decoder → Prop
  | state {s : State} : Reachable encoding s → Visited encoding s.epee.toDecoder
  | single {d d' : Decoder} {r : Option SingleStepResult} : Visited encoding d → singleStep d = .ok r d' → Visited encoding d'

/-- The decoders at which the loop of `step` takes a single step. -/
inductive StepsAt (stop : ℕ) (d : Decoder) : Decoder → Prop
  | start : StepsAt stop d d
  | next {d₁ d₂ : Decoder} {r : Option SingleStepResult} : StepsAt stop d d₁ → singleStep d₁ = .ok r d₂ → d₂.stack.depth ≠ stop →
      StepsAt stop d d₂

/-- What is safe about a decoder. -/
structure Decoder.Safe (d : Decoder) : Prop where
  depth : d.stack.depth ≤ MAX_OBJECT_DEPTH
  amounts : ∀ i, 0 < (d.stack.amounts i : ℕ)
  nibbles : ∀ i : Fin MAX_OBJECT_DEPTH, i.val < d.stack.depth → PackedTypes.nibble d.stack.types i ≤ 12
  /-- The operations of the stack do not panic. -/
  peek : ∃ top, d.stack.peek = .ok top
  pop : ∃ popped, d.stack.pop = .ok popped
  push : ∀ kind amount, (∃ stack, d.stack.push kind amount = .ok stack) ∨
    d.stack.push kind amount = .error (.error .DepthLimitExceeded)
  /-- A single step on a stack with items takes a byte or returns an error. -/
  single : 0 < d.stack.depth → Call.Meets (fun r d' => r.isSome ∧ d'.encoding.length < d.encoding.length)
    (fun e _ => IsError e) (singleStep d)
  /-- `step` ends, and does not panic. -/
  step : Call.Meets (fun _ _ => True) (fun e _ => IsError e) (step d)
  /-- No single step of the loop of `step` leaves a depth past the one to stop at, nor is it taken on an empty stack. -/
  stop : ∀ kind len, d.stack.peek = .ok (some (kind, len)) → ∀ d', StepsAt (stopAtStackDepth d len) d d' → 0 < d'.stack.depth ∧
    ∀ r d'', singleStep d' = .ok r d'' → stopAtStackDepth d len ≤ d''.stack.depth

theorem Stack.Holds.nibble_le {stack : Stack} {frames : List Frame} (h : stack.Holds frames) (i : Fin MAX_OBJECT_DEPTH)
    (hi : i.val < frames.length) : PackedTypes.nibble stack.types i ≤ 12 := by
  induction frames with
  | nil => cases hi
  | cons frame frames ih =>
    obtain ⟨⟨hlt, htype, -⟩, hrest⟩ := h
    rcases Nat.lt_succ_iff_lt_or_eq.1 hi with hi | hi
    · exact ih hrest hi
    · have hget : i = ⟨frames.length, hlt⟩ := Fin.ext hi
      rw [hget, PackedTypes.get_ok.1 htype]
      exact Nat.le_of_lt_succ (fourBits_lt _)

/-- The loop of `step` is always at runs above those it stops at. -/
theorem stepsAt_above {d d' : Decoder} {kind : TypeOrEntry} {n : ℕ} {base : List Frame}
    (h : d.stack.Is (pushFrame kind (n + 1) base))
    (hsteps : StepsAt (pushFrame kind n base).length d d') :
    ∃ kind' n' below upper, d'.stack.Is (pushFrame kind' (n' + 1) below) ∧
    pushFrame kind' n' below = upper ++ pushFrame kind n base := by
  induction hsteps with
  | start => exact ⟨kind, n, base, [], h, rfl⟩
  | next hsteps hsingle hdepth ih =>
    obtain ⟨kind₁, n₁, below, upper, hstack, hbelow⟩ := ih
    have hmeets := singleStep_meets hstack
    rw [hsingle, hbelow] at hmeets
    obtain ⟨r, -, hleft⟩ := hmeets
    obtain ⟨upper', hupper'⟩ := exists_above_eq_append r (upper ++ pushFrame kind n base)
    rw [hupper', ← List.append_assoc] at hleft
    have hstack' := hleft.stack
    cases hupper : upper' ++ upper with
    | nil =>
      rw [hupper] at hstack'
      exact absurd hstack'.depth hdepth
    | cons frame upper'' =>
      rw [hupper, List.cons_append, cons_eq_pushFrame frame.1 frame.2] at hstack'
      exact ⟨frame.1, frame.2.natPred, _, _, hstack', pushFrame_append _ _ _ _⟩

theorem Stack.Is.safe {d : Decoder} {frames : List Frame} (h : d.stack.Is frames) : d.Safe := by
  refine ⟨?_, fun i => PNat.pos _, ?_, ?_, ?_, ?_, ?_, ?_, ?_⟩
  · rw [h.depth]
    exact h.length_le
  · intro i hi
    rw [h.depth] at hi
    exact h.holds.nibble_le i hi
  · cases frames with
    | nil => exact ⟨_, Stack.peek_nil h⟩
    | cons frame base => exact ⟨_, Stack.peek_pushFrame (cons_eq_pushFrame frame.1 frame.2 base ▸ h)⟩
  · cases frames with
    | nil => exact ⟨_, Stack.pop_nil h⟩
    | cons frame base =>
      obtain ⟨stack, hpop, -⟩ := Stack.pop_pushFrame (cons_eq_pushFrame frame.1 frame.2 base ▸ h)
      exact ⟨_, hpop⟩
  · intro kind amount
    by_cases hlt : frames.length < MAX_OBJECT_DEPTH
    · obtain ⟨stack, hpush, -⟩ := Stack.push_of_lt h hlt kind amount
      exact Or.inl ⟨stack, hpush⟩
    · exact Or.inr (Stack.push_of_le h (Nat.le_of_not_lt hlt) kind amount)
  · intro hpos
    cases frames with
    | nil =>
      rw [h.depth] at hpos
      exact absurd hpos (lt_irrefl 0)
    | cons frame base =>
      refine (singleStep_meets (cons_eq_pushFrame frame.1 frame.2 base ▸ h)).imp (fun r d' hr => ?_) fun e d' he => he.1
      obtain ⟨r', rfl, hleft⟩ := hr
      exact ⟨rfl, hleft.encoding⟩
  · cases frames with
    | nil =>
      rw [step_nil h]
      trivial
    | cons frame base =>
      exact (step_meets (cons_eq_pushFrame frame.1 frame.2 base ▸ h)).imp (fun _ _ _ => trivial) fun _ _ he => he.1
  · intro kind len hpeek d' hsteps
    cases frames with
    | nil =>
      rw [Stack.peek_nil h] at hpeek
      cases hpeek
    | cons frame base =>
      rw [cons_eq_pushFrame frame.1 frame.2] at h
      rw [Stack.peek_pushFrame h] at hpeek
      cases hpeek
      rw [stopAtStackDepth_eq h] at hsteps ⊢
      obtain ⟨kind', n', below, upper, hstack, hbelow⟩ := stepsAt_above h hsteps
      refine ⟨by rw [hstack.depth]; exact Nat.succ_pos _, fun r d'' hsingle => ?_⟩
      have hmeets := singleStep_meets hstack
      rw [hsingle, hbelow] at hmeets
      obtain ⟨r', -, hleft⟩ := hmeets
      obtain ⟨upper', hupper'⟩ := exists_above_eq_append r' (upper ++ pushFrame frame.1 frame.2.natPred base)
      rw [hleft.stack.depth, hupper', List.length_append, List.length_append]
      omega

theorem Reachable.live {encoding : List UInt8} {s : State} (h : Reachable encoding s) : Live s := by
  induction h with
  | new hnew =>
    rcases new_cases encoding with ⟨rest, hok, -⟩ | ⟨e, herr⟩
    · rw [hok] at hnew
      cases hnew
      exact ⟨_, Stack.rootObject_is, fun _ => Nat.zero_le _⟩
    · rw [herr] at hnew
      cases hnew
  | call _ hcall ih =>
    obtain ⟨r, s, heq, hlive⟩ := call_returns ih hcall
    cases heq
    exact hlive

theorem Visited.exists_frames {encoding : List UInt8} {d : Decoder} (h : Visited encoding d) : ∃ frames, d.stack.Is frames := by
  induction h with
  | state hs =>
    obtain ⟨frames, hstack, -⟩ := hs.live
    exact ⟨frames, hstack⟩
  | single _ hsingle ih =>
    obtain ⟨frames, hstack⟩ := ih
    cases frames with
    | nil =>
      rw [singleStep_nil hstack] at hsingle
      cases hsingle
      exact ⟨[], hstack⟩
    | cons frame base =>
      rw [cons_eq_pushFrame frame.1 frame.2] at hstack
      have hmeets := singleStep_meets hstack
      rw [hsingle] at hmeets
      obtain ⟨r, -, hleft⟩ := hmeets
      exact ⟨_, hleft.stack⟩

/-- On every byte string and under every sequence of calls and drops, whatever they returned, no call panics and every loop ends. A
`Drop` loop ends after no more iterations than there are bytes left and one, whatever the length which was declared. -/
theorem epee_safe (encoding : List UInt8) :
    (∀ message, new encoding ≠ .error (.panic message)) ∧
    (∀ d, Visited encoding d → d.Safe) ∧
    ∀ s, Reachable encoding s →
      (∀ c result, call c s = some result → ∃ r s', result = .ok (r, s')) ∧
      ∀ handle handles, s.handles = handle :: handles →
        ∃ k ≤ handle.len, k ≤ s.epee.encoding.length + 1 ∧ ∃ epee, skip k s.epee = .ok epee ∧
        (k = handle.len ∨ epee.error.isSome) := by
  refine ⟨fun message hnew => ?_, fun d hd => ?_, fun s hs => ⟨fun c result hcall => ?_, fun handle handles hhandles => ?_⟩⟩
  · rcases new_cases encoding with ⟨rest, hok, -⟩ | ⟨e, herr⟩
    · rw [hok] at hnew
      cases hnew
    · rw [herr] at hnew
      cases hnew
  · obtain ⟨frames, hstack⟩ := hd.exists_frames
    exact hstack.safe
  · obtain ⟨r, s', heq, -⟩ := call_returns hs.live hcall
    exact ⟨r, s', heq⟩
  · have hlive := hs.live
    unfold Live at hlive
    rw [hhandles] at hlive
    exact skip_ends (hlive.mono (Nat.le_add_right _ _))

/-! ## Every type-correct way of consuming an object -/

theorem new_encode (encoding : List UInt8) : new (HEADER ++ VERSION :: encoding) = .ok ⟨⟨encoding, Stack.rootObject⟩, none⟩ := by
  unfold new
  rw [readBytes_append]
  dsimp only
  rw [if_neg (by simp), readByte_cons]
  dsimp only
  rw [if_neg (by simp)]

/-- The decoder of a well-formed object is where the cursor of its root is. -/
theorem follows_root {root : Item} (hok : root.Ok .Object MAX_LEVEL) (rest : List UInt8) :
    Follows rest [.entry .Object [root]] ⟨⟨⟨root.encode .Object ++ rest, Stack.rootObject⟩, none⟩, [.entry .Object 1]⟩ := by
  refine ⟨⟨rfl, ?_, Stack.rootObject_is⟩, rfl, Or.inl rfl, ⟨MAX_LEVEL, le_refl _, hok, trivial⟩, le_refl 1⟩
  simp only [encodeCursors, encodeItems, List.append_nil]

theorem entry_new (encoding : List UInt8) :
    call .entry ⟨⟨⟨encoding, Stack.rootObject⟩, none⟩, []⟩ =
      some (.ok (.entry .Object 1, ⟨⟨⟨encoding, Stack.rootObject⟩, none⟩, [.entry .Object 1]⟩)) := rfl

theorem TypeCorrect.no_error {cursors cursors' : List Cursor} {calls : List Call} {responses : List Response}
    (h : TypeCorrect cursors calls responses cursors') (e : EpeeError) : .error e ∉ responses := by
  induction h with
  | nil cursors => exact List.not_mem_nil
  | correct hconsume _ ih =>
    intro hmem
    rcases List.mem_cons.1 hmem with he | hmem
    · subst he
      unfold consume consumeEntry at hconsume
      split at hconsume <;> try cases hconsume
      split at hconsume <;> try cases hconsume
      split at hconsume <;> try cases hconsume
      rename_i item _ _ _ _
      cases hread : readItem _ item with
      | none =>
        rw [hread] at hconsume
        cases hconsume
      | some v =>
        rw [hread] at hconsume
        cases hconsume
    · exact ih hmem
  | mismatch _ hfalse _ _ => exact hfalse.elim

/-- On the encoding of a well-formed object, of a depth of up to 51 with the root and whatever follows it, every run of calls which are
correct for the types returns what consuming the object yields, and leaves the encoding of what is left; once the root is consumed or
dropped, that is exactly what followed the object. -/
theorem epee_faithful (root : Item) (hok : root.Ok .Object 51) (rest : List UInt8) :
    ∃ epee s, new (HEADER ++ VERSION :: (root.encode .Object ++ rest)) = .ok epee ∧
      call .entry ⟨epee, []⟩ = some (.ok (.entry .Object 1, s)) ∧
      ∀ calls responses cursors, TypeCorrect [.entry .Object [root]] calls responses cursors →
        ∃ s', callAll calls s = some (.ok (responses, s')) ∧ (∀ e, .error e ∉ responses) ∧ s'.epee.error = none ∧
          s'.epee.encoding = encodeCursors cursors ++ rest ∧
          (cursors = [] → s'.epee.encoding = rest ∧ s'.epee.stack.depth = 0 ∧ s'.handles = []) := by
  refine ⟨_, _, new_encode _, entry_new _, fun calls responses cursors hrun => ?_⟩
  obtain ⟨s', hcalls, hfollows⟩ :=
    follows_consumption (follows_root hok rest) (hrun.imp fun _ _ _ hfalse => hfalse.elim)
  refine ⟨s', hcalls, hrun.no_error, hfollows.sound.error, hfollows.sound.at_.encoding, fun hnil => ?_⟩
  subst hnil
  exact ⟨hfollows.sound.at_.encoding, hfollows.sound.at_.stack.depth, hfollows.handles⟩

/-- An object with an array of two numbers, and a flag. -/
def numbersAndFlag : Item := .object .one [.mk [97] .Int16 (some .two) [.int 5, .int (-1)], .mk [98] .Bool none [.bool 1]]

theorem numbersAndFlag_ok : numbersAndFlag.Ok .Object 51 := by
  simp [numbersAndFlag, Item.Ok, fieldsOk, Field.Ok, itemsOk, LengthOk, Width.Holds, Width.bytes, Kind.HasInt]

/-- One of the numbers is read and the iterator over them dropped, before the flag is read. -/
theorem epee_faithful_numbersAndFlag : ∃ epee s, new (HEADER ++ VERSION :: (numbersAndFlag.encode .Object ++ [255])) = .ok epee ∧
    call .entry ⟨epee, []⟩ = some (.ok (.entry .Object 1, s)) ∧
    ∃ s', callAll [.access .fields, .next, .access .iterate, .next, .access .to_i16, .drop, .next,
    .access .to_bool, .next, .drop] s =
      some (.ok ([.iterator, .field [97] .Int16 2, .iterator, .entry .Int16 1, .value (.int 5), .dropped, .field [98] .Bool 1,
        .value (.bool true), .none, .dropped], s')) ∧ s'.epee.encoding = [255] := by
  obtain ⟨epee, s, hnew, hentry, hruns⟩ := epee_faithful numbersAndFlag numbersAndFlag_ok [255]
  have hrun : TypeCorrect [.entry .Object [numbersAndFlag]]
      [.access .fields, .next, .access .iterate, .next, .access .to_i16, .drop, .next, .access .to_bool, .next, .drop]
      [.iterator, .field [97] .Int16 2, .iterator, .entry .Int16 1, .value (.int 5), .dropped, .field [98] .Bool 1,
        .value (.bool true), .none, .dropped] [] := by
    iterate 10 refine .correct rfl ?_
    exact .nil []
  obtain ⟨s', hcalls, -, -, -, hend⟩ := hruns _ _ _ hrun
  exact ⟨epee, s, hnew, hentry, s', hcalls, (hend rfl).1⟩

/-! ## Mismatches -/

/-- The decoder is positioned past what was consumed, and every iterator then yields what is left of it. -/
def Synchronised (rest : List UInt8) (cursors : List Cursor) (s : State) : Prop :=
  s.epee.encoding = encodeCursors cursors ++ rest ∧
  ∀ calls responses cursors', Consumption Skips cursors calls responses cursors' →
    ∃ s', callAll calls s = some (.ok (responses, s')) ∧ s'.epee.encoding = encodeCursors cursors' ++ rest

theorem Follows.synchronised {rest : List UInt8} {cursors : List Cursor} {s : State} (h : Follows rest cursors s) :
    Synchronised rest cursors s := by
  refine ⟨h.sound.at_.encoding, fun calls responses cursors' hrun => ?_⟩
  obtain ⟨s', hcalls, h'⟩ := follows_consumption h hrun
  exact ⟨s', hcalls, h'.sound.at_.encoding⟩

/-- A well-formed item takes a byte. -/
theorem Item.encode_length_pos {kind : Kind} {depth : ℕ} {item : Item} (hok : item.Ok kind depth) :
    0 < (item.encode kind).length := by
  have hwidth : ∀ (width : Width) (n : ℕ), 0 < (width.encode n).length := by
    intro width n
    rw [Width.encode, length_leList]
    cases width <;> decide
  cases item with
  | int n =>
    unfold Item.Ok at hok
    unfold Item.encode
    rw [encodeInt, length_leList]
    cases kind <;> first | decide | exact hok.elim
  | float bytes =>
    unfold Item.Ok at hok
    unfold Item.encode
    omega
  | bool byte =>
    unfold Item.encode
    exact Nat.one_pos
  | string width bytes =>
    unfold Item.encode
    rw [List.length_append]
    exact Nat.add_pos_left (hwidth width _) _
  | object width fields =>
    unfold Item.encode
    rw [List.length_append]
    exact Nat.add_pos_left (hwidth width _) _

/-- `fields` on an entry which it mismatches, and which has items, leaves the decoder before the items. -/
theorem not_synchronised_fields {rest : List UInt8} {kind : Kind} {items : List Item} {cursors : List Cursor} {epee : Epee}
    (h : Follows rest (.entry kind items :: cursors) ⟨epee, .entry kind items.length :: cursors.map Cursor.handle⟩)
    (hne : items ≠ []) :
    ¬Synchronised rest cursors ⟨epee, cursors.map Cursor.handle⟩ := by
  intro hsync
  have hencoding : epee.encoding = encodeCursors cursors ++ rest := hsync.1
  obtain ⟨-, ⟨depth, -, hok⟩, -⟩ := h.fits
  cases items with
  | nil => exact hne rfl
  | cons item items =>
    unfold itemsOk at hok
    have hpos := Item.encode_length_pos hok.1
    have hat := h.sound.at_.encoding
    rw [encodeCursors, encodeItems, hencoding] at hat
    have hlength := congrArg List.length hat
    simp only [List.length_append] at hlength
    omega

/-- At every position of a well-formed object, an accessor which mismatches the entry there returns a `TypeError`; and the decoder is
then synchronised if and only if the accessor is not `fields`, or the entry is empty. The position is reached by any run of calls, which
may itself have mismatches that were skipped. -/
theorem mismatch_synchronised_iff (root : Item) (hok : root.Ok .Object 51) (rest : List UInt8) :
    ∃ epee s, new (HEADER ++ VERSION :: (root.encode .Object ++ rest)) = .ok epee ∧
      call .entry ⟨epee, []⟩ = some (.ok (.entry .Object 1, s)) ∧
      ∀ calls responses kind items cursors,
        Consumption Skips [.entry .Object [root]] calls responses (.entry kind items :: cursors) →
        ∀ accessor, Mismatch accessor kind items →
          ∃ s₁ s₂, callAll calls s = some (.ok (responses, s₁)) ∧
            call (.access accessor) s₁ = some (.ok (.error .TypeError, s₂)) ∧
            (Synchronised rest cursors s₂ ↔ accessor ≠ .fields ∨ items = []) := by
  refine ⟨_, _, new_encode _, entry_new _, fun calls responses kind items cursors hrun accessor hmismatch => ?_⟩
  obtain ⟨⟨epee, handles⟩, hcalls, hfollows⟩ := follows_consumption (follows_root hok rest) hrun
  obtain rfl := hfollows.handles
  by_cases hskips : accessor ≠ .fields ∨ items = []
  · obtain ⟨s₂, haccess, h₂⟩ := follows_mismatch hmismatch hskips hfollows
    exact ⟨_, s₂, hcalls, congrArg some haccess, fun _ => hskips, fun _ => h₂.synchronised⟩
  · obtain ⟨haccessor, hne⟩ := not_or.1 hskips
    obtain rfl := not_not.1 haccessor
    rcases hmismatch with ⟨expected, hexpected, hmismatch⟩ | ⟨n, width, bytes, hfixed, -⟩
    · cases hexpected
      refine ⟨_, _, hcalls, congrArg some (entryFields_mismatch hmismatch hfollows.sound.error), fun hsync => ?_,
        fun h => absurd h hskips⟩
      exact (not_synchronised_fields hfollows hne hsync).elim
    · cases hfixed

/-- A number where a string is asked for, with another field after it. -/
theorem mismatch_synchronised_iff_numbersAndFlag : ∃ s₁ s₂ : State,
    call (.access .to_str) s₁ = some (.ok (.error .TypeError, s₂)) ∧
      Synchronised [] [.fields [.mk [98] .Bool none [.bool 1]]] s₂ := by
  obtain ⟨epee, s, -, -, hruns⟩ := mismatch_synchronised_iff numbersAndFlag numbersAndFlag_ok []
  have hrun : Consumption Skips [.entry .Object [numbersAndFlag]] [.access .fields, .next] [.iterator, .field [97] .Int16 2]
      [.entry .Int16 [.int 5, .int (-1)], .fields [.mk [98] .Bool none [.bool 1]]] := by
    iterate 2 refine .correct rfl ?_
    exact .nil _
  obtain ⟨s₁, s₂, -, hcall, hiff⟩ := hruns _ _ _ _ _ hrun .to_str (Or.inl ⟨.String, rfl, Or.inl (by decide)⟩)
  exact ⟨s₁, s₂, hcall, hiff.2 (Or.inl (by decide))⟩

/-- An object with an array of two objects, of which the first has a field, and two numbers. -/
def objectsAndNumbers : Item :=
  .object .one [.mk [97] .Object (some .one) [.object .one [.mk [120] .Uint8 none [.int 5]], .object .one []],
    .mk [98] .Uint8 none [.int 7], .mk [99] .Uint8 none [.int 9]]

theorem objectsAndNumbers_ok : objectsAndNumbers.Ok .Object 51 := by
  simp [objectsAndNumbers, Item.Ok, fieldsOk, Field.Ok, itemsOk, LengthOk, Width.Holds, Width.bytes, Kind.HasInt]

/-- After `fields` mismatched the array, the decoder is not synchronised: the fields of the object are not the two numbers, but a
failure and the field within the array. -/
theorem fields_mismatch_yields_contents :
    (∃ epee s₁ s₂, new (HEADER ++ VERSION :: (objectsAndNumbers.encode .Object ++ [])) = .ok epee ∧
      callAll [.entry, .access .fields, .next] ⟨epee, []⟩ = some (.ok ([.entry .Object 1, .iterator, .field [97] .Object 2], s₁)) ∧
      call (.access .fields) s₁ = some (.ok (.error .TypeError, s₂)) ∧
      ¬Synchronised [] [.fields [.mk [98] .Uint8 none [.int 7], .mk [99] .Uint8 none [.int 9]]] s₂) ∧
    ((new (HEADER ++ VERSION :: (objectsAndNumbers.encode .Object ++ []))).toOption.bind fun epee =>
        (callAll [.entry, .access .fields, .next, .access .fields, .next, .next] ⟨epee, []⟩).map fun result => result.map Prod.fst) =
      some (.ok [.entry .Object 1, .iterator, .field [97] .Object 2, .error .TypeError, .error .InternalError,
      .field [120] .Uint8 1]) := by
  refine ⟨?_, by decide +kernel⟩
  have hrun : Consumption Skips [.entry .Object [objectsAndNumbers]] [.access .fields, .next] [.iterator, .field [97] .Object 2]
      [.entry .Object [.object .one [.mk [120] .Uint8 none [.int 5]], .object .one []],
        .fields [.mk [98] .Uint8 none [.int 7], .mk [99] .Uint8 none [.int 9]]] := by
    iterate 2 refine .correct rfl ?_
    exact .nil _
  obtain ⟨⟨epee, handles⟩, hcalls, hfollows⟩ := follows_consumption (follows_root objectsAndNumbers_ok []) hrun
  obtain rfl := hfollows.handles
  refine ⟨_, _, _, new_encode _, callAll_cons (entry_new _) hcalls,
    congrArg some (entryFields_mismatch (Or.inr (by decide)) hfollows.sound.error), ?_⟩
  exact not_synchronised_fields hfollows (by simp)

end Epee

end MoneroOxide
