import MoneroOxide.Theorems.Epee

/-!
# The root of an EPEE object is yielded at most once

`Epee::entry` tells that the decoder was used from the depth of its stack, and from the error it recorded. While no error is recorded,
the items on the stack are those which the live handles have yet to be dropped past, whatever the encoding is and whatever the calls
returned (`Balanced`). The exception is `fields` on an entry which is not an object and has items: it leaves them on the stack.
-/

namespace MoneroOxide

namespace Epee

/-! ## The items on the stack -/

/-- The items which are left to decode, the next one first. -/
def waiting (frames : List Frame) : List TypeOrEntry := frames.flatMap fun frame => List.replicate frame.2 frame.1

theorem waiting_pushFrame (kind : TypeOrEntry) (n : ℕ) (frames : List Frame) :
    waiting (pushFrame kind n frames) = List.replicate n kind ++ waiting frames := by
  unfold pushFrame
  split
  · rfl
  · obtain rfl : n = 0 := by omega
    rfl

/-- The next item is of the top run. -/
theorem exists_pushFrame_of_waiting {frames : List Frame} {kind : TypeOrEntry} {owed : List TypeOrEntry}
    (h : waiting frames = kind :: owed) : ∃ n base, frames = pushFrame kind (n + 1) base ∧
    waiting (pushFrame kind n base) = owed := by
  cases frames with
  | nil => cases h
  | cons frame base =>
    rw [cons_eq_pushFrame frame.1 frame.2 base] at h ⊢
    rw [waiting_pushFrame, List.replicate_succ, List.cons_append] at h
    obtain ⟨hkind, howed⟩ := List.cons.inj h
    subst hkind
    exact ⟨frame.2.natPred, base, rfl, (waiting_pushFrame _ _ _).trans howed⟩

theorem eq_nil_of_waiting {frames : List Frame} (h : waiting frames = []) : frames = [] := by
  cases frames with
  | nil => rfl
  | cons frame base =>
    rw [cons_eq_pushFrame frame.1 frame.2 base, waiting_pushFrame] at h
    cases h

/-- The items a handle has yet to be dropped past. -/
def Handle.items : Handle → List TypeOrEntry
  | entry kind len | array kind len => List.replicate len (.OfType kind)
  | fields len => List.replicate len .Entry

theorem Handle.length_items (handle : Handle) : handle.items.length = handle.len := by
  cases handle <;> exact List.length_replicate

/-- The items all live handles have yet to be dropped past. -/
def owed (handles : List Handle) : List TypeOrEntry := handles.flatMap Handle.items

/-- Unless there has been an error, these are the items on the stack. -/
def Balanced (owed : List TypeOrEntry) (epee : Epee) : Prop :=
  epee.error = none → ∃ frames, epee.stack.Is frames ∧ waiting frames = owed

theorem balanced_of_error {epee : Epee} {e : EpeeError} (h : epee.error = some e) (owed : List TypeOrEntry) :
    Balanced owed epee := by
  intro hnone
  rw [h] at hnone
  cases hnone

/-! ## Steps -/

/-- The items a single step pushed. -/
def SingleStepResult.pushed : SingleStepResult → List TypeOrEntry
  | .Object fields => List.replicate fields .Entry
  | .Entry _ kind len => List.replicate len (.OfType kind)
  | .Unit => []

theorem waiting_above (r : SingleStepResult) (frames : List Frame) : waiting (r.above frames) = r.pushed ++ waiting frames := by
  cases r with
  | Object fields => exact waiting_pushFrame .Entry fields frames
  | Entry key kind len => exact waiting_pushFrame (.OfType kind) len frames
  | Unit => rfl

/-- What a single step returns for an entry and for an object. -/
def SingleStepResult.Of : TypeOrEntry → SingleStepResult → Prop
  | .Entry, r => ∃ key kind len, r = .Entry key kind len
  | .OfType .Object, r => ∃ fields, r = .Object fields
  | .OfType _, _ => True

theorem stepInto_of {kind : TypeOrEntry} {d d' : Decoder} {r : SingleStepResult} (h : stepInto kind d = .ok r d') : r.Of kind := by
  cases kind with
  | Entry =>
    simp only [stepInto, Call.bind_ok, Call.pure_ok] at h
    obtain ⟨key, -, -, ⟨kind, len⟩, -, -, len', -, -, -, -, -, rfl, -⟩ := h
    exact ⟨_, _, _, rfl⟩
  | OfType kind =>
    cases kind with
    | Object =>
      simp only [stepInto, Call.bind_ok, Call.pure_ok] at h
      obtain ⟨fields, -, -, -, -, -, rfl, -⟩ := h
      exact ⟨_, rfl⟩
    | _ => trivial

/-- A single step takes the next item, and pushes those it says it did; or it fails, having taken the item. -/
theorem singleStep_balanced {kind : TypeOrEntry} {owed : List TypeOrEntry} {epee : Epee} (h : Balanced (kind :: owed) epee)
    (herror : epee.error = none) :
    Call.Meets (fun result d => ∃ r : SingleStepResult, result = some r ∧ r.Of kind ∧ Balanced (r.pushed ++ owed) ⟨d, none⟩)
      (fun e d => IsError e ∧ Balanced owed ⟨d, none⟩) (singleStep epee.toDecoder) := by
  obtain ⟨frames, hstack, hwaiting⟩ := h herror
  obtain ⟨n, base, rfl, howed⟩ := exists_pushFrame_of_waiting hwaiting
  have hmeets := singleStep_meets hstack
  cases hstep : singleStep epee.toDecoder with
  | error e d =>
    rw [hstep] at hmeets
    exact ⟨hmeets.1, fun _ => ⟨_, hmeets.2.stack, howed⟩⟩
  | ok result d =>
    rw [hstep] at hmeets
    obtain ⟨r, rfl, hleft⟩ := hmeets
    obtain ⟨stack, hpop, -⟩ := popStack_pushFrame hstack
    have hof : r.Of kind := by
      rw [singleStep, Call.bind_of_ok hpop] at hstep
      obtain ⟨r', d', hr', hr⟩ := Call.bind_ok.1 hstep
      obtain ⟨he, -⟩ := Call.pure_ok.1 hr
      cases he
      exact stepInto_of hr'
    refine ⟨r, rfl, hof, fun _ => ⟨_, hleft.stack, ?_⟩⟩
    rw [waiting_above, howed]

/-- A `Drop` loop steps past as many items as it is to, unless there is an error. -/
theorem skip_balanced {items owed : List TypeOrEntry} {epee : Epee} (h : Balanced (items ++ owed) epee) :
    ∃ epee', skip items.length epee = .ok epee' ∧ Balanced owed epee' := by
  induction items generalizing epee with
  | nil => exact ⟨epee, rfl, h⟩
  | cons kind items ih =>
    cases herror : epee.error with
    | some e => exact ⟨epee, skip_of_isSome (by rw [herror]; rfl) _, balanced_of_error herror owed⟩
    | none =>
      obtain ⟨frames, hstack, hwaiting⟩ := h herror
      obtain ⟨n, base, rfl, howed⟩ := exists_pushFrame_of_waiting hwaiting
      have hmeets := step_meets hstack
      cases hstep : step epee.toDecoder with
      | ok result d =>
        rw [hstep] at hmeets
        rw [List.length_cons, skip_succ_of_ok herror hstep]
        exact ih fun _ => ⟨_, hmeets.2.stack, howed⟩
      | error e d =>
        rw [hstep] at hmeets
        cases e with
        | panic message => exact hmeets.1.elim
        | error e => exact ⟨_, skip_succ_of_error herror hstep _, balanced_of_error rfl owed⟩

/-! ## Calls -/

/-- `fields` is called on an entry which is not one object, and which has items, while no error is recorded. -/
def Strands (c : Call) (s : State) : Prop :=
  c = .access .fields ∧ s.epee.error = none ∧
    ∃ kind len handles, s.handles = .entry kind len :: handles ∧ (kind ≠ .Object ∨ len ≠ 1) ∧ len ≠ 0

/-- The call returned, and the items on the stack are still those of the live handles. -/
def ReturnsBalanced (result : Except (Failure EpeeError) (Response × State)) : Prop :=
  ∃ r s, result = .ok (r, s) ∧ Balanced (owed s.handles) s.epee

theorem entryCall_balanced {epee : Epee} (h : Balanced [] epee) : entryCall epee = (.error .EpeeReuse, ⟨epee, []⟩) := by
  unfold entryCall
  refine if_pos ?_
  cases herror : epee.error with
  | some e => exact Or.inr rfl
  | none =>
    obtain ⟨frames, hstack, hwaiting⟩ := h herror
    have hdepth := hstack.depth
    rw [eq_nil_of_waiting hwaiting] at hdepth
    exact Or.inl (by rw [hdepth]; decide)

theorem fieldsNext_balanced {epee : Epee} {len : ℕ} {handles : List Handle} (h : Balanced (owed (.fields len :: handles)) epee) :
    ReturnsBalanced (fieldsNext epee len handles) := by
  unfold fieldsNext
  cases herror : epee.error with
  | some error => exact ⟨_, _, rfl, h⟩
  | none =>
    cases len with
    | zero => exact ⟨_, _, rfl, h⟩
    | succ len =>
      have hnext : Balanced (.Entry :: owed (.fields len :: handles)) epee := h
      have hmeets := singleStep_balanced hnext herror
      dsimp only
      generalize singleStep epee.toDecoder = result at hmeets
      cases result with
      | ok result d =>
        obtain ⟨r, rfl, ⟨key, kind, n, rfl⟩, hbalanced⟩ := hmeets
        exact ⟨_, _, rfl, hbalanced⟩
      | error e d =>
        cases e with
        | panic message => exact hmeets.1.elim
        | error e => exact ⟨_, _, rfl, hmeets.2⟩

theorem arrayNext_balanced {epee : Epee} {kind : Kind} {len : ℕ} {handles : List Handle}
    (h : Balanced (owed (.array kind len :: handles)) epee) : ReturnsBalanced (.ok (arrayNext epee kind len handles)) := by
  unfold arrayNext
  cases herror : epee.error with
  | some error => exact ⟨_, _, rfl, h⟩
  | none =>
    cases len with
    | zero => exact ⟨_, _, rfl, h⟩
    | succ len => exact ⟨_, _, rfl, h⟩

/-- `fields` consumes an object, also when it fails. -/
theorem entryFields_balanced {epee : Epee} {kind : Kind} {len : ℕ} {handles : List Handle}
    (h : Balanced (owed (.entry kind len :: handles)) epee) (hkeeps : epee.error = none → (kind = .Object ∧ len = 1) ∨ len = 0) :
    ReturnsBalanced (entryFields epee kind len handles) := by
  unfold entryFields
  cases herror : epee.error with
  | some error => exact ⟨_, _, rfl, balanced_of_error herror _⟩
  | none =>
    dsimp only
    rcases hkeeps herror with ⟨rfl, rfl⟩ | rfl
    · rw [if_neg (by simp)]
      have hnext : Balanced (.OfType .Object :: owed handles) epee := h
      have hmeets := singleStep_balanced hnext herror
      generalize singleStep epee.toDecoder = result at hmeets
      cases result with
      | ok result d =>
        obtain ⟨r, rfl, ⟨fields, rfl⟩, hbalanced⟩ := hmeets
        exact ⟨_, _, rfl, hbalanced⟩
      | error e d =>
        cases e with
        | panic message => exact hmeets.1.elim
        | error e => exact ⟨_, _, rfl, hmeets.2⟩
    · rw [if_pos (Or.inr (by decide))]
      exact ⟨_, _, rfl, h⟩

theorem entryRead_balanced {expected : Kind} {r : Bytewise (List UInt8)} (hr : Consumes 0 r)
    {value : List UInt8 → Response} {epee : Epee}
    {kind : Kind} {len : ℕ} {handles : List Handle} (h : Balanced (owed (.entry kind len :: handles)) epee) :
    ReturnsBalanced (entryRead expected r value epee kind len handles) := by
  unfold entryRead
  by_cases hc : kind ≠ expected ∨ len ≠ 1
  · rw [if_pos hc]
    have hitems : Balanced ((Handle.entry kind len).items ++ owed handles) epee := h
    obtain ⟨epee', hskip, hbalanced⟩ := skip_balanced hitems
    rw [Handle.length_items, Handle.len] at hskip
    rw [hskip]
    exact ⟨_, _, rfl, hbalanced⟩
  · rw [if_neg hc]
    cases herror : epee.error with
    | some error => exact ⟨_, _, rfl, balanced_of_error herror _⟩
    | none =>
      obtain rfl : len = 1 := by
        by_contra hne
        exact hc (Or.inr hne)
      obtain ⟨frames, hstack, hwaiting⟩ := h herror
      have hnext : waiting frames = .OfType kind :: owed handles := hwaiting
      obtain ⟨n, base, rfl, howed⟩ := exists_pushFrame_of_waiting hnext
      obtain ⟨stack, hpop, hstack'⟩ := popStack_pushFrame hstack
      dsimp only
      rw [Call.bind_of_ok hpop]
      have hmeets := onEncoding_meets hr (d := { encoding := epee.encoding, stack }) hstack'
      generalize onEncoding r _ = result at hmeets
      cases result with
      | ok bytes d => exact ⟨_, _, rfl, fun _ => ⟨_, hmeets.stack, howed⟩⟩
      | error e d =>
        cases e with
        | panic message => exact hmeets.1.elim
        | error e => exact ⟨_, _, rfl, fun _ => ⟨_, hmeets.2.stack, howed⟩⟩

theorem accessCall_balanced (accessor : Accessor) {epee : Epee} {kind : Kind} {len : ℕ} {handles : List Handle}
    (h : Balanced (owed (.entry kind len :: handles)) epee)
    (hkeeps : accessor = .fields → epee.error = none → (kind = .Object ∧ len = 1) ∨ len = 0) :
    ReturnsBalanced (accessCall accessor epee kind len handles) := by
  have hbytes : ∀ n, Consumes 0 (readBytes n) := fun n => (consumes_readBytes n).mono (Nat.zero_le n)
  have hstr : Consumes 0 readStr := consumes_readStr.mono (Nat.zero_le 1)
  cases accessor with
  | fields => exact entryFields_balanced h (hkeeps rfl)
  | iterate =>
    change ReturnsBalanced (.ok (entryIterate epee kind len handles))
    unfold entryIterate
    cases herror : epee.error with
    | some error => exact ⟨_, _, rfl, balanced_of_error herror _⟩
    | none => exact ⟨_, _, rfl, h⟩
  | to_str => exact entryRead_balanced hstr h
  | to_fixed_len_str n => exact entryRead_balanced hstr h
  | _ => exact entryRead_balanced (hbytes _) h

/-- Every call which strands no items keeps the stack balanced, whatever it returns. -/
theorem call_balanced {c : Call} {s : State} {result : Except (Failure EpeeError) (Response × State)}
    (h : Balanced (owed s.handles) s.epee) (hkeeps : ¬Strands c s) (hcall : call c s = some result) : ReturnsBalanced result := by
  obtain ⟨epee, handles⟩ := s
  unfold call at hcall
  split at hcall <;> simp only at *
  · cases hcall
    subst_vars
    exact ⟨_, _, congrArg Except.ok (entryCall_balanced h), h⟩
  · cases hcall
    subst_vars
    exact fieldsNext_balanced h
  · cases hcall
    subst_vars
    exact arrayNext_balanced h
  · cases hcall
    subst_vars
    rename_i accessor kind len handles
    refine accessCall_balanced _ h ?_
    rintro rfl herror
    by_contra hbad
    refine hkeeps ⟨rfl, herror, kind, len, handles, rfl, ?_⟩
    obtain ⟨hmismatch, hlen⟩ := not_or.1 hbad
    exact ⟨not_and_or.1 hmismatch, hlen⟩
  · cases hcall
    subst_vars
    rename_i handle handles
    have hitems : Balanced (handle.items ++ owed handles) epee := h
    obtain ⟨epee', hskip, hbalanced⟩ := skip_balanced hitems
    rw [Handle.length_items] at hskip
    rw [hskip]
    exact ⟨_, _, rfl, hbalanced⟩
  · cases hcall

/-! ## Runs -/

/-- A run of calls and drops, each of which strands no items. -/
inductive Run : State → State → Prop
  | refl (s : State) : Run s s
  | call {s s₁ s' : State} {c : Call} {r : Response} : ¬Strands c s → call c s = some (.ok (r, s₁)) → Run s₁ s' → Run s s'

theorem Run.balanced {s s' : State} (hrun : Run s s') (h : Balanced (owed s.handles) s.epee) :
    Balanced (owed s'.handles) s'.epee := by
  induction hrun with
  | refl s => exact h
  | call hkeeps hcall _ ih =>
    obtain ⟨r, s₁, heq, hbalanced⟩ := call_balanced h hkeeps hcall
    cases heq
    exact ih hbalanced

theorem balanced_root (encoding : List UInt8) : Balanced (owed [.entry .Object 1]) ⟨⟨encoding, Stack.rootObject⟩, none⟩ :=
  fun _ => ⟨_, Stack.rootObject_is, rfl⟩

/-- The first call of `entry` yields the root. In every run after it whose calls strand no items, no call panics, and once nothing is
alive `entry` returns an error. -/
theorem entry_yields_once (encoding : List UInt8) (epee : Epee) (hnew : new encoding = .ok epee) :
    ∃ s, call .entry ⟨epee, []⟩ = some (.ok (.entry .Object 1, s)) ∧
      ∀ s', Run s s' →
        (∀ c result, ¬Strands c s' → call c s' = some result → ∃ r s'', result = .ok (r, s'')) ∧
        (s'.handles = [] → call .entry s' = some (.ok (.error .EpeeReuse, s'))) := by
  rcases new_cases encoding with ⟨rest, hok, -⟩ | ⟨e, herror⟩
  · rw [hok] at hnew
    cases hnew
    refine ⟨_, entry_new rest, fun s' hrun => ⟨fun c result hkeeps hcall => ?_, fun hhandles => ?_⟩⟩
    · obtain ⟨r, s'', heq, -⟩ := call_balanced (hrun.balanced (balanced_root rest)) hkeeps hcall
      exact ⟨r, s'', heq⟩
    · have hbalanced := hrun.balanced (balanced_root rest)
      obtain ⟨epee, handles⟩ := s'
      subst hhandles
      exact congrArg (some ∘ Except.ok) (entryCall_balanced hbalanced)
  · rw [herror] at hnew
    cases hnew

/-- The root is dropped as it was yielded. -/
theorem entry_yields_once_numbersAndFlag :
    ∃ epee s s', new (HEADER ++ VERSION :: numbersAndFlag.encode .Object) = .ok epee ∧
      call .entry ⟨epee, []⟩ = some (.ok (.entry .Object 1, s)) ∧ call .drop s = some (.ok (.dropped, s')) ∧
      call .entry s' = some (.ok (.error .EpeeReuse, s')) := by
  obtain ⟨s, hentry, hruns⟩ := entry_yields_once _ _ (new_encode (numbersAndFlag.encode .Object))
  rw [entry_new] at hentry
  cases hentry
  obtain ⟨epee', hskip, -⟩ := skip_balanced (balanced_root (numbersAndFlag.encode .Object))
  have hdrop : call .drop ⟨⟨⟨numbersAndFlag.encode .Object, Stack.rootObject⟩, none⟩, [.entry .Object 1]⟩ =
      some (.ok (.dropped, ⟨epee', []⟩)) := by
    have hskip : skip (Handle.entry .Object 1).len ⟨⟨numbersAndFlag.encode .Object, Stack.rootObject⟩, none⟩ = .ok epee' := hskip
    simp only [call, hskip]
    rfl
  have hrun : Run ⟨⟨⟨numbersAndFlag.encode .Object, Stack.rootObject⟩, none⟩, [.entry .Object 1]⟩ ⟨epee', []⟩ :=
    .call (by rintro ⟨hc, -⟩; cases hc) hdrop (.refl _)
  exact ⟨_, _, _, new_encode _, entry_new _, hdrop, (hruns _ hrun).2 rfl⟩

/-- An object whose only field is a number. After `fields` was called on the number and its iterator dropped, `entry` yields an entry
again. -/
theorem entry_yields_twice :
    (new (HEADER ++ VERSION :: (Item.object .one [.mk [97] .Uint8 none [.int 5]]).encode .Object)).toOption.bind (fun epee =>
        (callAll [.entry, .access .fields, .next, .access .fields,
        .drop, .entry] ⟨epee, []⟩).map fun result => result.map Prod.fst) =
      some (.ok [.entry .Object 1, .iterator, .field [97] .Uint8 1, .error .TypeError, .dropped, .entry .Object 1]) := by
  decide +kernel

end Epee

end MoneroOxide
