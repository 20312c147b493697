import MoneroOxide.BlocksBin
import MoneroOxide.Lemmas.Epee

/-!
# Walks over any answer

No walk panics, whatever the bytes of the answer: the entries and iterators a call is made on are the ones alive, and a loop over an
iterator ends with it. `Standing` is where a walk stands between two calls; each function has one statement of where it starts and where
it leaves. The bytes left are counted, as they bound how many blocks an answer can have.
-/

namespace MoneroOxide

namespace Epee

/-! ## Calls and the bytes left -/

/-- The step takes at least `m` bytes when it returns, and adds none when it fails. -/
def Shrinks {α : Type} (m : ℕ) (x : Step α) : Prop :=
  ∀ d, Call.Meets (fun _ d' => d'.encoding.length + m ≤ d.encoding.length)
    (fun _ d' => d'.encoding.length ≤ d.encoding.length) (x d)

theorem Shrinks.mono {α : Type} {m n : ℕ} {x : Step α} (h : Shrinks m x) (hle : n ≤ m) : Shrinks n x := by
  intro d
  refine (h d).imp (fun _ d' hlen => ?_) fun _ _ he => he
  omega

theorem Shrinks.pure {α : Type} (a : α) : Shrinks 0 (pure a : Step α) := fun d => le_refl d.encoding.length

theorem Shrinks.bind {α β : Type} {m n : ℕ} {x : Step α} {f : α → Step β} (hx : Shrinks m x) (hf : ∀ a, Shrinks n (f a)) :
    Shrinks (m + n) (x >>= f) := by
  intro d
  refine Call.Meets.bind (P := fun _ d' => d'.encoding.length + m ≤ d.encoding.length) (hx d) fun a d₁ hd₁ => ?_
  refine (hf a d₁).imp (fun _ d' hlen => ?_) fun _ d' hlen => ?_
  · omega
  · omega

theorem shrinks_onEncoding {α : Type} {m : ℕ} {r : Bytewise α} (h : Consumes m r) : Shrinks m (onEncoding r) := by
  intro d
  have hr := h d.encoding
  unfold onEncoding
  cases hread : r d.encoding with
  | ok a rest =>
    rw [hread] at hr
    exact hr
  | error e rest =>
    rw [hread] at hr
    exact hr.2

theorem shrinks_popStack : Shrinks 0 popStack := by
  intro d
  unfold popStack
  cases d.stack.pop with
  | ok popped => exact le_refl _
  | error e => exact le_refl _

theorem shrinks_pushStack (kind : TypeOrEntry) (amount : ℕ) : Shrinks 0 (pushStack kind amount) := by
  intro d
  unfold pushStack
  cases d.stack.push kind amount with
  | ok stack => exact le_refl _
  | error e => exact le_refl _

theorem shrinks_usizeTryFrom (n : ℕ) : Shrinks 0 (usizeTryFrom n) := by
  intro d
  unfold usizeTryFrom
  split
  · exact le_refl _
  · exact le_refl d.encoding.length

theorem shrinks_stepInto (kind : TypeOrEntry) : Shrinks 0 (stepInto kind) := by
  cases kind with
  | Entry =>
    refine ((shrinks_onEncoding consumes_readKey).bind fun key => (shrinks_onEncoding consumes_kindRead).bind fun read => ?_).mono
      (Nat.zero_le (1 + (1 + 0)))
    exact (shrinks_usizeTryFrom _).bind fun len => (shrinks_pushStack _ _).bind fun _ => Shrinks.pure _
  | OfType kind =>
    have hbytes : ∀ n, Shrinks 0 (onEncoding (readBytes n) >>= fun _ => pure SingleStepResult.Unit) := fun n =>
      ((shrinks_onEncoding (consumes_readBytes n)).bind fun _ => Shrinks.pure _).mono (Nat.zero_le _)
    cases kind with
    | String => exact ((shrinks_onEncoding consumes_readStr).bind fun _ => Shrinks.pure _).mono (Nat.zero_le _)
    | Object =>
      refine ((shrinks_onEncoding consumes_readUsize).bind fun fields => ?_).mono (Nat.zero_le (1 + 0))
      exact (shrinks_pushStack _ _).bind fun _ => Shrinks.pure _
    | _ => exact hbytes _

theorem shrinks_singleStep : Shrinks 0 singleStep := by
  refine shrinks_popStack.bind (n := 0) fun popped => ?_
  cases popped with
  | none => exact Shrinks.pure none
  | some kind => exact (shrinks_stepInto kind).bind fun _ => Shrinks.pure _

theorem shrinks_stepLoop (stop fuel : ℕ) : Shrinks 0 (stepLoop stop fuel) := by
  induction fuel with
  | zero => exact fun d => le_refl d.encoding.length
  | succ fuel ih =>
    refine shrinks_singleStep.bind (n := 0) fun _ => ?_
    refine Shrinks.bind (x := get) (m := 0) (n := 0) (fun d => le_refl d.encoding.length) fun d => ?_
    split
    · exact ih
    · exact Shrinks.pure ()

theorem shrinks_step : Shrinks 0 step := by
  intro d
  unfold step
  split
  · exact le_refl d.encoding.length
  · exact le_refl d.encoding.length
  · rename_i kind len _
    have hloop := shrinks_stepLoop (stopAtStackDepth d len) (d.encoding.length + 1) d
    split
    · rename_i d' hd'
      rw [hd'] at hloop
      exact hloop
    · rename_i e d' hd'
      rw [hd'] at hloop
      exact hloop

theorem skip_length {len : ℕ} {epee epee' : Epee} (h : skip len epee = .ok epee') :
    epee'.encoding.length ≤ epee.encoding.length := by
  induction len generalizing epee with
  | zero =>
    cases h
    exact le_refl _
  | succ len ih =>
    have hstep := shrinks_step epee.toDecoder
    rw [skip] at h
    split at h
    · cases h
      exact le_refl _
    · split at h
      · rename_i d hd
        rw [hd] at hstep
        exact (ih h).trans hstep
      · rename_i d hd
        rw [hd] at hstep
        exact (ih h).trans hstep
      · cases h

theorem entryRead_length {expected : Kind} {r : Bytewise (List UInt8)} (hr : Consumes 0 r)
    {value : List UInt8 → Response} {epee : Epee}
    {kind : Kind} {len : ℕ} {handles : List Handle} {response : Response} {s : State}
    (h : entryRead expected r value epee kind len handles = .ok (response, s)) :
    s.epee.encoding.length ≤ epee.encoding.length ∧ s.handles = handles ∧
    ((∃ e, response = .error e) ∨ ∃ bytes, response = value bytes) := by
  unfold entryRead at h
  split at h
  · cases hskip : skip len epee with
    | error e =>
      rw [hskip] at h
      cases h
    | ok epee' =>
      rw [hskip] at h
      cases h
      exact ⟨skip_length hskip, rfl, Or.inl ⟨_, rfl⟩⟩
  · have hread := shrinks_popStack.bind (fun _ => shrinks_onEncoding hr) epee.toDecoder
    split at h
    · cases h
      exact ⟨le_refl _, rfl, Or.inl ⟨_, rfl⟩⟩
    · split at h
      · rename_i d hd
        rw [hd] at hread
        cases h
        exact ⟨hread, rfl, Or.inr ⟨_, rfl⟩⟩
      · rename_i d hd
        rw [hd] at hread
        cases h
        exact ⟨hread, rfl, Or.inl ⟨_, rfl⟩⟩
      · cases h

/-- Opening an object takes its entry and a byte. -/
theorem entryFields_length {epee : Epee} {kind : Kind} {len : ℕ} {handles : List Handle}
    (h : Live ⟨epee, .entry kind len :: handles⟩)
    {response : Response} {s : State} (hresult : entryFields epee kind len handles = .ok (response, s))
    (hok : ∀ e, response ≠ .error e) :
    response = .iterator ∧ ∃ n, s.handles = .fields n :: handles ∧ s.epee.encoding.length + 1 ≤ epee.encoding.length := by
  unfold entryFields at hresult
  split at hresult
  · cases hresult
    exact absurd rfl (hok _)
  · rename_i herror
    split at hresult
    · cases hresult
      exact absurd rfl (hok _)
    · rename_i hc
      obtain ⟨-, rfl⟩ : kind = .Object ∧ len = 1 := by simpa using hc
      obtain ⟨frames, hstack, hitems⟩ := h
      have hle := hitems herror
      rw [total_cons, Handle.len] at hle
      obtain ⟨top, n, base, rfl⟩ := exists_pushFrame_of_items_pos (by omega : 0 < items frames)
      have hmeets := singleStep_meets hstack
      split at hresult
      · rename_i fields d hd
        rw [hd] at hmeets
        cases hresult
        obtain ⟨r, -, hleft⟩ := hmeets
        exact ⟨rfl, fields, rfl, hleft.encoding⟩
      · cases hresult
        exact absurd rfl (hok _)
      · cases hresult
        exact absurd rfl (hok _)
      · cases hresult

/-- What the next field of an object is. -/
theorem fieldsNext_length {epee : Epee} {len : ℕ} {handles : List Handle} {response : Response} {s : State}
    (h : fieldsNext epee len handles = .ok (response, s)) (hok : ∀ e, response ≠ .error e) :
    s.epee.encoding.length ≤ epee.encoding.length ∧
    (response = .none ∧ s.handles = .fields len :: handles ∨
      ∃ key kind n left, len = left + 1 ∧ response = .field key kind n ∧ s.handles = .entry kind n :: .fields left :: handles) := by
  unfold fieldsNext at h
  split at h
  · cases h
    exact absurd rfl (hok _)
  · split at h
    · cases h
      exact ⟨le_refl _, Or.inl ⟨rfl, rfl⟩⟩
    · rename_i left
      have hstep := shrinks_singleStep epee.toDecoder
      split at h
      · rename_i key kind n d hd
        rw [hd] at hstep
        cases h
        exact ⟨hstep, Or.inr ⟨key, kind, n, left, rfl, rfl, rfl⟩⟩
      · cases h
        exact absurd rfl (hok _)
      · cases h
        exact absurd rfl (hok _)
      · cases h

end Epee

namespace BinRpc

/-! ## Where a walk stands -/

open Epee (Handle Live)

/-- The exit is no panic. -/
def Exit.NoPanic : Exit → Prop
  | .failed (.panic _) => False
  | _ => True

/-- These entries and iterators are alive, the innermost first, and at most `n` bytes are left. -/
structure Standing (n : ℕ) (handles : List Handle) (s : Epee.State) : Prop where
  live : Live s
  handles_eq : s.handles = handles
  bytes : s.epee.encoding.length ≤ n

theorem Standing.mono {m n : ℕ} {handles : List Handle} {s : Epee.State} (h : Standing m handles s) (hle : m ≤ n) :
    Standing n handles s := { h with bytes := h.bytes.trans hle }

/-- The walk does not panic, and leaves what it returns as stated. -/
def Leaves {α : Type} (Q : α → Epee.State → Prop) (r : EStateM.Result Exit Epee.State α) : Prop :=
  Call.Meets Q (fun e _ => e.NoPanic) r

theorem Leaves.bind {α β : Type} {P : α → Epee.State → Prop} {Q : β → Epee.State → Prop} {x : Walk α} {f : α → Walk β}
    {s : Epee.State}
    (hx : Leaves P (x s)) (hf : ∀ a t, P a t → Leaves Q (f a t)) : Leaves Q ((x >>= f) s) := Call.Meets.bind hx hf

theorem Leaves.imp {α : Type} {P Q : α → Epee.State → Prop} {r : EStateM.Result Exit Epee.State α} (h : Leaves P r)
    (hP : ∀ a s, P a s → Q a s) : Leaves Q r := Call.Meets.imp h hP fun _ _ he => he

/-- A call on what is alive returns, or the walk ends with its error. -/
theorem leaves_ask {c : Epee.Call} {s : Epee.State} {result : Except (Failure Epee.EpeeError) (Epee.Response × Epee.State)} (h : Live s)
    (hcall : Epee.call c s = some result) :
    Leaves (fun r t => result = .ok (r, t) ∧ Live t ∧ ∀ e, r ≠ .error e) (ask c s) := by
  obtain ⟨r, t, rfl, ht⟩ := Epee.call_returns h hcall
  unfold ask
  rw [hcall]
  cases r with
  | error e => exact trivial
  | _ => exact ⟨rfl, ht, nofun⟩

section Calls

variable {n : ℕ} {handle : Handle} {handles : List Handle} {s : Epee.State}

theorem leaves_dropInnermost (h : Standing n (handle :: handles) s) : Leaves (fun _ => Standing n handles) (dropInnermost s) := by
  obtain ⟨epee, _⟩ := s
  obtain ⟨hlive, rfl, hbytes⟩ := h
  refine (leaves_ask hlive rfl).bind fun r t ht => ?_
  obtain ⟨hresult, hlive', -⟩ := ht
  cases hskip : Epee.skip handle.len epee with
  | error e =>
    rw [hskip] at hresult
    cases hresult
  | ok epee' =>
    rw [hskip] at hresult
    cases hresult
    exact ⟨hlive', rfl, (Epee.skip_length hskip).trans hbytes⟩

theorem leaves_iterate {kind : Epee.Kind} {len : ℕ} (h : Standing n (.entry kind len :: handles) s) :
    Leaves (fun _ => Standing n (.array kind len :: handles)) (iterate s) := by
  obtain ⟨epee, _⟩ := s
  obtain ⟨hlive, rfl, hbytes⟩ := h
  refine (leaves_ask hlive rfl).bind fun r t ht => ?_
  obtain ⟨hresult, hlive', hok⟩ := ht
  have hiterate : Epee.entryIterate epee kind len handles = (r, t) := Except.ok.inj hresult
  unfold Epee.entryIterate at hiterate
  split at hiterate
  · cases hiterate
    exact absurd rfl (hok _)
  · cases hiterate
    exact ⟨hlive', rfl, hbytes⟩

theorem leaves_fields {kind : Epee.Kind} {len : ℕ} (h : Standing n (.entry kind len :: handles) s) :
    Leaves (fun _ t => 1 ≤ n ∧ ∃ m, Standing (n - 1) (.fields m :: handles) t) (fields s) := by
  obtain ⟨epee, _⟩ := s
  obtain ⟨hlive, rfl, hbytes⟩ := h
  refine (leaves_ask hlive rfl).bind fun r t ht => ?_
  obtain ⟨hresult, hlive', hok⟩ := ht
  obtain ⟨-, m, hhandles, hlen⟩ := Epee.entryFields_length hlive hresult hok
  have hbytes' : epee.encoding.length ≤ n := hbytes
  exact ⟨by omega, m, hlive', hhandles, by omega⟩

/-- Reading a value takes the entry. -/
theorem leaves_read {accessor : Epee.Accessor} {expected : Epee.Kind} {r : Epee.Bytewise (List UInt8)}
    {value : List UInt8 → Epee.Response}
    (hr : Epee.Consumes 0 r) (haccess : Epee.accessCall accessor = Epee.entryRead expected r value) {kind : Epee.Kind} {len : ℕ}
    (h : Standing n (.entry kind len :: handles) s) :
    Leaves (fun response t => Standing n handles t ∧ (∃ bytes, response = value bytes) ∧ ∀ e, response ≠ .error e)
      (ask (.access accessor) s) := by
  obtain ⟨epee, _⟩ := s
  obtain ⟨hlive, rfl, hbytes⟩ := h
  refine (leaves_ask hlive rfl).imp fun response t ht => ?_
  obtain ⟨hresult, hlive', hok⟩ := ht
  rw [haccess] at hresult
  obtain ⟨hlen, hhandles, hresponse⟩ := Epee.entryRead_length hr hresult
  refine ⟨⟨hlive', hhandles, hlen.trans hbytes⟩, ?_, hok⟩
  rcases hresponse with ⟨e, he⟩ | hvalue
  · exact absurd he (hok e)
  · exact hvalue

theorem consumes_str : Epee.Consumes 0 Epee.readStr := Epee.consumes_readStr.mono (Nat.zero_le 1)

theorem leaves_toStr {kind : Epee.Kind} {len : ℕ} (h : Standing n (.entry kind len :: handles) s) :
    Leaves (fun _ => Standing n handles) (toStr s) := by
  refine (leaves_read consumes_str rfl h).bind fun response t ht => ?_
  obtain ⟨hstanding, ⟨bytes, rfl⟩, -⟩ := ht
  exact hstanding

theorem leaves_toU64 {kind : Epee.Kind} {len : ℕ} (h : Standing n (.entry kind len :: handles) s) :
    Leaves (fun _ => Standing n handles) (toU64 s) := by
  refine (leaves_read ((Epee.consumes_readBytes 8).mono (Nat.zero_le 8)) rfl h).bind fun response t ht => ?_
  obtain ⟨hstanding, ⟨bytes, rfl⟩, -⟩ := ht
  exact hstanding

theorem leaves_epee32 {kind : Epee.Kind} {len : ℕ} (h : Standing n (.entry kind len :: handles) s) :
    Leaves (fun _ => Standing n handles) (epee32 s) := by
  refine (leaves_read consumes_str rfl h).bind fun response t ht => ?_
  obtain ⟨hstanding, ⟨bytes, rfl⟩, hok⟩ := ht
  -- A string of another length was an error.
  by_cases hlen : bytes.length = 32
  · simp only [if_neg (not_not.2 hlen), dif_pos hlen]
    exact hstanding
  · exact absurd (if_pos hlen) (hok _)

theorem leaves_nextField {len : ℕ} (h : Standing n (.fields len :: handles) s) :
    Leaves (fun key t => match key with
      | none => Standing n (.fields len :: handles) t
      | some _ => ∃ kind m left, len = left + 1 ∧ Standing n (.entry kind m :: .fields left :: handles) t) (nextField s) := by
  obtain ⟨epee, _⟩ := s
  obtain ⟨hlive, rfl, hbytes⟩ := h
  refine (leaves_ask hlive rfl).bind fun response t ht => ?_
  obtain ⟨hresult, hlive', hok⟩ := ht
  obtain ⟨hlen, hnext⟩ := Epee.fieldsNext_length hresult hok
  rcases hnext with ⟨rfl, hhandles⟩ | ⟨key, kind, m, left, hleft, rfl, hhandles⟩
  · exact ⟨hlive', hhandles, hlen.trans hbytes⟩
  · exact ⟨kind, m, left, hleft, hlive', hhandles, hlen.trans hbytes⟩

theorem leaves_nextItem {kind : Epee.Kind} {len : ℕ} (h : Standing n (.array kind len :: handles) s) :
    Leaves (fun more t => match more with
      | false => Standing n (.array kind len :: handles) t
      | true => ∃ left, len = left + 1 ∧ Standing n (.entry kind 1 :: .array kind left :: handles) t) (nextItem s) := by
  obtain ⟨epee, _⟩ := s
  obtain ⟨hlive, rfl, hbytes⟩ := h
  refine (leaves_ask hlive rfl).bind fun response t ht => ?_
  obtain ⟨hresult, hlive', hok⟩ := ht
  have hnext : Epee.arrayNext epee kind len handles = (response, t) := Except.ok.inj hresult
  unfold Epee.arrayNext at hnext
  split at hnext
  · cases hnext
    exact absurd rfl (hok _)
  · split at hnext
    · cases hnext
      exact ⟨hlive', rfl, hbytes⟩
    · rename_i left
      cases hnext
      exact ⟨left, rfl, hlive', rfl, hbytes⟩

end Calls

/-! ## Loops -/

/-- The body of a loop takes the entry it is given. What it pays for with the bytes it takes is counted by `cost`. -/
def Takes {α : Type} (cost : α → ℕ) (before : ℕ) (x : Walk α) : Prop :=
  ∀ n kind len handles s, Standing n (.entry kind len :: handles) s →
    Leaves (fun a t => ∃ m, m + cost a ≤ n + before ∧ Standing m handles t) (x s)

theorem leaves_fieldsLoop {β : Type} {cost : β → ℕ} {body : List UInt8 → β → Walk β}
    (hbody : ∀ key acc, Takes cost (cost acc) (body key acc))
    {fuel len : ℕ} (hfuel : len < fuel) (acc : β) {n : ℕ} {handles : List Handle} {s : Epee.State}
    (h : Standing n (.fields len :: handles) s) :
    Leaves (fun a t => ∃ m left, m + cost a ≤ n + cost acc ∧ Standing m (.fields left :: handles) t)
    (fieldsLoop body fuel acc s) := by
  induction fuel generalizing len acc n s with
  | zero => omega
  | succ fuel ih =>
    refine (leaves_nextField h).bind fun key t ht => ?_
    cases key with
    | none => exact ⟨n, len, le_refl _, ht⟩
    | some key =>
      obtain ⟨kind, m, left, rfl, ht⟩ := ht
      refine (hbody key acc n kind m _ t ht).bind fun acc' u hu => ?_
      obtain ⟨n', hcost, hu⟩ := hu
      refine (ih (by omega) acc' hu).imp fun a v hv => ?_
      obtain ⟨m', left', hcost', hv⟩ := hv
      exact ⟨m', left', by omega, hv⟩

theorem leaves_forFields {β : Type} {cost : β → ℕ} {body : List UInt8 → β → Walk β}
    (hbody : ∀ key acc, Takes cost (cost acc) (body key acc))
    (init : β) {n len : ℕ} {handles : List Handle} {s : Epee.State} (h : Standing n (.fields len :: handles) s) :
    Leaves (fun a t => ∃ m left, m + cost a ≤ n + cost init ∧ Standing m (.fields left :: handles) t) (forFields body init s) := by
  have hleft : itemsLeft s = len := by
    unfold itemsLeft
    rw [h.handles_eq]
    rfl
  exact leaves_fieldsLoop hbody (by omega) init h

theorem leaves_itemsLoop {β : Type} {cost : β → ℕ} {body : β → Walk β} (hbody : ∀ acc, Takes cost (cost acc) (body acc))
    {fuel len : ℕ} (hfuel : len < fuel) (acc : β) {n : ℕ} {kind : Epee.Kind} {handles : List Handle} {s : Epee.State}
    (h : Standing n (.array kind len :: handles) s) :
    Leaves (fun a t => ∃ m left, m + cost a ≤ n + cost acc ∧ Standing m (.array kind left :: handles) t)
    (itemsLoop body fuel acc s) := by
  induction fuel generalizing len acc n s with
  | zero => omega
  | succ fuel ih =>
    refine (leaves_nextItem h).bind fun more t ht => ?_
    cases more with
    | false => exact ⟨n, len, le_refl _, ht⟩
    | true =>
      obtain ⟨left, rfl, ht⟩ := ht
      refine (hbody acc n kind 1 _ t ht).bind fun acc' u hu => ?_
      obtain ⟨n', hcost, hu⟩ := hu
      refine (ih (by omega) acc' hu).imp fun a v hv => ?_
      obtain ⟨m', left', hcost', hv⟩ := hv
      exact ⟨m', left', by omega, hv⟩

theorem leaves_forItems {β : Type} {cost : β → ℕ} {body : β → Walk β} (hbody : ∀ acc, Takes cost (cost acc) (body acc)) (init : β)
    {n len : ℕ} {kind : Epee.Kind} {handles : List Handle} {s : Epee.State} (h : Standing n (.array kind len :: handles) s) :
    Leaves (fun a t => ∃ m left, m + cost a ≤ n + cost init ∧ Standing m (.array kind left :: handles) t)
    (forItems body init s) := by
  have hleft : itemsLeft s = len := by
    unfold itemsLeft
    rw [h.handles_eq]
    rfl
  exact leaves_itemsLoop hbody (by omega) init h

theorem leaves_optionalFieldLoop {α : Type} {field : List UInt8} {body : Walk α} {Q : ℕ → α → Epee.State → Prop} {n : ℕ}
    {handles : List Handle}
    (hbody : ∀ kind m left t, Standing n (.entry kind m :: .fields left :: handles) t → Leaves (Q left) (body t)) {fuel len : ℕ}
    (hfuel : len < fuel) {s : Epee.State} (h : Standing n (.fields len :: handles) s) :
    Leaves (fun found t => match found with
      | none => ∃ left, Standing n (.fields left :: handles) t
      | some a => ∃ left, Q left a t) (optionalFieldLoop field body fuel s) := by
  induction fuel generalizing len s with
  | zero => omega
  | succ fuel ih =>
    refine (leaves_nextField h).bind fun key t ht => ?_
    cases key with
    | none => exact ⟨len, ht⟩
    | some key =>
      obtain ⟨kind, m, left, rfl, ht⟩ := ht
      dsimp only
      split
      · refine Leaves.bind (f := fun a => pure (some a)) (hbody kind m left t ht) fun a u hu => ?_
        exact ⟨left, hu⟩
      · exact (leaves_dropInnermost ht).bind fun _ u hu => ih (by omega) hu

theorem leaves_optionalField {α : Type} {field : String} {body : Walk α} {Q : ℕ → α → Epee.State → Prop} {n : ℕ}
    {handles : List Handle}
    (hbody : ∀ kind m left t, Standing n (.entry kind m :: .fields left :: handles) t → Leaves (Q left) (body t)) {len : ℕ}
    {s : Epee.State} (h : Standing n (.fields len :: handles) s) :
    Leaves (fun found t => match found with
      | none => ∃ left, Standing n (.fields left :: handles) t
      | some a => ∃ left, Q left a t) (optionalField field body s) := by
  have hleft : itemsLeft s = len := by
    unfold itemsLeft
    rw [h.handles_eq]
    rfl
  exact leaves_optionalFieldLoop hbody (by omega) h

/-! ## The answer to `get_blocks.bin` -/

/-- Nothing is paid for. -/
def free {α : Type} : α → ℕ := fun _ => 0

theorem leaves_readWhole {α : Type} (read : Read α) (name : String) (encoding : List UInt8) {P : Epee.State → Prop} {s : Epee.State}
    (h : P s) : Leaves (fun _ => P) (readWhole read name encoding s) := by
  unfold readWhole
  cases read encoding with
  | error e rest => exact trivial
  | ok a rest =>
    cases rest with
    | nil => exact h
    | cons b rest => exact trivial

/-- An entry which is not read is dropped. -/
theorem takes_dropInnermost {α : Type} (cost : α → ℕ) (acc : α) :
    Takes cost (cost acc) (dropInnermost >>= fun _ => pure acc) := by
  intro n kind len handles s h
  refine (leaves_dropInnermost h).bind fun _ t ht => ?_
  exact ⟨n, le_refl _, ht⟩

/-- An entry whose value is read. -/
theorem takes_value {α β : Type} {read : Walk β}
    (hread : ∀ {n : ℕ} {handles : List Handle} {s : Epee.State} {kind : Epee.Kind} {len : ℕ},
      Standing n (.entry kind len :: handles) s → Leaves (fun _ => Standing n handles) (read s))
    (result : β → α) : Takes free 0 (read >>= fun value => pure (result value)) := by
  intro n kind len handles s h
  refine (hread h).bind fun value t ht => ?_
  exact ⟨n, le_refl _, ht⟩

/-- An entry whose string is read with a reader of its own. -/
theorem takes_whole {α β : Type} (read : Read β) (name : String) (result : β → α) :
    Takes free 0 (toStr >>= fun encoding => readWhole read name encoding >>= fun value => pure (result value)) := by
  intro n kind len handles s h
  refine (leaves_toStr h).bind fun encoding t ht => ?_
  refine (leaves_readWhole read name encoding ht).bind fun _ u hu => ?_
  exact ⟨n, le_refl _, hu⟩

/-- An entry of an array whose items are read. What they are paid for is a part of the cost before and after. -/
theorem takes_items {α β : Type} {cost : β → ℕ} {body : β → Walk β} (hbody : ∀ acc, Takes cost (cost acc) (body acc)) (init : β)
    {total : α → ℕ} {before : ℕ} {result : β → α} (htotal : ∀ b, total (result b) + cost init = cost b + before) :
    Takes total before (iterate >>= fun _ => forItems body init >>= fun b => dropInnermost >>= fun _ => pure (result b)) := by
  intro n kind len handles s h
  refine (leaves_iterate h).bind fun _ t ht => ?_
  refine (leaves_forItems hbody init ht).bind fun b u hu => ?_
  obtain ⟨m, left, hm, hu⟩ := hu
  refine (leaves_dropInnermost hu).bind fun _ v hv => ?_
  have := htotal b
  exact ⟨m, by omega, hv⟩

theorem takes_transactionField (key : List UInt8) (acc : Option (Transaction Pruned) × Option (Bytes 32)) :
    Takes free 0 (transactionField key acc) := by
  unfold transactionField
  split
  · exact takes_whole _ _ _
  · split
    · exact takes_value leaves_epee32 _
    · exact takes_dropInnermost free acc

theorem leaves_checkPrunableHash (transaction : Transaction Pruned) (prunableHash : Option (Bytes 32)) {P : Epee.State → Prop}
    {s : Epee.State} (h : P s) : Leaves (fun _ => P) (checkPrunableHash transaction prunableHash s) := by
  unfold checkPrunableHash
  split
  · exact trivial
  · cases PrunedTransactionWithPrunableHash.new transaction (prunableHash.filter fun _ => !transaction.isV1) with
    | none => exact trivial
    | some transaction => exact h

theorem takes_transactionItem (transactions : List PrunedTransactionWithPrunableHash) :
    Takes free 0 (transactionItem transactions) := by
  intro n kind len handles s h
  refine (leaves_fields h).bind fun _ t ht => ?_
  obtain ⟨-, m, ht⟩ := ht
  refine (leaves_forFields takes_transactionField _ ht).bind fun read u hu => ?_
  obtain ⟨m', left, hm', hu⟩ := hu
  have hbytes : m' + 0 ≤ n - 1 + 0 := hm'
  obtain ⟨transaction, prunableHash⟩ := read
  cases transaction with
  | none => exact trivial
  | some transaction =>
    refine (leaves_checkPrunableHash _ _ hu).bind fun transaction v hv => ?_
    refine (leaves_dropInnermost hv).bind fun _ w hw => ?_
    refine ⟨m', ?_, hw⟩
    change m' + 0 ≤ n + 0
    omega

theorem takes_blockField (key : List UInt8) (acc : Option Block × List PrunedTransactionWithPrunableHash) :
    Takes free 0 (blockField key acc) := by
  unfold blockField
  split
  · exact takes_whole _ _ _
  · split
    · exact takes_items takes_transactionItem acc.2 fun _ => rfl
    · exact takes_dropInnermost free acc

/-- Each block takes a byte at least, the one its object starts with. -/
theorem takes_blockItem (res : List (Block × List PrunedTransactionWithPrunableHash)) :
    Takes List.length res.length (blockItem res) := by
  intro n kind len handles s h
  refine (leaves_fields h).bind fun _ t ht => ?_
  obtain ⟨hone, m, ht⟩ := ht
  refine (leaves_forFields takes_blockField _ ht).bind fun read u hu => ?_
  obtain ⟨m', left, hm', hu⟩ := hu
  have hbytes : m' + 0 ≤ n - 1 + 0 := hm'
  obtain ⟨block, transactions⟩ := read
  cases block with
  | none => exact trivial
  | some block =>
    refine (leaves_dropInnermost hu).bind fun _ v hv => ?_
    refine ⟨m', ?_, hv⟩
    rw [List.length_append, List.length_singleton]
    omega

theorem takes_indexItem (allOutputIndexes : List UInt64) : Takes free 0 (indexItem allOutputIndexes) :=
  takes_value leaves_toU64 _

theorem takes_indicesItem {body : List UInt64 → Walk (List UInt64)} (hbody : ∀ acc, Takes free 0 (body acc))
    (allOutputIndexes : List UInt64) : Takes free 0 (indicesItem body allOutputIndexes) := by
  intro n kind len handles s h
  refine (leaves_fields h).bind fun _ t ht => ?_
  obtain ⟨-, m, ht⟩ := ht
  have hle : n - 1 ≤ n := Nat.sub_le n 1
  refine (leaves_optionalField
    (Q := fun left _ u => ∃ kind m, Standing n (.array kind m :: .fields left :: handles) u) (fun kind m left u hu => ?_)
    (ht.mono hle)).bind fun found u hu => ?_
  · exact (leaves_iterate hu).imp fun _ v hv => ⟨kind, m, hv⟩
  · cases found with
    | none =>
      obtain ⟨left, hu⟩ := hu
      refine (leaves_dropInnermost hu).bind fun _ v hv => ?_
      exact ⟨n, le_refl _, hv⟩
    | some _ =>
      obtain ⟨left, kind, m, hu⟩ := hu
      refine (leaves_forItems hbody allOutputIndexes hu).bind fun all v hv => ?_
      obtain ⟨m', left', hm', hv⟩ := hv
      refine (leaves_dropInnermost hv).bind fun _ w hw => ?_
      refine (leaves_dropInnermost hw).bind fun _ x hx => ?_
      exact ⟨m', hm', hx⟩

theorem takes_answerField (key : List UInt8) (acc : List (Block × List PrunedTransactionWithPrunableHash) × List UInt64) :
    Takes (fun acc => acc.1.length) acc.1.length (answerField key acc) := by
  unfold answerField
  split
  · exact takes_items takes_blockItem acc.1 fun _ => rfl
  · split
    · exact takes_items (takes_indicesItem (takes_indicesItem takes_indexItem)) acc.2 fun _ => Nat.add_comm _ _
    · exact takes_dropInnermost (fun acc => acc.1.length) acc

/-! ## What an answer decodes to -/

/-- The result is no panic, and if it is a value, as stated. -/
def Ends {ε α : Type} (P : α → Prop) : Except (Failure ε) α → Prop
  | .ok a => P a
  | .error (.error _) => True
  | .error (.panic _) => False

theorem Ends.bind {ε α β : Type} {P : α → Prop} {Q : β → Prop} {x : Except (Failure ε) α} {f : α → Except (Failure ε) β}
    (hx : Ends P x)
    (hf : ∀ a, P a → Ends Q (f a)) : Ends Q (x >>= f) := by
  cases x with
  | ok a => exact hf a hx
  | error e =>
    cases e with
    | error e => exact trivial
    | panic message => exact hx

theorem Ends.imp {ε α : Type} {P Q : α → Prop} {x : Except (Failure ε) α} (h : Ends P x) (hP : ∀ a, P a → Q a) : Ends Q x := by
  cases x with
  | ok a => exact hP a h
  | error e =>
    cases e with
    | error e => exact trivial
    | panic message => exact h

theorem Ends.no_panic {ε α : Type} {P : α → Prop} {x : Except (Failure ε) α} (h : Ends P x) (message : String) :
    x ≠ .error (.panic message) := by
  rintro rfl
  exact h

/-- A walk which does not panic from the root of an object is decoded to what it leaves. -/
theorem ends_decode {α : Type} (encoding : List UInt8) {walk : Walk α} {Q : α → Prop}
    (hwalk : ∀ len s, Standing encoding.length [.fields len] s → Leaves (fun a _ => Q a) (walk s)) :
    Ends (fun a => ∀ value, a = some value → Q value) (decode encoding walk) := by
  unfold decode
  rcases Epee.new_cases encoding with ⟨rest, hok, hlen⟩ | ⟨e, herror⟩
  · rw [hok]
    have hroot : Standing encoding.length [.entry .Object 1] ⟨⟨⟨rest, Epee.Stack.rootObject⟩, none⟩, [.entry .Object 1]⟩ :=
      ⟨⟨_, Epee.Stack.rootObject_is, fun _ => le_refl 1⟩, rfl, hlen⟩
    have hleaves : Leaves (fun a _ => Q a) ((root >>= fun _ => walk) ⟨⟨⟨rest, Epee.Stack.rootObject⟩, none⟩, []⟩) := by
      refine Leaves.bind (P := fun _ t => ∃ len, Standing encoding.length [.fields len] t) ?_ fun _ t ht => ?_
      · change Leaves _ (fields ⟨⟨⟨rest, Epee.Stack.rootObject⟩, none⟩, [.entry .Object 1]⟩)
        refine (leaves_fields hroot).imp fun _ t ht => ?_
        obtain ⟨-, m, ht⟩ := ht
        exact ⟨m, ht.mono (Nat.sub_le _ _)⟩
      · obtain ⟨len, ht⟩ := ht
        exact hwalk len t ht
    dsimp only
    cases hresult : (root >>= fun _ => walk) ⟨⟨⟨rest, Epee.Stack.rootObject⟩, none⟩, []⟩ with
    | ok a t =>
      rw [hresult] at hleaves
      intro value hvalue
      cases hvalue
      exact hleaves
    | error e t =>
      rw [hresult] at hleaves
      cases e with
      | notApplicable => exact nofun
      | failed failure =>
        cases failure with
        | error e => exact trivial
        | panic message => exact hleaves
  · rw [herror]
    exact trivial

theorem ends_checkStatus (epee : List UInt8) : Ends (fun _ => True) (checkStatus epee) := by
  unfold checkStatus
  refine (ends_decode epee (Q := fun _ => True) fun len s h => ?_).bind fun status _ => ?_
  · refine (leaves_optionalField (Q := fun _ _ _ => True) (fun kind m left t ht => ?_) h).bind fun found t _ => ?_
    · exact (leaves_toStr ht).imp fun _ _ _ => trivial
    · cases found with
      | none => exact trivial
      | some status => exact trivial
  · split
    · exact trivial
    · exact trivial

theorem ends_handleTransaction (index : Option UInt64) (allOutputIndexes : List UInt64) (transaction : Transaction Pruned) :
    Ends (fun _ => True) (handleTransaction index allOutputIndexes transaction) := by
  unfold handleTransaction
  dsimp only
  split
  · exact trivial
  · split
    · rename_i hlen houtputs
      cases allOutputIndexes with
      | nil => exact hlen (Nat.pos_of_ne_zero houtputs.2)
      | cons first rest => exact trivial
    · exact trivial

theorem ends_handleTransactions (index : Option UInt64) (allOutputIndexes : List UInt64)
    (transactions : List (Transaction Pruned)) :
    Ends (fun _ => True) (handleTransactions index allOutputIndexes transactions) := by
  induction transactions generalizing index allOutputIndexes with
  | nil => exact trivial
  | cons transaction transactions ih =>
    exact (ends_handleTransaction index allOutputIndexes transaction).bind fun handled _ => ih handled.1 handled.2

theorem ends_handleBlocks (allOutputIndexes : List UInt64) (res : List (Block × List PrunedTransactionWithPrunableHash)) :
    Ends (fun result => result.1.length = res.length) (handleBlocks allOutputIndexes res) := by
  induction res generalizing allOutputIndexes with
  | nil => exact rfl
  | cons entry res ih =>
    obtain ⟨block, transactions⟩ := entry
    refine (ends_handleTransactions none allOutputIndexes (blockTransactions block transactions)).bind fun handled _ => ?_
    refine (ih handled.2).bind fun rest hrest => ?_
    exact congrArg (· + 1) hrest

/-- Whatever the bytes of an answer, decoding it does not panic, and there are no more blocks in it than bytes. -/
theorem ends_extractBlocksFromBlocksBin (blocksBin : List UInt8) :
    Ends (fun read => ∀ blocks, read = some blocks → blocks.length ≤ blocksBin.length) (extractBlocksFromBlocksBin blocksBin) := by
  unfold extractBlocksFromBlocksBin
  refine (ends_decode blocksBin (Q := fun read => read.1.length ≤ blocksBin.length) fun len s h => ?_).bind fun read hread => ?_
  · refine (leaves_forFields takes_answerField ([], []) h).imp fun read t ht => ?_
    obtain ⟨m, left, hm, -⟩ := ht
    have hm' : m + read.1.length ≤ blocksBin.length + 0 := hm
    omega
  · cases read with
    | none => exact nofun
    | some read =>
      obtain ⟨res, allOutputIndexes⟩ := read
      have hlen : res.length ≤ blocksBin.length := hread _ rfl
      refine (ends_handleBlocks allOutputIndexes res).bind fun result hresult => ?_
      split
      · exact trivial
      · intro blocks hblocks
        cases hblocks
        omega

end BinRpc

end MoneroOxide
