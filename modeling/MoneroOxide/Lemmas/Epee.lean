import MoneroOxide.Epee
import MoneroOxide.Lib.Call

/-!
# The packed stack is a list of runs, and what a step does to it

`Stack.Is` says that a stack holds a list of runs, the top first; the operations on the stack are then those on the list. A step on
any encoding never panics, keeps a stack which holds a list of runs, and takes a byte or fails; so `step` and the loops of the `Drop`
implementations end.
-/

namespace MoneroOxide

namespace Epee

/-! ## Four bits of a byte -/

theorem Kind.ofDiscriminant_eq_some {n : ℕ} {kind : Kind} : Kind.ofDiscriminant n = some kind ↔ n = kind.discriminant := by
  constructor
  · intro h
    unfold Kind.ofDiscriminant at h
    split at h <;> cases h <;> rfl
  · intro h
    rw [h]
    cases kind <;> rfl

/-- Setting the low four bits leaves the high ones, and setting the high ones leaves the low ones. -/
theorem nibbles_set : ∀ byte < 256, ∀ bits < 16,
    ((byte &&& 0b11110000) ||| bits) % 16 = bits ∧ ((byte &&& 0b11110000) ||| bits) / 16 = byte / 16 ∧
    ((byte &&& 0b1111) ||| bits * 16) % 16 = byte % 16 ∧ ((byte &&& 0b1111) ||| bits * 16) / 16 = bits := by
  decide +kernel

theorem fourBits_lt (kind : TypeOrEntry) : PackedTypes.fourBits kind < 13 := by
  cases kind with
  | Entry => decide
  | OfType kind => cases kind <;> decide

namespace PackedTypes

/-- The four bits of an index. -/
def nibble (types : PackedTypes) (i : Fin MAX_OBJECT_DEPTH) : ℕ := (types (byteOf i)).toNat / 2 ^ (i.val % 2 * 4) % 16

theorem nibble_set_self (types : PackedTypes) (i : Fin MAX_OBJECT_DEPTH) (kind : TypeOrEntry) :
    nibble (types.set i kind) i = fourBits kind := by
  have hbits := fourBits_lt kind
  have hbyte := (types (byteOf i)).toNat_lt
  have hset := nibbles_set _ hbyte _ (show fourBits kind < 16 by omega)
  unfold nibble set
  simp only [Function.update_self, UInt8.toNat_or, UInt8.toNat_and, UInt8.toNat_ofNat']
  rcases Nat.mod_two_eq_zero_or_one i.val with h | h
  · rw [h]
    norm_num
    rw [Nat.mod_eq_of_lt (show fourBits kind < 256 by omega)]
    exact hset.1
  · rw [h]
    norm_num
    rw [Nat.mod_eq_of_lt (show fourBits kind * 16 < 256 by omega), hset.2.2.2]
    omega

theorem nibble_set_of_ne (types : PackedTypes) {i j : Fin MAX_OBJECT_DEPTH} (h : i ≠ j) (kind : TypeOrEntry) :
    nibble (types.set i kind) j = nibble types j := by
  have hbits := fourBits_lt kind
  have hbyte := (types (byteOf i)).toNat_lt
  have hset := nibbles_set _ hbyte _ (show fourBits kind < 16 by omega)
  unfold nibble set
  by_cases hb : byteOf j = byteOf i
  · -- The two indexes share a byte, one in its low bits and one in its high bits.
    have hdiv : j.val / 2 = i.val / 2 := congrArg Fin.val hb
    have hne : i.val ≠ j.val := fun he => h (Fin.ext he)
    rw [hb]
    simp only [Function.update_self, UInt8.toNat_or, UInt8.toNat_and, UInt8.toNat_ofNat']
    rcases Nat.mod_two_eq_zero_or_one i.val with hi | hi
    · have hj : j.val % 2 = 1 := by omega
      rw [hi, hj]
      norm_num
      rw [Nat.mod_eq_of_lt (show fourBits kind < 256 by omega), hset.2.1]
    · have hj : j.val % 2 = 0 := by omega
      rw [hi, hj]
      norm_num
      rw [Nat.mod_eq_of_lt (show fourBits kind * 16 < 256 by omega), hset.2.2.1]
  · simp only [Function.update_of_ne hb]

theorem get_eq (types : PackedTypes) (i : Fin MAX_OBJECT_DEPTH) :
    types.get i = if nibble types i = 0 then .ok .Entry else
      match Kind.ofDiscriminant (nibble types i) with
      | some kind => .ok (.OfType kind)
      | none => .error (.panic "`PackedTypes` was written to with a non-existent `TypeOrEntry`") := rfl

/-- A `TypeOrEntry` is read where its four bits are. -/
theorem get_ok {types : PackedTypes} {i : Fin MAX_OBJECT_DEPTH} {kind : TypeOrEntry} :
    types.get i = .ok kind ↔ nibble types i = fourBits kind := by
  rw [get_eq]
  generalize nibble types i = entry
  by_cases h0 : entry = 0
  · rw [if_pos h0, h0]
    cases kind with
    | Entry => exact ⟨fun _ => rfl, fun _ => rfl⟩
    | OfType kind => cases kind <;> exact ⟨nofun, nofun⟩
  · rw [if_neg h0]
    cases kind with
    | Entry =>
      refine ⟨fun h => ?_, fun h => absurd h h0⟩
      split at h <;> cases h
    | OfType kind =>
      rw [fourBits, ← Kind.ofDiscriminant_eq_some]
      cases Kind.ofDiscriminant entry with
      | none => exact ⟨nofun, nofun⟩
      | some kind' => simp

theorem get_set_self (types : PackedTypes) (i : Fin MAX_OBJECT_DEPTH) (kind : TypeOrEntry) : (types.set i kind).get i = .ok kind :=
  get_ok.2 (nibble_set_self types i kind)

end PackedTypes

/-! ## Runs -/

/-- A run of items to decode: what they are, and how many. -/
abbrev Frame : Type := TypeOrEntry × ℕ+

/-- A run on top of the others, unless it is empty. -/
def pushFrame (kind : TypeOrEntry) (amount : ℕ) (frames : List Frame) : List Frame :=
  if h : 0 < amount then (kind, ⟨amount, h⟩) :: frames else frames

@[simp]
theorem pushFrame_zero (kind : TypeOrEntry) (frames : List Frame) : pushFrame kind 0 frames = frames := rfl

theorem pushFrame_succ (kind : TypeOrEntry) (n : ℕ) (frames : List Frame) :
    pushFrame kind (n + 1) frames = (kind, n.succPNat) :: frames := rfl

theorem cons_eq_pushFrame (kind : TypeOrEntry) (amount : ℕ+) (frames : List Frame) :
    (kind, amount) :: frames = pushFrame kind (amount.natPred + 1) frames := by
  rw [pushFrame_succ, PNat.succPNat_natPred]

theorem length_pushFrame_le (kind : TypeOrEntry) (n : ℕ) (frames : List Frame) :
    (pushFrame kind n frames).length ≤ frames.length + 1 := by
  unfold pushFrame
  split
  · exact le_refl _
  · exact Nat.le_succ _

theorem le_length_pushFrame (kind : TypeOrEntry) (n : ℕ) (frames : List Frame) :
    frames.length ≤ (pushFrame kind n frames).length := by
  unfold pushFrame
  split
  · exact Nat.le_succ _
  · exact le_refl _

namespace Stack

/-- The stack holds the runs in its lowest places. -/
def Holds (stack : Stack) : List Frame → Prop
  | [] => True
  | (kind, amount) :: frames =>
    (∃ h : frames.length < MAX_OBJECT_DEPTH,
      stack.types.get ⟨frames.length, h⟩ = .ok kind ∧ stack.amounts ⟨frames.length, h⟩ = amount) ∧ Holds stack frames

/-- The stack is this list of runs. -/
structure Is (stack : Stack) (frames : List Frame) : Prop where
  depth : stack.depth = frames.length
  holds : stack.Holds frames

variable {stack : Stack} {frames : List Frame}

/-- What is above the runs does not matter to them. -/
theorem Holds.congr {stack' : Stack} (h : stack.Holds frames)
    (hget : ∀ i kind, i.val < frames.length → stack.types.get i = .ok kind → stack'.types.get i = .ok kind)
    (hamounts : ∀ i, i.val < frames.length → stack'.amounts i = stack.amounts i) : stack'.Holds frames := by
  induction frames with
  | nil => trivial
  | cons frame frames ih =>
    obtain ⟨⟨hlt, htype, hamount⟩, hrest⟩ := h
    refine ⟨⟨hlt, hget _ _ (Nat.lt_succ_self _) htype, ?_⟩, ih hrest ?_ ?_⟩
    · rw [hamounts _ (Nat.lt_succ_self _), hamount]
    · intro i kind hi
      exact hget i kind (Nat.lt_succ_of_lt hi)
    · intro i hi
      exact hamounts i (Nat.lt_succ_of_lt hi)

/-- A stack is not deeper than the depth there is room for. -/
theorem Is.length_le (h : stack.Is frames) : frames.length ≤ MAX_OBJECT_DEPTH := by
  cases frames with
  | nil => exact Nat.zero_le _
  | cons frame frames =>
    obtain ⟨⟨hlt, -⟩, -⟩ := h.holds
    exact hlt

theorem rootObject_is : rootObject.Is [(.OfType .Object, 1)] where
  depth := rfl
  holds := ⟨⟨by decide, PackedTypes.get_set_self _ _ _, rfl⟩, trivial⟩

theorem peek_nil (h : stack.Is []) : stack.peek = .ok none := by
  unfold peek
  rw [h.depth]
  rfl

theorem peek_pushFrame {kind : TypeOrEntry} {n : ℕ} (h : stack.Is (pushFrame kind (n + 1) frames)) :
    stack.peek = .ok (some (kind, n.succPNat)) := by
  obtain ⟨⟨hlt, htype, hamount⟩, -⟩ := h.holds
  have hdepth : stack.depth = frames.length + 1 := h.depth
  unfold peek
  rw [hdepth]
  simp only [dif_pos hlt, htype, hamount]
  rfl

theorem pop_nil (h : stack.Is []) : stack.pop = .ok (none, stack) := by
  unfold pop
  rw [h.depth]
  rfl

/-- Popping takes one item off the top run. -/
theorem pop_pushFrame {kind : TypeOrEntry} {n : ℕ} (h : stack.Is (pushFrame kind (n + 1) frames)) :
    ∃ stack', stack.pop = .ok (some kind, stack') ∧ stack'.Is (pushFrame kind n frames) := by
  obtain ⟨⟨hlt, htype, hamount⟩, hrest⟩ := h.holds
  have hdepth : stack.depth = frames.length + 1 := h.depth
  have hn : ((stack.amounts ⟨frames.length, hlt⟩ : ℕ) - 1) = n := by
    rw [hamount]
    exact Nat.succ_sub_one n
  unfold pop
  rw [hdepth]
  simp only [dif_pos hlt, htype]
  cases n with
  | zero =>
    refine ⟨{ stack with depth := frames.length }, ?_, rfl, hrest.congr (fun _ _ _ hget => hget) fun _ _ => rfl⟩
    simp only [bind, Except.bind, hn, lt_irrefl, dite_false]
    rfl
  | succ n =>
    refine ⟨{ stack with amounts := Function.update stack.amounts ⟨frames.length, hlt⟩ n.succPNat
                         depth := frames.length + 1 }, ?_, ?_, ?_, ?_⟩
    · simp only [bind, Except.bind, hn, Nat.succ_pos, dite_true]
      rfl
    · rfl
    · exact ⟨hlt, htype, Function.update_self ..⟩
    · refine hrest.congr (fun _ _ _ hget => hget) fun i hi => ?_
      refine Function.update_of_ne ?_ _ _
      intro he
      rw [he] at hi
      exact absurd hi (lt_irrefl _)

/-- Pushing puts a run on top, if there is room. -/
theorem push_of_lt (h : stack.Is frames) (hlt : frames.length < MAX_OBJECT_DEPTH) (kind : TypeOrEntry) (amount : ℕ) :
    ∃ stack', stack.push kind amount = .ok stack' ∧ stack'.Is (pushFrame kind amount frames) := by
  have hdepth := h.depth
  have hlt' : stack.depth < MAX_OBJECT_DEPTH := by omega
  unfold push pushFrame
  rw [if_neg (by omega)]
  by_cases hamount : 0 < amount
  · rw [dif_pos hamount, dif_pos hamount, dif_pos hlt']
    have hi : (⟨frames.length, hlt⟩ : Fin MAX_OBJECT_DEPTH) = ⟨stack.depth, hlt'⟩ := Fin.ext hdepth.symm
    refine ⟨_, rfl, by rw [List.length_cons, ← hdepth], ⟨hlt, ?_, ?_⟩, ?_⟩
    · rw [hi]
      exact PackedTypes.get_set_self _ _ _
    · rw [hi]
      exact Function.update_self (⟨stack.depth, hlt'⟩ : Fin MAX_OBJECT_DEPTH) _ stack.amounts
    · refine h.holds.congr (fun i kind' hi hget => ?_) fun i hi => ?_
      · rw [PackedTypes.get_ok] at hget ⊢
        rw [← hget]
        refine PackedTypes.nibble_set_of_ne _ ?_ _
        intro he
        rw [← he] at hi
        exact absurd hi (by simp only; omega)
      · refine Function.update_of_ne ?_ _ _
        intro he
        rw [he] at hi
        exact absurd hi (by simp only; omega)
  · rw [dif_neg hamount, dif_neg hamount]
    exact ⟨stack, rfl, h⟩

/-- Pushing fails, with an error, if there is no room. -/
theorem push_of_le (h : stack.Is frames) (hle : MAX_OBJECT_DEPTH ≤ frames.length) (kind : TypeOrEntry) (amount : ℕ) :
    stack.push kind amount = .error (.error .DepthLimitExceeded) := by
  have hdepth := h.depth
  have hlength := h.length_le
  unfold push
  rw [if_pos (by omega)]

end Stack

/-! ## Reads of any encoding -/

/-- The failure is an error, and not a panic. -/
def IsError : Failure EpeeError → Prop
  | .error _ => True
  | .panic _ => False

/-- The read takes at least `m` bytes when it returns, and never panics. -/
def Consumes {α : Type} (m : ℕ) (r : Bytewise α) : Prop :=
  ∀ s, Call.Meets (fun _ rest => rest.length + m ≤ s.length) (fun e rest => IsError e ∧ rest.length ≤ s.length) (r s)

theorem Consumes.pure {α : Type} (a : α) : Consumes 0 (pure a : Bytewise α) := fun s => le_refl s.length

theorem Consumes.throw {α : Type} (m : ℕ) (e : EpeeError) : Consumes m (throw (.error e) : Bytewise α) :=
  fun s => ⟨trivial, le_refl s.length⟩

theorem Consumes.mono {α : Type} {m n : ℕ} {r : Bytewise α} (h : Consumes m r) (hle : n ≤ m) : Consumes n r := by
  intro s
  refine (h s).imp (fun _ rest hlen => ?_) fun _ _ he => he
  omega

theorem Consumes.bind {α β : Type} {m n : ℕ} {r : Bytewise α} {f : α → Bytewise β} (hr : Consumes m r)
    (hf : ∀ a, Consumes n (f a)) :
    Consumes (m + n) (r >>= f) := by
  intro s
  refine Call.Meets.bind ((hr s).imp (fun _ _ h => h) fun _ _ he => he) fun a t hlen => ?_
  refine (hf a t).imp (fun _ u hlen' => ?_) fun e u he => ⟨he.1, ?_⟩
  · omega
  · have := he.2
    omega

theorem consumes_readBytes (n : ℕ) : Consumes n (readBytes n) := by
  intro s
  unfold readBytes
  by_cases h : s.length < n
  · rw [if_pos h]
    exact ⟨trivial, le_refl _⟩
  · rw [if_neg h]
    change (s.drop n).length + n ≤ s.length
    rw [List.length_drop]
    omega

theorem readByte_nil : readByte [] = .error (.error (.Short 1)) [] := rfl

theorem readByte_cons (b : UInt8) (s : List UInt8) : readByte (b :: s) = .ok b s := by
  unfold readByte
  have h : readBytes 1 (b :: s) = .ok [b] s := by
    unfold readBytes
    rw [if_neg (by rw [List.length_cons]; omega)]
    rfl
  exact Call.bind_of_ok h

theorem consumes_readByte : Consumes 1 readByte := by
  intro s
  cases s with
  | nil =>
    rw [readByte_nil]
    exact ⟨trivial, le_refl _⟩
  | cons b s =>
    rw [readByte_cons]
    exact le_refl _

theorem consumes_replicate_readByte (n : ℕ) : Consumes 0 (Reader.replicate readByte n) := by
  induction n with
  | zero => exact Consumes.pure []
  | succ n ih => exact (consumes_readByte.bind fun b => ih.bind fun bs => Consumes.pure (b :: bs)).mono (Nat.zero_le _)

theorem consumes_readVarint : Consumes 1 readVarint :=
  consumes_readByte.bind fun _ => (consumes_replicate_readByte _).bind fun _ => Consumes.pure _

theorem consumes_usizeTryFrom (n : ℕ) : Consumes 0 (usizeTryFrom n) := by
  unfold usizeTryFrom
  split
  · exact Consumes.pure n
  · exact Consumes.throw 0 _

theorem consumes_readUsize : Consumes 1 readUsize := consumes_readVarint.bind consumes_usizeTryFrom

theorem consumes_readStr : Consumes 1 readStr :=
  consumes_readUsize.bind fun len => (consumes_readBytes len).mono (Nat.zero_le len)

theorem consumes_readKey : Consumes 1 readKey := by
  refine consumes_readByte.bind (n := 0) fun len => ?_
  split
  · exact Consumes.throw 0 _
  · exact (consumes_readBytes len.toNat).mono (Nat.zero_le _)

theorem consumes_kindRead : Consumes 1 Kind.read := by
  refine consumes_readByte.bind (n := 0) fun byte => ?_
  dsimp only
  split
  · exact Consumes.throw 0 _
  · split
    · exact (consumes_readVarint.bind fun len => Consumes.pure _).mono (Nat.zero_le _)
    · exact Consumes.pure _

/-! ## A single step on any encoding -/

/-- The decoder left the bytes it was given, less at least `m`, and a stack of these runs. -/
structure Left (m : ℕ) (d : Decoder) (frames : List Frame) (d' : Decoder) : Prop where
  encoding : d'.encoding.length + m ≤ d.encoding.length
  stack : d'.stack.Is frames

/-- A failure which is an error, and left a stack of these runs. -/
def Fails (d : Decoder) (frames : List Frame) (e : Failure EpeeError) (d' : Decoder) : Prop := IsError e ∧ Left 0 d frames d'

theorem Left.refl {d : Decoder} {frames : List Frame} (h : d.stack.Is frames) : Left 0 d frames d := ⟨le_refl _, h⟩

theorem Left.trans {m n : ℕ} {d d' d'' : Decoder} {frames frames' : List Frame} (h : Left m d frames d')
    (h' : Left n d' frames' d'') :
    Left (m + n) d frames' d'' := by
  refine ⟨?_, h'.stack⟩
  have := h.encoding
  have := h'.encoding
  omega

theorem Left.mono {m n : ℕ} {d d' : Decoder} {frames : List Frame} (h : Left m d frames d') (hle : n ≤ m) : Left n d frames d' := by
  refine ⟨?_, h.stack⟩
  have := h.encoding
  omega

theorem onEncoding_meets {α : Type} {m : ℕ} {r : Bytewise α} (hr : Consumes m r) {d : Decoder} {frames : List Frame}
    (h : d.stack.Is frames) : Call.Meets (fun _ => Left m d frames) (Fails d frames) (onEncoding r d) := by
  have hmeets := hr d.encoding
  unfold onEncoding
  generalize r d.encoding = result at hmeets
  cases result with
  | ok a rest => exact ⟨hmeets, h⟩
  | error e rest => exact ⟨hmeets.1, hmeets.2, h⟩

theorem usizeTryFrom_meets (n : ℕ) {d : Decoder} {frames : List Frame} (h : d.stack.Is frames) :
    Call.Meets (fun _ => Left 0 d frames) (Fails d frames) (usizeTryFrom n d) := by
  unfold usizeTryFrom
  split
  · exact Left.refl h
  · exact ⟨trivial, Left.refl h⟩

theorem popStack_nil {d : Decoder} (h : d.stack.Is []) : popStack d = .ok none d := by
  rw [popStack, Stack.pop_nil h]

theorem popStack_pushFrame {d : Decoder} {kind : TypeOrEntry} {n : ℕ} {frames : List Frame}
    (h : d.stack.Is (pushFrame kind (n + 1) frames)) :
    ∃ stack, popStack d = .ok (some kind) { d with stack } ∧ stack.Is (pushFrame kind n frames) := by
  obtain ⟨stack, hpop, hstack⟩ := Stack.pop_pushFrame h
  exact ⟨stack, by rw [popStack, hpop], hstack⟩

theorem pushStack_of_lt {d : Decoder} {frames : List Frame} (h : d.stack.Is frames) (hlt : frames.length < MAX_OBJECT_DEPTH)
    (kind : TypeOrEntry) (amount : ℕ) :
    ∃ stack, pushStack kind amount d = .ok () { d with stack } ∧ stack.Is (pushFrame kind amount frames) := by
  obtain ⟨stack, hpush, hstack⟩ := Stack.push_of_lt h hlt kind amount
  exact ⟨stack, by rw [pushStack, hpush], hstack⟩

theorem pushStack_meets {d : Decoder} {frames : List Frame} (h : d.stack.Is frames) (kind : TypeOrEntry) (amount : ℕ) :
    Call.Meets (fun _ => Left 0 d (pushFrame kind amount frames)) (Fails d frames) (pushStack kind amount d) := by
  by_cases hlt : frames.length < MAX_OBJECT_DEPTH
  · obtain ⟨stack, hpush, hstack⟩ := pushStack_of_lt h hlt kind amount
    rw [hpush]
    exact ⟨le_refl _, hstack⟩
  · rw [pushStack, Stack.push_of_le h (by omega)]
    exact ⟨trivial, Left.refl h⟩

/-- The runs a single step leaves: what it pushed, above those it left of the runs it was given. -/
def SingleStepResult.above : SingleStepResult → List Frame → List Frame
  | .Object fields, frames => pushFrame .Entry fields frames
  | .Entry _ kind len, frames => pushFrame (.OfType kind) len frames
  | .Unit, frames => frames

theorem exists_above_eq_append (result : SingleStepResult) (frames : List Frame) :
    ∃ upper, result.above frames = upper ++ frames := by
  have hpush : ∀ kind n, ∃ upper, pushFrame kind n frames = upper ++ frames := by
    intro kind n
    unfold pushFrame
    split
    · exact ⟨[_], rfl⟩
    · exact ⟨[], rfl⟩
  cases result with
  | Object fields => exact hpush .Entry fields
  | Entry key kind len => exact hpush (.OfType kind) len
  | Unit => exact ⟨[], rfl⟩

/-- A failure after the bytes a step has taken so far is a failure of the step. -/
theorem Fails.of_left {m : ℕ} {d d' d'' : Decoder} {frames frames' : List Frame} {e : Failure EpeeError}
    (hleft : Left m d frames d')
    (h : Fails d' frames' e d'') : Fails d frames' e d'' := ⟨h.1, (hleft.trans h.2).mono (Nat.zero_le _)⟩

theorem Kind.size_pos {kind : Kind} (hstring : kind ≠ .String) (hobject : kind ≠ .Object) : 1 ≤ kind.size?.getD 0 := by
  cases kind <;> first | contradiction | decide

/-- A step which reads a value and pushes nothing. -/
theorem unit_meets {α : Type} {r : Bytewise α} (hr : Consumes 1 r) {d : Decoder} {frames : List Frame} (h : d.stack.Is frames) :
    Call.Meets (fun result => Left 1 d (result.above frames)) (Fails d frames)
      ((onEncoding r >>= fun _ => pure SingleStepResult.Unit : Step SingleStepResult) d) :=
  Call.Meets.bind (onEncoding_meets hr h) fun _ _ hleft => hleft

theorem stepInto_meets (kind : TypeOrEntry) {d : Decoder} {frames : List Frame} (h : d.stack.Is frames) :
    Call.Meets (fun result => Left 1 d (result.above frames)) (Fails d frames) (stepInto kind d) := by
  unfold stepInto
  split
  · exact unit_meets consumes_readStr h
  · refine Call.Meets.bind (onEncoding_meets consumes_readUsize h) fun fields d₁ h₁ => ?_
    refine Call.Meets.bind ((pushStack_meets h₁.stack .Entry fields).imp (fun _ _ hleft => h₁.trans hleft) fun _ _ => Fails.of_left h₁) ?_
    intro _ d₂ h₂
    exact h₂
  · refine Call.Meets.bind (onEncoding_meets consumes_readKey h) fun key d₁ h₁ => ?_
    refine Call.Meets.bind ((onEncoding_meets consumes_kindRead h₁.stack).imp (fun _ _ hleft => h₁.trans hleft)
      fun _ _ => Fails.of_left h₁) ?_
    intro ⟨kind, len⟩ d₂ h₂
    refine Call.Meets.bind ((usizeTryFrom_meets len h₂.stack).imp (fun _ _ hleft => h₂.trans hleft) fun _ _ => Fails.of_left h₂) ?_
    intro len d₃ h₃
    refine Call.Meets.bind ((pushStack_meets h₃.stack (.OfType kind) len).imp (fun _ _ hleft => h₃.trans hleft)
      fun _ _ => Fails.of_left h₃) ?_
    intro _ d₄ h₄
    exact h₄.mono (by decide)
  · rename_i kind hstring hobject
    exact unit_meets ((consumes_readBytes _).mono (Kind.size_pos (fun he => hstring (by rw [he])) fun he => hobject (by rw [he]))) h

theorem singleStep_nil {d : Decoder} (h : d.stack.Is []) : singleStep d = .ok none d := Call.bind_of_ok (popStack_nil h)

/-- A single step on a stack with items takes one of them and a byte, and pushes what it says it did; or it fails. -/
theorem singleStep_meets {d : Decoder} {kind : TypeOrEntry} {n : ℕ} {base : List Frame}
    (h : d.stack.Is (pushFrame kind (n + 1) base)) :
    Call.Meets (fun result d' => ∃ r, result = some r ∧ Left 1 d (r.above (pushFrame kind n base)) d')
      (Fails d (pushFrame kind n base)) (singleStep d) := by
  obtain ⟨stack, hpop, hstack⟩ := popStack_pushFrame h
  unfold singleStep
  rw [Call.bind_of_ok hpop]
  have hpopped : Left 0 d (pushFrame kind n base) { d with stack } := ⟨le_refl _, hstack⟩
  refine Call.Meets.bind ((stepInto_meets kind hpopped.stack).imp ?_ fun _ _ => Fails.of_left hpopped)
    fun result d' hleft => ⟨result, rfl, hleft⟩
  intro result d' hleft
  exact (hpopped.trans hleft).mono (by decide)

/-! ## Stepping past an item of any encoding -/

theorem pushFrame_append (kind : TypeOrEntry) (n : ℕ) (upper base : List Frame) :
    pushFrame kind n (upper ++ base) = pushFrame kind n upper ++ base := by
  unfold pushFrame
  split <;> rfl

/-- A failure of a loop, which may have left any runs. -/
def LoopFails (d : Decoder) (e : Failure EpeeError) (d' : Decoder) : Prop := IsError e ∧ ∃ frames, Left 0 d frames d'

theorem stepLoop_next {stop fuel : ℕ} {d d' : Decoder} {result : Option SingleStepResult} (h : singleStep d = .ok result d') :
    stepLoop stop (fuel + 1) d = if d'.stack.depth ≠ stop then stepLoop stop fuel d' else .ok () d' := by
  rw [stepLoop, Call.bind_of_ok h]
  change (if d'.stack.depth ≠ stop then stepLoop stop fuel else pure () : Step Unit) d' = _
  split <;> rfl

/-- The loop of `step` ends when the runs above the ones to stop at are gone, with fuel for the bytes left. No step takes an item from
the runs to stop at, as long as there are runs above. -/
theorem stepLoop_meets {fuel : ℕ} {d : Decoder} {kind : TypeOrEntry} {n : ℕ} {below upper base : List Frame}
    (h : d.stack.Is (pushFrame kind (n + 1) below)) (hbelow : pushFrame kind n below = upper ++ base)
    (hfuel : d.encoding.length < fuel) :
    Call.Meets (fun _ => Left 1 d base) (LoopFails d) (stepLoop base.length fuel d) := by
  induction fuel generalizing d kind n below upper with
  | zero => omega
  | succ fuel ih =>
    have hmeets := singleStep_meets h
    rw [hbelow] at hmeets
    cases hstep : singleStep d with
    | error e d' =>
      rw [hstep] at hmeets
      rw [stepLoop, Call.bind_of_error hstep]
      exact ⟨hmeets.1, _, hmeets.2⟩
    | ok result d' =>
      rw [hstep] at hmeets
      obtain ⟨r, -, hleft⟩ := hmeets
      obtain ⟨upper', hupper'⟩ := exists_above_eq_append r (upper ++ base)
      rw [hupper', ← List.append_assoc] at hleft
      rw [stepLoop_next hstep]
      have hdepth := hleft.stack.depth
      cases hupper : upper' ++ upper with
      | nil =>
        rw [hupper, List.nil_append] at hleft hdepth
        rw [if_neg (not_not.2 hdepth)]
        exact hleft
      | cons frame upper'' =>
        obtain ⟨kind', amount⟩ := frame
        rw [hupper, List.cons_append, cons_eq_pushFrame] at hleft
        rw [hupper, List.length_append, List.length_cons] at hdepth
        have hlen := hleft.encoding
        rw [if_pos (by omega)]
        refine (ih hleft.stack (pushFrame_append _ _ _ _) (by omega)).imp (fun _ d'' hleft' => ?_) fun e d'' he => ⟨he.1, ?_⟩
        · exact (hleft.trans hleft').mono (by decide)
        · obtain ⟨frames, hleft'⟩ := he.2
          exact ⟨frames, (hleft.trans hleft').mono (Nat.zero_le _)⟩

theorem step_nil {d : Decoder} (h : d.stack.Is []) : step d = .ok none d := by
  unfold step
  rw [Stack.peek_nil h]

/-- The depth `step` stops at is that of the runs with one item less on the top one. -/
theorem stopAtStackDepth_eq {d : Decoder} {kind : TypeOrEntry} {n : ℕ} {base : List Frame}
    (h : d.stack.Is (pushFrame kind (n + 1) base)) : stopAtStackDepth d n.succPNat = (pushFrame kind n base).length := by
  have hdepth : d.stack.depth = base.length + 1 := h.depth
  unfold stopAtStackDepth
  rw [hdepth, Nat.succPNat_coe]
  cases n with
  | zero => rfl
  | succ n =>
    rw [if_pos (by omega)]
    rfl

theorem step_eq {d : Decoder} {kind : TypeOrEntry} {n : ℕ} {base : List Frame} (h : d.stack.Is (pushFrame kind (n + 1) base)) :
    step d = match stepLoop (pushFrame kind n base).length (d.encoding.length + 1) d with
      | .ok () d => .ok (some ()) d
      | .error e d => .error e d := by
  have hstop := stopAtStackDepth_eq h
  unfold step
  rw [Stack.peek_pushFrame h]
  dsimp only
  generalize stopAtStackDepth d n.succPNat = depth at hstop ⊢
  subst hstop
  rfl

/-- A `step` on a stack with items takes a byte, and leaves the runs with one item less on the top one; or it fails. -/
theorem step_meets {d : Decoder} {kind : TypeOrEntry} {n : ℕ} {base : List Frame} (h : d.stack.Is (pushFrame kind (n + 1) base)) :
    Call.Meets (fun result d' => result = some () ∧ Left 1 d (pushFrame kind n base) d') (LoopFails d) (step d) := by
  have hbelow : pushFrame kind n base = [] ++ pushFrame kind n base := (List.nil_append _).symm
  have hloop := stepLoop_meets h hbelow (Nat.lt_succ_self _)
  rw [step_eq h]
  generalize stepLoop (pushFrame kind n base).length (d.encoding.length + 1) d = result at hloop
  cases result with
  | ok a d' => exact ⟨rfl, hloop⟩
  | error e d' => exact hloop

/-! ## Calls on any encoding -/

/-- How many items the runs have. -/
def items (frames : List Frame) : ℕ := (frames.map fun frame => (frame.2 : ℕ)).sum

theorem items_pushFrame (kind : TypeOrEntry) (n : ℕ) (frames : List Frame) :
    items (pushFrame kind n frames) = n + items frames := by
  unfold pushFrame
  split
  · exact List.sum_cons
  · omega

/-- How many items a single step pushed. -/
def SingleStepResult.amount : SingleStepResult → ℕ
  | .Object fields => fields
  | .Entry _ _ len => len
  | .Unit => 0

theorem items_above (result : SingleStepResult) (frames : List Frame) :
    items (result.above frames) = result.amount + items frames := by
  cases result with
  | Object fields => exact items_pushFrame .Entry fields frames
  | Entry key kind len => exact items_pushFrame (.OfType kind) len frames
  | Unit => exact (Nat.zero_add _).symm

theorem exists_pushFrame_of_items_pos {frames : List Frame} (h : 0 < items frames) :
    ∃ kind n base, frames = pushFrame kind (n + 1) base := by
  cases frames with
  | nil => exact absurd h (lt_irrefl 0)
  | cons frame base => exact ⟨frame.1, frame.2.natPred, base, cons_eq_pushFrame frame.1 frame.2 base⟩

/-- The stack holds runs, with at least `m` items unless there has been an error. -/
def Holding (m : ℕ) (epee : Epee) : Prop := ∃ frames, epee.stack.Is frames ∧ (epee.error = none → m ≤ items frames)

theorem skip_of_isSome {epee : Epee} (h : epee.error.isSome) (len : ℕ) : skip len epee = .ok epee := by
  cases len with
  | zero => rfl
  | succ len => rw [skip, if_pos h]

theorem skip_succ_of_ok {epee : Epee} {result : Option Unit} {d : Decoder} (herror : epee.error = none)
    (h : step epee.toDecoder = .ok result d) (len : ℕ) : skip (len + 1) epee = skip len ⟨d, none⟩ := by
  rw [skip, herror, if_neg nofun, h]

theorem skip_succ_of_error {epee : Epee} {e : EpeeError} {d : Decoder} (herror : epee.error = none)
    (h : step epee.toDecoder = .error (.error e) d) (len : ℕ) : skip (len + 1) epee = .ok ⟨d, some e⟩ := by
  rw [skip, herror, if_neg nofun, h]
  exact skip_of_isSome rfl len

/-- What an iteration of a `Drop` loop does while there is no error: it takes one of the items and a byte, or it sets the error. -/
theorem step_holding {m : ℕ} {epee : Epee} (h : Holding (m + 1) epee) (herror : epee.error = none) :
    (∃ result d, step epee.toDecoder = .ok result d ∧ Holding m ⟨d, none⟩ ∧ d.encoding.length < epee.encoding.length) ∨
    ∃ e d, step epee.toDecoder = .error (.error e) d ∧ ∀ m, Holding m ⟨d, some e⟩ := by
  obtain ⟨frames, hstack, hitems⟩ := h
  have hle := hitems herror
  obtain ⟨kind, n, base, rfl⟩ := exists_pushFrame_of_items_pos (by omega : 0 < items frames)
  have hmeets := step_meets hstack
  rw [items_pushFrame] at hle
  cases hstep : step epee.toDecoder with
  | ok result d =>
    rw [hstep] at hmeets
    refine Or.inl ⟨result, d, rfl, ⟨_, hmeets.2.stack, fun _ => ?_⟩, hmeets.2.encoding⟩
    rw [items_pushFrame]
    omega
  | error e d =>
    rw [hstep] at hmeets
    obtain ⟨he, frames, hleft⟩ := hmeets
    cases e with
    | panic message => exact he.elim
    | error e => exact Or.inr ⟨e, d, rfl, fun m => ⟨frames, hleft.stack, nofun⟩⟩

/-- A `Drop` loop never panics, and takes no more items than it is to step past. -/
theorem skip_holding {len m : ℕ} {epee : Epee} (h : Holding (m + len) epee) :
    ∃ epee', skip len epee = .ok epee' ∧ Holding m epee' := by
  induction len generalizing epee with
  | zero => exact ⟨epee, rfl, h⟩
  | succ len ih =>
    cases herror : epee.error with
    | some e =>
      obtain ⟨frames, hstack, -⟩ := h
      refine ⟨epee, skip_of_isSome (by rw [herror]; rfl) _, frames, hstack, fun hnone => ?_⟩
      rw [herror] at hnone
      cases hnone
    | none =>
      rcases step_holding (m := m + len) h herror with ⟨result, d, hstep, hholding, -⟩ | ⟨e, d, hstep, hholding⟩
      · rw [skip_succ_of_ok herror hstep]
        exact ih hholding
      · exact ⟨_, skip_succ_of_error herror hstep len, hholding m⟩

/-- A `Drop` loop ends: after no more iterations than there are bytes left and one, it is past all items or there is an error. -/
theorem skip_ends {len : ℕ} {epee : Epee} (h : Holding len epee) :
    ∃ k ≤ len, k ≤ epee.encoding.length + 1 ∧ ∃ epee', skip k epee = .ok epee' ∧ (k = len ∨ epee'.error.isSome) := by
  induction len generalizing epee with
  | zero => exact ⟨0, le_refl 0, Nat.zero_le _, epee, rfl, Or.inl rfl⟩
  | succ len ih =>
    cases herror : epee.error with
    | some e => exact ⟨0, Nat.zero_le _, Nat.zero_le _, epee, rfl, Or.inr (by rw [herror]; rfl)⟩
    | none =>
      rcases step_holding h herror with ⟨result, d, hstep, hholding, hlen⟩ | ⟨e, d, hstep, -⟩
      · obtain ⟨k, hk, hbytes, epee', hok, hend⟩ := ih hholding
        have hbytes' : k ≤ d.encoding.length + 1 := hbytes
        refine ⟨k + 1, by omega, by omega, epee', (skip_succ_of_ok herror hstep k).trans hok, ?_⟩
        rcases hend with hend | hend
        · exact Or.inl (by omega)
        · exact Or.inr hend
      · exact ⟨1, by omega, by omega, ⟨d, some e⟩, skip_succ_of_error herror hstep 0, Or.inr rfl⟩

/-- A single step while there is no error: it takes one of the items, and adds those it says it did. -/
theorem singleStep_holding {m : ℕ} {epee : Epee} (h : Holding (m + 1) epee) (herror : epee.error = none) :
    Call.Meets (fun result d => ∃ r, result = some r ∧ Holding (r.amount + m) ⟨d, none⟩)
      (fun e d => IsError e ∧ Holding m ⟨d, none⟩) (singleStep epee.toDecoder) := by
  obtain ⟨frames, hstack, hitems⟩ := h
  have hle := hitems herror
  obtain ⟨kind, n, base, rfl⟩ := exists_pushFrame_of_items_pos (by omega : 0 < items frames)
  rw [items_pushFrame] at hle
  have hm : m ≤ items (pushFrame kind n base) := by
    rw [items_pushFrame]
    omega
  refine (singleStep_meets hstack).imp (fun result d hr => ?_) fun e d he => ⟨he.1, _, he.2.stack, fun _ => hm⟩
  obtain ⟨r, hresult, hleft⟩ := hr
  refine ⟨r, hresult, _, hleft.stack, fun _ => ?_⟩
  rw [items_above]
  omega

/-- The items which the live handles have yet to be dropped past. -/
def total (handles : List Handle) : ℕ := (handles.map Handle.len).sum

/-- What holds after any calls: the stack holds runs, with the items of all live handles unless there has been an error. -/
def Live (s : State) : Prop := Holding (total s.handles) s.epee

/-- The call returned, and what holds after any calls holds. -/
def Returns (result : Except (Failure EpeeError) (Response × State)) : Prop := ∃ r s, result = .ok (r, s) ∧ Live s

theorem total_cons (handle : Handle) (handles : List Handle) : total (handle :: handles) = handle.len + total handles := rfl

theorem Holding.mono {m n : ℕ} {epee : Epee} (h : Holding m epee) (hle : n ≤ m) : Holding n epee := by
  obtain ⟨frames, hstack, hitems⟩ := h
  exact ⟨frames, hstack, fun herror => hle.trans (hitems herror)⟩

theorem entryCall_returns {epee : Epee} (h : Holding 0 epee) : Returns (.ok (entryCall epee)) := by
  unfold entryCall
  by_cases hc : epee.stack.depth ≠ 1 ∨ epee.error.isSome
  · rw [if_pos hc]
    exact ⟨_, _, rfl, h⟩
  · rw [if_neg hc]
    obtain ⟨frames, hstack, -⟩ := h
    refine ⟨_, _, rfl, frames, hstack, fun _ => ?_⟩
    have hdepth : frames.length = 1 := by
      rw [← hstack.depth]
      by_contra hne
      exact hc (Or.inl hne)
    obtain ⟨frame, rfl⟩ := List.length_eq_one_iff.1 hdepth
    exact frame.2.pos

theorem fieldsNext_returns {epee : Epee} {len : ℕ} {handles : List Handle} (h : Holding (total (.fields len :: handles)) epee) :
    Returns (fieldsNext epee len handles) := by
  unfold fieldsNext
  cases herror : epee.error with
  | some error => exact ⟨_, _, rfl, h⟩
  | none =>
    cases len with
    | zero => exact ⟨_, _, rfl, h⟩
    | succ len =>
      have hholding : Holding (total (.fields len :: handles) + 1) epee := h.mono (by simp only [total_cons, Handle.len]; omega)
      have hmeets := singleStep_holding hholding herror
      dsimp only
      generalize singleStep epee.toDecoder = result at hmeets
      cases result with
      | ok result d =>
        obtain ⟨r, hr, hholding'⟩ := hmeets
        rw [hr]
        cases r with
        | Entry key kind n => exact ⟨_, _, rfl, hholding'⟩
        | Object fields => exact ⟨_, _, rfl, hholding'.mono (Nat.le_add_left _ _)⟩
        | Unit => exact ⟨_, _, rfl, hholding'.mono (Nat.le_add_left _ _)⟩
      | error e d =>
        cases e with
        | panic message => exact hmeets.1.elim
        | error e => exact ⟨_, _, rfl, hmeets.2⟩

theorem arrayNext_returns {epee : Epee} {kind : Kind} {len : ℕ} {handles : List Handle}
    (h : Holding (total (.array kind len :: handles)) epee) : Returns (.ok (arrayNext epee kind len handles)) := by
  unfold arrayNext
  cases herror : epee.error with
  | some error => exact ⟨_, _, rfl, h⟩
  | none =>
    cases len with
    | zero => exact ⟨_, _, rfl, h⟩
    | succ len => exact ⟨_, _, rfl, h.mono (by simp only [total_cons, Handle.len]; omega)⟩

theorem entryFields_returns {epee : Epee} {kind : Kind} {len : ℕ} {handles : List Handle}
    (h : Holding (total (.entry kind len :: handles)) epee) : Returns (entryFields epee kind len handles) := by
  have hrest : Holding (total handles) epee := h.mono (Nat.le_add_left _ _)
  unfold entryFields
  cases herror : epee.error with
  | some error => exact ⟨_, _, rfl, hrest⟩
  | none =>
    dsimp only
    by_cases hc : kind ≠ .Object ∨ len ≠ 1
    · rw [if_pos hc]
      exact ⟨_, _, rfl, hrest⟩
    · rw [if_neg hc]
      have hlen : len = 1 := by
        by_contra hne
        exact hc (Or.inr hne)
      have hholding : Holding (total handles + 1) epee := h.mono (by simp only [total_cons, Handle.len]; omega)
      have hmeets := singleStep_holding hholding herror
      generalize singleStep epee.toDecoder = result at hmeets
      cases result with
      | ok result d =>
        obtain ⟨r, hr, hholding'⟩ := hmeets
        rw [hr]
        cases r with
        | Object fields => exact ⟨_, _, rfl, hholding'⟩
        | Entry key kind n => exact ⟨_, _, rfl, hholding'.mono (Nat.le_add_left _ _)⟩
        | Unit => exact ⟨_, _, rfl, hholding'.mono (Nat.le_add_left _ _)⟩
      | error e d =>
        cases e with
        | panic message => exact hmeets.1.elim
        | error e => exact ⟨_, _, rfl, hmeets.2⟩

theorem entryRead_returns {expected : Kind} {r : Bytewise (List UInt8)} (hr : Consumes 0 r)
    {value : List UInt8 → Response} {epee : Epee}
    {kind : Kind} {len : ℕ} {handles : List Handle} (h : Holding (total (.entry kind len :: handles)) epee) :
    Returns (entryRead expected r value epee kind len handles) := by
  rw [total_cons, Handle.len, Nat.add_comm] at h
  unfold entryRead
  by_cases hc : kind ≠ expected ∨ len ≠ 1
  · rw [if_pos hc]
    obtain ⟨epee', hskip, hholding⟩ := skip_holding h
    rw [hskip]
    exact ⟨_, _, rfl, hholding⟩
  · rw [if_neg hc]
    cases herror : epee.error with
    | some error => exact ⟨_, _, rfl, h.mono (Nat.le_add_right _ _)⟩
    | none =>
      have hlen : len = 1 := by
        by_contra hne
        exact hc (Or.inr hne)
      obtain ⟨frames, hstack, hitems⟩ := h
      have hle := hitems herror
      obtain ⟨kind', n, base, rfl⟩ := exists_pushFrame_of_items_pos (by omega : 0 < items frames)
      rw [items_pushFrame] at hle
      have hm : total handles ≤ items (pushFrame kind' n base) := by
        rw [items_pushFrame]
        omega
      obtain ⟨stack, hpop, hstack'⟩ := popStack_pushFrame hstack
      dsimp only
      rw [Call.bind_of_ok hpop]
      have hmeets := onEncoding_meets hr (d := { encoding := epee.encoding, stack }) hstack'
      generalize onEncoding r _ = result at hmeets
      cases result with
      | ok bytes d => exact ⟨_, _, rfl, _, hmeets.stack, fun _ => hm⟩
      | error e d =>
        cases e with
        | panic message => exact hmeets.1.elim
        | error e => exact ⟨_, _, rfl, _, hmeets.2.stack, fun _ => hm⟩

theorem accessCall_returns (accessor : Accessor) {epee : Epee} {kind : Kind} {len : ℕ} {handles : List Handle}
    (h : Holding (total (.entry kind len :: handles)) epee) : Returns (accessCall accessor epee kind len handles) := by
  have hbytes : ∀ n, Consumes 0 (readBytes n) := fun n => (consumes_readBytes n).mono (Nat.zero_le n)
  have hstr : Consumes 0 readStr := consumes_readStr.mono (Nat.zero_le 1)
  cases accessor with
  | fields => exact entryFields_returns h
  | iterate =>
    change Returns (.ok (entryIterate epee kind len handles))
    unfold entryIterate
    cases herror : epee.error with
    | some error => exact ⟨_, _, rfl, h.mono (Nat.le_add_left _ _)⟩
    | none => exact ⟨_, _, rfl, h⟩
  | to_str => exact entryRead_returns hstr h
  | to_fixed_len_str n => exact entryRead_returns hstr h
  | _ => exact entryRead_returns (hbytes _) h

/-- No call panics, whatever the encoding and the calls before. -/
theorem call_returns {c : Call} {s : State} {result : Except (Failure EpeeError) (Response × State)} (h : Live s)
    (hcall : call c s = some result) : Returns result := by
  obtain ⟨epee, handles⟩ := s
  unfold call at hcall
  split at hcall <;> simp only at *
  · cases hcall
    subst_vars
    exact entryCall_returns h
  · cases hcall
    subst_vars
    exact fieldsNext_returns h
  · cases hcall
    subst_vars
    exact arrayNext_returns h
  · cases hcall
    subst_vars
    exact accessCall_returns _ h
  · cases hcall
    subst_vars
    rename_i handle handles
    have h' : Holding (total (handle :: handles)) epee := h
    rw [total_cons, Nat.add_comm] at h'
    obtain ⟨epee', hskip, hholding⟩ := skip_holding h'
    rw [hskip]
    exact ⟨_, _, rfl, hholding⟩
  · cases hcall

/-- A decoder is at the root of what follows the header, or the header is an error. -/
theorem new_cases (encoding : List UInt8) :
    (∃ rest, new encoding = .ok ⟨⟨rest, Stack.rootObject⟩, none⟩ ∧ rest.length ≤ encoding.length) ∨
    ∃ e, new encoding = .error (.error e) := by
  have hheader := consumes_readBytes HEADER.length encoding
  unfold new
  generalize readBytes HEADER.length encoding = result at hheader
  cases result with
  | error e rest =>
    cases e with
    | panic message => exact hheader.1.elim
    | error e => exact Or.inr ⟨e, rfl⟩
  | ok presentHeader rest =>
    dsimp only
    split
    · exact Or.inr ⟨_, rfl⟩
    · have hversion := consumes_readByte rest
      generalize readByte rest = result at hversion
      cases result with
      | error e rest =>
        cases e with
        | panic message => exact hversion.1.elim
        | error e => exact Or.inr ⟨_, rfl⟩
      | ok version rest =>
        dsimp only
        split
        · exact Or.inr ⟨_, rfl⟩
        · exact Or.inl ⟨rest, rfl, (Nat.le_of_add_right_le hversion).trans (Nat.le_of_add_right_le hheader)⟩

end Epee

end MoneroOxide
