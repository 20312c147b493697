import Mathlib.Data.List.Basic
import Mathlib.Tactic.Common

/-!
# Calls on a party with a state of its own

A call `EStateM ε σ α` may change the state of the party it is made to, whether it returns or fails, and a party that answers
differently on each call is one whose answers depend on that state. The lemmas `*_ok` invert a call that returned, one
operation at a time; they are the simp set of this file. `Call.Meets` states what a call does
whether it returns or fails, and composes along `>>=`. `Call.Answers` is what is asked of a party that can be relied on.
-/

namespace Call

variable {ε σ α β : Type}

@[simp]
theorem pure_ok {a b : α} {s t : σ} : (pure a : EStateM ε σ α) s = .ok b t ↔ a = b ∧ s = t := by
  change EStateM.Result.ok a s = EStateM.Result.ok b t ↔ _
  simp

@[simp]
theorem throw_ok {e : ε} {a : α} {s t : σ} : ((throw e : EStateM ε σ α) s = .ok a t) ↔ False := by
  change EStateM.Result.error e s = EStateM.Result.ok a t ↔ _
  simp

@[simp]
theorem bind_ok {x : EStateM ε σ α} {f : α → EStateM ε σ β} {b : β} {s t : σ} :
    (x >>= f) s = .ok b t ↔ ∃ a u, x s = .ok a u ∧ f a u = .ok b t := by
  change EStateM.bind x f s = _ ↔ _
  unfold EStateM.bind
  cases h : x s with
  | ok a u => simp
  | error e u => simp

/-- A call followed by another, when the first returned. -/
theorem bind_of_ok {x : EStateM ε σ α} {f : α → EStateM ε σ β} {a : α} {s t : σ} (h : x s = .ok a t) : (x >>= f) s = f a t := by
  change EStateM.bind x f s = _
  rw [EStateM.bind, h]

/-- A call followed by another, when the first failed. -/
theorem bind_of_error {x : EStateM ε σ α} {f : α → EStateM ε σ β} {e : ε} {s t : σ} (h : x s = .error e t) :
    (x >>= f) s = .error e t := by
  change EStateM.bind x f s = _
  rw [EStateM.bind, h]

/-- What follows is given the state, and made on it. -/
theorem get_bind {f : σ → EStateM ε σ α} {s : σ} : (get >>= f) s = f s s := rfl

/-- What follows is made on the modified state. -/
theorem modify_bind {g : σ → σ} {f : Unit → EStateM ε σ α} {s : σ} : (modify g >>= f) s = f () (g s) := rfl

@[simp]
theorem ite_ok {c : Prop} [Decidable c] {x y : EStateM ε σ α} {a : α} {s t : σ} :
    (if c then x else y) s = .ok a t ↔ (c ∧ x s = .ok a t) ∨ (¬c ∧ y s = .ok a t) := by
  by_cases h : c <;> simp [h]

/-- A call for each element of a list returns as many results. -/
theorem length_of_mapM_ok {f : α → EStateM ε σ β} {as : List α} {bs : List β} {s t : σ} (h : as.mapM f s = .ok bs t) :
    bs.length = as.length := by
  induction as generalizing bs s t with
  | nil =>
    rw [List.mapM_nil] at h
    obtain ⟨rfl, -⟩ := pure_ok.1 h
    rfl
  | cons a as ih =>
    rw [List.mapM_cons] at h
    simp only [bind_ok, pure_ok] at h
    obtain ⟨b, u, -, rest, v, hrest, rfl, -⟩ := h
    rw [List.length_cons, List.length_cons, ih hrest]

/-- Each result of a call for each element of a list is that of a call for the element. -/
theorem forall₂_of_mapM_ok {f : α → EStateM ε σ β} {as : List α} {bs : List β} {s t : σ} (h : as.mapM f s = .ok bs t) :
    List.Forall₂ (fun a b => ∃ u v, f a u = .ok b v) as bs := by
  induction as generalizing bs s t with
  | nil =>
    rw [List.mapM_nil] at h
    obtain ⟨rfl, -⟩ := pure_ok.1 h
    exact .nil
  | cons a as ih =>
    rw [List.mapM_cons] at h
    simp only [bind_ok, pure_ok] at h
    obtain ⟨b, u, hb, rest, v, hrest, rfl, -⟩ := h
    exact .cons ⟨s, u, hb⟩ (ih hrest)

/-- A result that does not depend on the state. -/
def ofExcept : Except ε α → EStateM ε σ α
  | .ok a => pure a
  | .error e => throw e

@[simp]
theorem ofExcept_ok {x : Except ε α} {a : α} {s t : σ} : (ofExcept x : EStateM ε σ α) s = .ok a t ↔ x = .ok a ∧ s = t := by
  cases x with
  | ok b => simp [ofExcept]
  | error e => simp [ofExcept]

/-- The result of a call meets its postconditions: one for what it returned, one for how it failed. -/
def Meets (P : α → σ → Prop) (E : ε → σ → Prop) : EStateM.Result ε σ α → Prop
  | .ok a s => P a s
  | .error e s => E e s

section Meets

variable {P : α → σ → Prop} {Q : β → σ → Prop} {E F : ε → σ → Prop}

theorem Meets.bind {x : EStateM ε σ α} {f : α → EStateM ε σ β} {s : σ} (hx : Meets P E (x s))
    (hf : ∀ a t, P a t → Meets Q E (f a t)) : Meets Q E ((x >>= f) s) := by
  cases h : x s with
  | ok a t =>
    rw [bind_of_ok h]
    rw [h] at hx
    exact hf a t hx
  | error e t =>
    rw [bind_of_error h]
    rw [h] at hx
    exact hx

theorem Meets.imp {P' : α → σ → Prop} {r : EStateM.Result ε σ α} (h : Meets P E r) (hP : ∀ a s, P a s → P' a s)
    (hE : ∀ e s, E e s → F e s) : Meets P' F r := by
  cases r with
  | ok a s => exact hP a s h
  | error e s => exact hE e s h

/-- What a call returned may be used in its postcondition. -/
theorem Meets.and_eq {r : EStateM.Result ε σ α} (h : Meets P E r) : Meets (fun a s => r = .ok a s ∧ P a s) E r := by
  cases r with
  | ok a s => exact ⟨rfl, h⟩
  | error e s => exact h

end Meets

/-- The call returns `a` in every state, whatever state it leaves. -/
def Answers (x : EStateM ε σ α) (a : α) : Prop := ∀ s, ∃ t, x s = .ok a t

theorem Answers.pure (a : α) : Answers (pure a : EStateM ε σ α) a := fun s => ⟨s, rfl⟩

theorem Answers.bind {x : EStateM ε σ α} {f : α → EStateM ε σ β} {a : α} {b : β} (hx : Answers x a) (hf : Answers (f a) b) :
    Answers (x >>= f) b := by
  intro s
  obtain ⟨u, hu⟩ := hx s
  obtain ⟨t, ht⟩ := hf u
  exact ⟨t, bind_ok.2 ⟨a, u, hu, ht⟩⟩

theorem Answers.ofExcept {x : Except ε α} {a : α} (h : x = .ok a) : Answers (ofExcept x : EStateM ε σ α) a := by
  intro s
  exact ⟨s, ofExcept_ok.2 ⟨h, rfl⟩⟩

/-- Calls which each return a result return the list of them. -/
theorem Answers.mapM {f : α → EStateM ε σ β} {as : List α} {bs : List β} (h : List.Forall₂ (fun a b => Answers (f a) b) as bs) :
    Answers (as.mapM f) bs := by
  induction h with
  | nil => exact .pure []
  | cons ha _ ih =>
    rw [List.mapM_cons]
    exact ha.bind (ih.bind (.pure _))

/-- Two answers of one call are equal. -/
theorem Answers.eq {x : EStateM ε σ α} {a b : α} {s t : σ} (h : Answers x a) (hb : x s = .ok b t) : b = a := by
  obtain ⟨u, hu⟩ := h s
  rw [hu] at hb
  cases hb
  rfl

/-! ## What is returned -/

/-- What the call returns, if it does, is as stated. -/
def Returns (Q : α → Prop) (x : EStateM ε σ α) : Prop := ∀ s a t, x s = .ok a t → Q a

namespace Returns

variable {Q : α → Prop} {R : β → Prop}

theorem pure {a : α} (h : Q a) : Returns Q (pure a : EStateM ε σ α) := by
  intro s b t hb
  obtain ⟨rfl, -⟩ := pure_ok.1 hb
  exact h

theorem throw (e : ε) : Returns Q (throw e : EStateM ε σ α) := fun _ _ _ h => (throw_ok.1 h).elim

theorem bind {x : EStateM ε σ α} {f : α → EStateM ε σ β} (hx : Returns Q x) (hf : ∀ a, Q a → Returns R (f a)) :
    Returns R (x >>= f) := by
  intro s b t h
  obtain ⟨a, u, ha, hb⟩ := bind_ok.1 h
  exact hf a (hx s a u ha) u b t hb

/-- A call followed by another, of whose result nothing is known. -/
theorem andThen {x : EStateM ε σ α} {f : α → EStateM ε σ β} (hf : ∀ a, Returns R (f a)) : Returns R (x >>= f) :=
  bind (Q := fun _ => True) (fun _ _ _ _ => trivial) fun a _ => hf a

theorem imp {x : EStateM ε σ α} {Q' : α → Prop} (h : Returns Q x) (himp : ∀ a, Q a → Q' a) : Returns Q' x :=
  fun s a t ha => himp a (h s a t ha)

theorem ite {c : Prop} [Decidable c] {x y : EStateM ε σ α} (hx : c → Returns Q x) (hy : ¬c → Returns Q y) :
    Returns Q (if c then x else y) := by
  by_cases h : c
  · rw [if_pos h]
    exact hx h
  · rw [if_neg h]
    exact hy h

theorem ofExcept {x : Except ε α} (h : ∀ a, x = .ok a → Q a) : Returns Q (ofExcept x : EStateM ε σ α) :=
  fun _ a _ ha => h a (ofExcept_ok.1 ha).1

/-- A call for each element of a list. -/
theorem mapM {f : α → EStateM ε σ β} {as : List α} (h : ∀ a ∈ as, Returns R (f a)) : Returns (fun bs => ∀ b ∈ bs, R b) (as.mapM f) := by
  induction as with
  | nil => exact pure (by simp)
  | cons a as ih =>
    rw [List.mapM_cons]
    refine bind (h a List.mem_cons_self) fun b hb => bind (ih fun a' ha' => h a' (List.mem_cons_of_mem _ ha')) fun bs hbs => ?_
    exact pure (List.forall_mem_cons.2 ⟨hb, hbs⟩)

end Returns

/-- What two calls return, each on a party of its own, is related. -/
def Related {ε' σ' : Type} (R : α → β → Prop) (x : EStateM ε σ α) (y : EStateM ε' σ' β) : Prop :=
  ∀ s a t s' b t', x s = .ok a t → y s' = .ok b t' → R a b

/-- Calls are related by what is known of the result of each. -/
theorem Returns.related {ε' σ' : Type} {Q : α → Prop} {Q' : β → Prop} {R : α → β → Prop} {x : EStateM ε σ α} {y : EStateM ε' σ' β}
    (hx : Returns Q x) (hy : Returns Q' y) (h : ∀ a b, Q a → Q' b → R a b) : Related R x y :=
  fun s a t s' b t' ha hb => h a b (hx s a t ha) (hy s' b t' hb)

end Call
