import Mathlib.Data.List.Forall2
import Mathlib.Tactic.Common

/-!
# Results of fallible functions

How `Except` computes on results which are known (`ok_bind`, `error_bind`), and how a result which is known to be `ok` is inverted,
one operation at a time (`*_eq_ok`).
-/

namespace Results

variable {ε α β γ : Type}

@[simp]
theorem ok_bind (a : α) (f : α → Except ε β) : ((Except.ok a : Except ε α) >>= f) = f a := rfl

@[simp]
theorem error_bind (e : ε) (f : α → Except ε β) : ((Except.error e : Except ε α) >>= f) = .error e := rfl

@[simp]
theorem pure_eq (a : α) : (pure a : Except ε α) = .ok a := rfl

@[simp]
theorem throw_eq (e : ε) : (throw e : Except ε α) = .error e := rfl

@[simp]
theorem map_ok (f : α → β) (a : α) : f <$> (Except.ok a : Except ε α) = .ok (f a) := rfl

theorem bind_eq_ok {x : Except ε α} {f : α → Except ε β} {b : β} : (x >>= f) = .ok b ↔ ∃ a, x = .ok a ∧ f a = .ok b := by
  cases x with
  | error e => simp
  | ok a => simp

theorem bind_eq_error {x : Except ε α} {f : α → Except ε β} {e : ε} :
    (x >>= f) = .error e ↔ x = .error e ∨ ∃ a, x = .ok a ∧ f a = .error e := by
  cases x with
  | error e => simp
  | ok a => simp

theorem bind_unit_eq_ok {x : Except ε Unit} {f : Unit → Except ε β} {b : β} : (x >>= f) = .ok b ↔ x = .ok () ∧ f () = .ok b := by
  cases x with
  | error e => simp
  | ok u => simp

theorem ite_error_eq_ok {c : Prop} [Decidable c] {e : ε} {x : Except ε α} {a : α} :
    (if c then .error e else x) = .ok a ↔ ¬c ∧ x = .ok a := by
  by_cases h : c <;> simp [h]

/-- A function which succeeds on each element succeeds on the list. -/
theorem mapM_eq_ok {f : α → Except ε β} {as : List α} {bs : List β} :
    as.mapM f = .ok bs ↔ List.Forall₂ (fun a b => f a = .ok b) as bs := by
  induction as generalizing bs with
  | nil =>
    rw [List.mapM_nil, List.forall₂_nil_left_iff]
    exact ⟨fun h => (Except.ok.inj h).symm, fun h => congrArg _ h.symm⟩
  | cons a as ih =>
    simp only [List.mapM_cons, bind_eq_ok, ih, List.forall₂_cons_left_iff, pure_eq, Except.ok.injEq]
    constructor
    · intro h
      obtain ⟨b, hb, rest, hrest, heq⟩ := h
      exact ⟨b, rest, hb, hrest, heq.symm⟩
    · intro h
      obtain ⟨b, rest, hb, hrest, heq⟩ := h
      exact ⟨b, hb, rest, hrest, heq.symm⟩

/-- A function which succeeds on each element succeeds on the list, for `Option`. -/
theorem mapM_eq_some {f : α → Option β} {as : List α} {bs : List β} :
    as.mapM f = some bs ↔ List.Forall₂ (fun a b => f a = some b) as bs := by
  induction as generalizing bs with
  | nil => simp [eq_comm]
  | cons a as ih =>
    simp only [List.mapM_cons, Option.bind_eq_bind, Option.bind_eq_some_iff, Option.pure_def, Option.some.injEq, ih]
    constructor
    · rintro ⟨b, hb, bs', hbs, rfl⟩
      exact .cons hb hbs
    · rintro (_ | ⟨hb, hbs⟩)
      exact ⟨_, hb, _, hbs, rfl⟩

/-- A function fails on a list only with an error of an element. -/
theorem mapM_eq_error {f : α → Except ε β} {as : List α} {e : ε} (h : as.mapM f = .error e) : ∃ a ∈ as, f a = .error e := by
  induction as with
  | nil => cases h
  | cons a as ih =>
    rw [List.mapM_cons] at h
    cases ha : f a with
    | error e' =>
      rw [ha, error_bind] at h
      cases h
      exact ⟨a, List.mem_cons_self, ha⟩
    | ok b =>
      rw [ha, ok_bind] at h
      cases has : as.mapM f with
      | error e' =>
        rw [has, error_bind] at h
        cases h
        obtain ⟨a', hin, herr⟩ := ih has
        exact ⟨a', List.mem_cons_of_mem _ hin, herr⟩
      | ok bs =>
        rw [has, ok_bind] at h
        cases h

/-- A function which returns `g` on each element maps the list by `g`. -/
theorem mapM_ok {f : α → Except ε β} {g : α → β} {as : List α} (h : ∀ a ∈ as, f a = .ok (g a)) : as.mapM f = .ok (as.map g) := by
  rw [mapM_eq_ok, List.forall₂_map_right_iff, List.forall₂_same]
  exact h

theorem forM_eq_ok {f : α → Except ε Unit} {as : List α} : as.forM f = .ok () ↔ ∀ a ∈ as, f a = .ok () := by
  induction as with
  | nil => simp
  | cons a as ih =>
    have hcons : (a :: as).forM f = (f a >>= fun _ => as.forM f) := rfl
    rw [hcons, bind_unit_eq_ok, List.forall_mem_cons, ih]

end Results
