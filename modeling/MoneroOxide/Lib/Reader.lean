import Mathlib.Data.List.Basic
import Mathlib.Tactic.Common

/-!
# Readers and what it means to read exactly what a writer writes

A reader takes symbols off the front of a list and either returns a value and what is left, or fails. `Reads r V w` is the one
statement proved about each reader: it returns `a` and leaves `rest` exactly when `a` satisfies `V` and the input was `w a`
followed by `rest`. From it follow both directions of a byte-exact codec: what was read is what would be written, and what is
written (for any value that can be read) is read back, whatever follows it.

The lemmas `*_ok` invert a successful run one operation at a time; they are the simp set of this file.
-/

/-- A reader of symbols `σ`, failing with `ε`. The state it leaves behind is kept on failure as well. -/
abbrev Reader (ε σ α : Type) : Type := EStateM ε (List σ) α

namespace Reader

variable {ε σ α β : Type}

@[simp]
theorem pure_ok {a b : α} {s rest : List σ} : (pure a : Reader ε σ α) s = .ok b rest ↔ a = b ∧ s = rest := by
  show EStateM.Result.ok a s = EStateM.Result.ok b rest ↔ _
  simp

@[simp]
theorem throw_ok {e : ε} {a : α} {s rest : List σ} : ((throw e : Reader ε σ α) s = .ok a rest) ↔ False := by
  show EStateM.Result.error e s = EStateM.Result.ok a rest ↔ _
  simp

@[simp]
theorem bind_ok {r : Reader ε σ α} {f : α → Reader ε σ β} {b : β} {s rest : List σ} :
    (r >>= f) s = .ok b rest ↔ ∃ a t, r s = .ok a t ∧ f a t = .ok b rest := by
  show EStateM.bind r f s = _ ↔ _
  unfold EStateM.bind
  cases h : r s with
  | ok a t => simp
  | error e t => simp

@[simp]
theorem map_ok {r : Reader ε σ α} {f : α → β} {b : β} {s rest : List σ} :
    (f <$> r) s = .ok b rest ↔ ∃ a, r s = .ok a rest ∧ f a = b := by
  show EStateM.map f r s = _ ↔ _
  unfold EStateM.map
  cases h : r s with
  | ok a t =>
    constructor
    · intro e
      simp only [EStateM.Result.ok.injEq] at e
      exact ⟨a, by rw [e.2], e.1⟩
    · rintro ⟨a', e, rfl⟩
      simp only [EStateM.Result.ok.injEq] at e
      rw [e.1, e.2]
  | error e t => simp

@[simp]
theorem ite_ok {c : Prop} [Decidable c] {r r' : Reader ε σ α} {a : α} {s rest : List σ} :
    (if c then r else r') s = .ok a rest ↔ (c ∧ r s = .ok a rest) ∨ (¬c ∧ r' s = .ok a rest) := by
  by_cases h : c <;> simp [h]

/-- `r` returns `a` and leaves `rest` exactly when `V a` holds and the input was `w a` followed by `rest`. -/
def Reads (r : Reader ε σ α) (V : α → Prop) (w : α → List σ) : Prop :=
  ∀ s a rest, r s = .ok a rest ↔ V a ∧ s = w a ++ rest

/-- A reader and a writer are byte-exact when what was read is what would be written, and what is written for any value that
was ever read is read back, whatever follows it. -/
def ByteExact (r : Reader ε σ α) (w : α → List σ) : Prop :=
  (∀ s a rest, r s = .ok a rest → w a ++ rest = s) ∧
  ∀ a, (∃ s rest, r s = .ok a rest) → ∀ rest, r (w a ++ rest) = .ok a rest

variable {r : Reader ε σ α} {V : α → Prop} {w : α → List σ}

theorem Reads.iff (h : Reads r V w) {s rest : List σ} {a : α} : r s = .ok a rest ↔ V a ∧ s = w a ++ rest := h s a rest

/-- What a reader returns satisfies its predicate. -/
theorem Reads.valid (h : Reads r V w) {s rest : List σ} {a : α} (e : r s = .ok a rest) : V a :=
  ((h s a rest).1 e).1

/-- What a reader took off the input is what the writer writes for the value it returned. -/
theorem Reads.written (h : Reads r V w) {s rest : List σ} {a : α} (e : r s = .ok a rest) : w a ++ rest = s :=
  ((h s a rest).1 e).2.symm

/-- What the writer writes is read back, whatever follows it. -/
theorem Reads.read_back (h : Reads r V w) {a : α} (ha : V a) (rest : List σ) : r (w a ++ rest) = .ok a rest :=
  (h _ a rest).2 ⟨ha, rfl⟩

/-- What a writer writes for two values that can be read is the start of one string only if they are equal. -/
theorem Reads.append_inj (h : Reads r V w) {a b : α} {s t : List σ} (ha : V a) (hb : V b) (heq : w a ++ s = w b ++ t) :
    a = b ∧ s = t := by
  have hread := h.read_back ha s
  rw [heq, h.read_back hb t, EStateM.Result.ok.injEq] at hread
  exact ⟨hread.1.symm, hread.2.symm⟩

/-- What a writer writes determines the value, among those that can be read. -/
theorem Reads.write_inj (h : Reads r V w) {a b : α} (ha : V a) (hb : V b) (heq : w a = w b) : a = b :=
  (h.append_inj (s := []) (t := []) ha hb (by rw [heq])).1

theorem Reads.byteExact (h : Reads r V w) : ByteExact r w := by
  refine ⟨fun s a rest e => h.written e, ?_⟩
  rintro a ⟨s, rest, e⟩ rest'
  exact h.read_back (h.valid e) rest'

/-- A reader may be given an equivalent predicate and a writer that agrees on it. -/
theorem Reads.congr {V' : α → Prop} {w' : α → List σ} (h : Reads r V w) (hV : ∀ a, V a ↔ V' a)
    (hw : ∀ a, V a → w a = w' a) : Reads r V' w' := by
  intro s a rest
  rw [h s a rest, ← hV a]
  refine and_congr_right fun ha => ?_
  rw [hw a ha]

/-- Reading through a bijection of the values. -/
theorem Reads.map {f : α → β} {g : β → α} {V' : β → Prop} {w' : β → List σ} (h : Reads r V w)
    (hfg : ∀ a b, V a ∧ f a = b ↔ V' b ∧ g b = a) (hw : ∀ b, V' b → w (g b) = w' b) : Reads (f <$> r) V' w' := by
  intro s b rest
  rw [map_ok]
  constructor
  · rintro ⟨a, e, hab⟩
    obtain ⟨ha, rfl⟩ := (h _ _ _).1 e
    obtain ⟨hb, rfl⟩ := (hfg a b).1 ⟨ha, hab⟩
    exact ⟨hb, by rw [hw b hb]⟩
  · rintro ⟨hb, rfl⟩
    obtain ⟨ha, hab⟩ := (hfg (g b) b).2 ⟨hb, rfl⟩
    exact ⟨g b, (h _ _ _).2 ⟨ha, by rw [hw b hb]⟩, hab⟩

/-- Read `n` values with the same reader. -/
def replicate (r : Reader ε σ α) : ℕ → Reader ε σ (List α)
  | 0 => pure []
  | n + 1 => do
    let a ← r
    let as ← replicate r n
    pure (a :: as)

/-- Reading `n` values reads the lists of length `n` of readable values, written one after the other. -/
theorem Reads.replicate (h : Reads r V w) (n : ℕ) :
    Reads (Reader.replicate r n) (fun as => as.length = n ∧ ∀ a ∈ as, V a) (fun as => as.flatMap w) := by
  induction n with
  | zero =>
    intro s as rest
    cases as <;> simp [Reader.replicate]
  | succ n ih =>
    intro s as rest
    simp only [Reader.replicate, bind_ok, pure_ok]
    constructor
    · rintro ⟨a, t, ha, bs, u, hbs, rfl, rfl⟩
      obtain ⟨hva, rfl⟩ := (h _ _ _).1 ha
      obtain ⟨⟨hlen, hvs⟩, rfl⟩ := (ih _ _ _).1 hbs
      simp [hlen, hva]
      exact hvs
    · rintro ⟨⟨hlen, hvs⟩, rfl⟩
      cases as with
      | nil => simp at hlen
      | cons a bs =>
        refine ⟨a, bs.flatMap w ++ rest, (h _ _ _).2 ⟨hvs a (by simp), by simp⟩, bs, rest, ?_, rfl, rfl⟩
        exact (ih _ _ _).2 ⟨⟨by simpa using hlen, fun b hb => hvs b (by simp [hb])⟩, rfl⟩

end Reader
