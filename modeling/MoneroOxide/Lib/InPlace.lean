import Mathlib.Data.List.Basic
import Mathlib.Tactic.Common

/-!
# Loops which work in place

A loop which works in place on a table, with a log of its accesses to the slots of the table. A loop that is `Fresh` reads the table
as it was when the loop started: no slot is read after it was written. A log stays so if what is appended to it reads no slot of
those written before (`fresh_append`).
-/

namespace InPlace

variable {α β : Type}

/-- An access to a slot. -/
inductive Access where
  | read (slot : ℕ)
  | write (slot : ℕ)
  deriving DecidableEq, Repr

/-- A table, and the accesses to it so far. -/
structure Logged (α : Type) where
  table : List α
  accesses : List Access

/-- A computation on a table. -/
abbrev Loop (α β : Type) : Type := StateM (Logged α) β

/-- Read a slot. -/
def read (slot : ℕ) (default : α) : Loop α α := fun s =>
  (s.table.getD slot default, { s with accesses := s.accesses ++ [.read slot] })

/-- Write a slot. -/
def write (slot : ℕ) (value : α) : Loop α Unit := fun s =>
  ((), { table := s.table.set slot value, accesses := s.accesses ++ [.write slot] })

/-- The table a loop ends with. -/
def Loop.table (loop : Loop α β) (table : List α) : List α := (loop { table, accesses := [] }).2.table

/-- The accesses of a loop. -/
def Loop.accesses (loop : Loop α β) (table : List α) : List Access := (loop { table, accesses := [] }).2.accesses

/-- No slot is read after it was written: of two accesses, the later one does not read what the earlier one wrote. -/
def Fresh (accesses : List Access) : Prop :=
  accesses.Pairwise fun earlier later => ∀ slot, earlier = .write slot → later ≠ .read slot

/-- A log may be continued by what does not read the slots written. -/
theorem fresh_append {accesses more : List Access} (h : Fresh accesses) (hmore : Fresh more)
    (hslots : ∀ slot, Access.write slot ∈ accesses → Access.read slot ∉ more) : Fresh (accesses ++ more) := by
  refine List.pairwise_append.2 ⟨h, hmore, ?_⟩
  rintro _ hwrite _ hread slot rfl rfl
  exact hslots slot hwrite hread

end InPlace
