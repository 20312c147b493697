import Mathlib.Algebra.BigOperators.Fin
import MoneroOxide.Lemmas.Bulletproofs
import MoneroOxide.Lib.InPlace

/-!
# The table of `challenge_products`

The entry at an index is the product that the bits of the index select. It is computed in place, and the passes of
`challenge_products` are followed here with a log of their accesses: the table is the same (`table_loggedPass`), and no pass reads
a slot which it has written before (`fresh_passAccesses`). The last iteration writes the slot that it reads, after it was read.
-/

namespace MoneroOxide

open InnerProduct InPlace

namespace ChallengeProducts

/-- `slotStep`, with a log of its accesses. -/
def loggedSlotStep (challenge : Scalar × Scalar) (slots : ℕ) : Loop Scalar Unit := do
  write slots ((← read (slots / 2) 0) * challenge.1)
  write (slots - 1) ((← read (slots / 2) 0) * challenge.2)

/-- `pass`, with a log of its accesses. -/
def loggedPass (challenge : Scalar × Scalar) : ℕ → Loop Scalar Unit
  | 0 => pure ()
  | 1 => loggedSlotStep challenge 1
  | slots + 2 => do
    loggedSlotStep challenge (slots + 2)
    loggedPass challenge slots

/-- The loop over the challenges, with the log of each pass. -/
def loggedPasses : List ((Scalar × Scalar) × ℕ) → List Scalar → List Scalar × List (List Access)
  | [], products => (products, [])
  | challenge :: challenges, products =>
    let pass := loggedPass challenge.1 (2 ^ (challenge.2 + 1) - 1)
    let (final, logs) := loggedPasses challenges (pass.table products)
    (final, pass.accesses products :: logs)

/-- `challengeProducts`, with the log of each pass. -/
def loggedChallengeProducts (challenges : List (Scalar × Scalar)) : List Scalar × List (List Access) :=
  let products := List.replicate (2 ^ challenges.length) 1
  match challenges with
  | [] => (products, [])
  | first :: rest => loggedPasses (rest.zipIdx 1) ((products.set 0 first.2).set 1 first.1)

/-- The accesses of an iteration. -/
def slotStepAccesses (slots : ℕ) : List Access := [.read (slots / 2), .write slots, .read (slots / 2), .write (slots - 1)]

/-- The accesses of a pass. -/
def passAccesses : ℕ → List Access
  | 0 => []
  | 1 => slotStepAccesses 1
  | slots + 2 => slotStepAccesses (slots + 2) ++ passAccesses slots

theorem loggedSlotStep_eq (challenge : Scalar × Scalar) (slots : ℕ) (s : Logged Scalar) :
    loggedSlotStep challenge slots s =
      ((), { table := slotStep challenge slots s.table, accesses := s.accesses ++ slotStepAccesses slots }) := by
  have haccesses : s.accesses ++ slotStepAccesses slots =
      s.accesses ++ [Access.read (slots / 2)] ++ [Access.write slots] ++ [Access.read (slots / 2)] ++ [Access.write (slots - 1)] := by
    simp [slotStepAccesses]
  rw [haccesses]
  rfl

/-- A pass with a log leaves the table that the pass leaves. -/
theorem loggedPass_eq (challenge : Scalar × Scalar) (slots : ℕ) (s : Logged Scalar) :
    loggedPass challenge slots s =
      ((), { table := pass challenge slots s.table, accesses := s.accesses ++ passAccesses slots }) := by
  induction slots using Nat.twoStepInduction generalizing s with
  | zero =>
    rw [passAccesses, List.append_nil]
    rfl
  | one => exact loggedSlotStep_eq challenge 1 s
  | more slots ih _ =>
    show loggedPass challenge slots (loggedSlotStep challenge (slots + 2) s).2 = _
    rw [loggedSlotStep_eq, ih, passAccesses, List.append_assoc]
    rfl

theorem table_loggedPass (challenge : Scalar × Scalar) (slots : ℕ) (products : List Scalar) :
    (loggedPass challenge slots).table products = pass challenge slots products := by
  rw [Loop.table, loggedPass_eq]

theorem accesses_loggedPass (challenge : Scalar × Scalar) (slots : ℕ) (products : List Scalar) :
    (loggedPass challenge slots).accesses products = passAccesses slots := by
  rw [Loop.accesses, loggedPass_eq, List.nil_append]

theorem read_mem_slotStepAccesses {slots slot : ℕ} : Access.read slot ∈ slotStepAccesses slots ↔ slot = slots / 2 := by
  simp [slotStepAccesses]

theorem write_mem_slotStepAccesses {slots slot : ℕ} :
    Access.write slot ∈ slotStepAccesses slots ↔ slot = slots ∨ slot = slots - 1 := by
  simp [slotStepAccesses]

theorem passAccesses_succ (m : ℕ) :
    passAccesses (2 * (m + 1) + 1) = slotStepAccesses (2 * (m + 1) + 1) ++ passAccesses (2 * m + 1) := rfl

/-- A pass reads the lower half of its slots. -/
theorem le_of_read_mem_passAccesses {m slot : ℕ} (h : Access.read slot ∈ passAccesses (2 * m + 1)) : slot ≤ m := by
  induction m with
  | zero =>
    rw [passAccesses, read_mem_slotStepAccesses] at h
    omega
  | succ m ih =>
    rw [passAccesses_succ, List.mem_append, read_mem_slotStepAccesses] at h
    rcases h with h | h
    · omega
    · exact (ih h).trans (Nat.le_succ m)

/-- An iteration writes its slots after it read that of the half, or in the case of the last iteration overwrites it last. -/
theorem fresh_slotStepAccesses (m : ℕ) : Fresh (slotStepAccesses (2 * m + 1)) := by
  have hhalf : (2 * m + 1) / 2 ≠ 2 * m + 1 := by omega
  simp [Fresh, slotStepAccesses, hhalf]

/-- The slots that an iteration writes are above those which the later iterations read. -/
theorem fresh_passAccesses (m : ℕ) : Fresh (passAccesses (2 * m + 1)) := by
  induction m with
  | zero => exact fresh_slotStepAccesses 0
  | succ m ih =>
    rw [passAccesses_succ]
    refine fresh_append (fresh_slotStepAccesses (m + 1)) ih fun slot hwrite hread => ?_
    have hle := le_of_read_mem_passAccesses hread
    rcases write_mem_slotStepAccesses.1 hwrite with h | h <;> omega

/-! ## The passes -/

theorem loggedPasses_eq (challenges : List ((Scalar × Scalar) × ℕ)) (products : List Scalar) :
    loggedPasses challenges products =
      (challenges.foldl (fun products challenge => pass challenge.1 (2 ^ (challenge.2 + 1) - 1) products) products,
        challenges.map fun challenge => passAccesses (2 ^ (challenge.2 + 1) - 1)) := by
  induction challenges generalizing products with
  | nil => rfl
  | cons challenge challenges ih =>
    rw [loggedPasses]
    simp only [table_loggedPass, accesses_loggedPass, ih, List.foldl_cons, List.map_cons]

theorem fst_loggedChallengeProducts (challenges : List (Scalar × Scalar)) :
    (loggedChallengeProducts challenges).1 = challengeProducts challenges := by
  cases challenges with
  | nil => rfl
  | cons first rest => exact congrArg Prod.fst (loggedPasses_eq _ _)

theorem fresh_of_mem_loggedChallengeProducts {challenges : List (Scalar × Scalar)} {accesses : List Access}
    (h : accesses ∈ (loggedChallengeProducts challenges).2) : Fresh accesses := by
  cases challenges with
  | nil => cases h
  | cons first rest =>
    rw [loggedChallengeProducts, loggedPasses_eq] at h
    obtain ⟨challenge, -, rfl⟩ := List.mem_map.1 h
    have hslots : 2 ^ (challenge.2 + 1) - 1 = 2 * (2 ^ challenge.2 - 1) + 1 := by
      have := Nat.one_le_two_pow (n := challenge.2)
      rw [Nat.pow_succ]
      omega
    rw [hslots]
    exact fresh_passAccesses _

/-- The product that the bits of an index select, by the places of the challenges. -/
theorem bitProduct_eq_prod (challenges : List (Scalar × Scalar)) (i : ℕ) :
    bitProduct challenges i =
      ∏ j : Fin challenges.length,
        if i.testBit (challenges.length - 1 - j) then (challenges.get j).1 else (challenges.get j).2 := by
  induction challenges with
  | nil => rfl
  | cons challenge challenges ih =>
    have hplace : ∀ j : Fin challenges.length, challenges.length + 1 - 1 - (j.succ : ℕ) = challenges.length - 1 - j := by
      intro j
      rw [Fin.val_succ]
      omega
    have hsucc := Fin.prod_univ_succ fun j : Fin (challenges.length + 1) =>
      if i.testBit (challenges.length + 1 - 1 - j) then ((challenge :: challenges).get j).1 else ((challenge :: challenges).get j).2
    simp only [hplace] at hsucc
    rw [bitProduct, ih]
    exact hsucc.symm

/-- `challenge_products` is the table of the products that the bits of the index select, the first challenge by the highest bit.
None of its passes reads a slot which it has overwritten. -/
theorem challengeProducts_exact (challenges : List (Scalar × Scalar)) :
    (challengeProducts challenges).length = 2 ^ challenges.length ∧
    (∀ i < 2 ^ challenges.length, (challengeProducts challenges)[i]? = some (∏ j : Fin challenges.length,
      if i.testBit (challenges.length - 1 - j) then (challenges.get j).1 else (challenges.get j).2)) ∧
    (loggedChallengeProducts challenges).1 = challengeProducts challenges ∧
    ∀ accesses ∈ (loggedChallengeProducts challenges).2, Fresh accesses := by
  obtain ⟨hlength, hget⟩ := challengeProducts_spec challenges
  refine ⟨hlength, fun i hi => ?_, fst_loggedChallengeProducts challenges,
    fun accesses h => fresh_of_mem_loggedChallengeProducts h⟩
  have hlt : i < (challengeProducts challenges).length := hlength ▸ hi
  rw [← bitProduct_eq_prod, ← hget i hi, List.getD_eq_getElem?_getD, List.getElem?_eq_getElem hlt]
  rfl

end ChallengeProducts

end MoneroOxide
