import Mathlib.Data.List.Basic
import Mathlib.Tactic.Common
import Mathlib.Tactic.Ring

/-!
# Perfect binary trees

The root of a perfect binary tree is that of its two halves (`root`). `root_succ` says that it may be taken level by level from
the leaves instead, by pairing off neighbours.
-/

namespace PerfectTree

variable {α : Type} (pair : α → α → α)

/-- Neighbours, paired off. -/
def pairUp : List α → List α
  | left :: right :: as => pair left right :: pairUp as
  | _ => []

/-- The root of the perfect tree of depth `k` whose leaves are the first `2 ^ k`. -/
def root : ℕ → List α → Option α
  | 0, as => as.head?
  | k + 1, as => do
    let left ← root k (as.take (2 ^ k))
    let right ← root k (as.drop (2 ^ k))
    some (pair left right)

theorem length_pairUp (as : List α) : (pairUp pair as).length = as.length / 2 := by
  fun_induction pairUp pair as with
  | case1 left right as ih =>
    rw [List.length_cons, List.length_cons, List.length_cons, ih]
    omega
  | case2 as h =>
    rcases as with _ | ⟨left, _ | ⟨right, as⟩⟩
    · simp
    · simp
    · exact absurd rfl (h left right as)

theorem take_pairUp (as : List α) (n : ℕ) : (pairUp pair as).take n = pairUp pair (as.take (2 * n)) := by
  fun_induction pairUp pair as generalizing n with
  | case1 left right as ih =>
    cases n with
    | zero => rfl
    | succ n =>
      rw [List.take_succ_cons, ih, show 2 * (n + 1) = 2 * n + 1 + 1 by ring, List.take_succ_cons, List.take_succ_cons, pairUp]
  | case2 as h =>
    rcases as with _ | ⟨left, _ | ⟨right, as⟩⟩
    · simp [pairUp]
    · rcases n with _ | n <;> simp [pairUp, Nat.mul_succ]
    · exact absurd rfl (h left right as)

theorem drop_pairUp (as : List α) (n : ℕ) : (pairUp pair as).drop n = pairUp pair (as.drop (2 * n)) := by
  fun_induction pairUp pair as generalizing n with
  | case1 left right as ih =>
    cases n with
    | zero => rfl
    | succ n =>
      rw [List.drop_succ_cons, ih, show 2 * (n + 1) = 2 * n + 1 + 1 by ring, List.drop_succ_cons, List.drop_succ_cons]
  | case2 as h =>
    rcases as with _ | ⟨left, _ | ⟨right, as⟩⟩
    · simp [pairUp]
    · rcases n with _ | n <;> simp [pairUp, Nat.mul_succ]
    · exact absurd rfl (h left right as)

/-- The root of a tree is that of the tree of its branches above the leaves. -/
theorem root_succ (k : ℕ) (as : List α) : root pair (k + 1) as = root pair k (pairUp pair as) := by
  induction k generalizing as with
  | zero => rcases as with _ | ⟨left, _ | ⟨right, as⟩⟩ <;> rfl
  | succ k ih =>
    rw [root, ih, ih, root, take_pairUp, drop_pairUp, ← Nat.pow_succ']

end PerfectTree
