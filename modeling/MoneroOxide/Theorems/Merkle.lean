import MoneroOxide.Lemmas.Instance
import MoneroOxide.Merkle

/-!
# The Merkle root is the tree hash

`merkle_root` reuses the leaves as its scratch space, with one loop for the unbalanced level and for the perfect ones above it.
What it computes is the tree hash of its documentation, which is stated here without either.
-/

namespace MoneroOxide

open PerfectTree

/-- The tree hash. With more than two leaves, `2 ^ k` is the largest power of two below their number: the leaves that are too many
for it are paired off, each with another, and come after those that stay as they are. A perfect tree is over these. -/
def treeHash (pair : Bytes 32 → Bytes 32 → Bytes 32) : List (Bytes 32) → Option (Bytes 32)
  | [] => none
  | [leaf] => some leaf
  | [left, right] => some (pair left right)
  | leaves =>
    let k := (leaves.length - 1).log2
    let unchanged := 2 * 2 ^ k - leaves.length
    root pair k (leaves.take unchanged ++ pairUp pair (leaves.drop unchanged))

/-- The power of two which the next round of the loop reduces the leaves to. -/
def nextPow2 (lowPow2 : ℕ) (leaves : List (Bytes 32)) : ℕ := if leaves.length = lowPow2 then lowPow2 / 2 else lowPow2

/-- The states at the start of the rounds of the loop of `merkle_root`: the power of two, and the leaves which are left. -/
inductive MerkleState (pair : Bytes 32 → Bytes 32 → Bytes 32) (input : List (Bytes 32)) : ℕ → List (Bytes 32) → Prop
  | start : MerkleState pair input (2 ^ input.length.log2) input
  | round {lowPow2 : ℕ} {leaves written : List (Bytes 32)} (hstate : MerkleState pair input lowPow2 leaves)
      (hone : leaves.length ≠ 1)
      (hwritten : pairOff pair (nextPow2 lowPow2 leaves - (leaves.length - nextPow2 lowPow2 leaves))
        (leaves.length - nextPow2 lowPow2 leaves) 0 leaves = some written) :
      MerkleState pair input (nextPow2 lowPow2 leaves) (written.take (nextPow2 lowPow2 leaves))

/-- What makes a round which pairs off `overage` leaves from `start` on safe to be made in place. -/
structure InPlace (pair : Bytes 32 → Bytes 32 → Bytes 32) (leaves : List (Bytes 32)) (lowPow2 : ℕ) : Prop where
  /-- Neither `overage` nor `start` underflows. -/
  lowPow2_lt : lowPow2 < leaves.length
  overage_le : leaves.length - lowPow2 ≤ lowPow2
  /-- When the `i`-th branch is written, its two leaves are within the slice and as they were when the round started. -/
  leaves_kept : ∀ i < leaves.length - lowPow2, ∃ written,
    pairOff pair (lowPow2 - (leaves.length - lowPow2)) i 0 leaves = some written ∧ written.length = leaves.length ∧
      lowPow2 - (leaves.length - lowPow2) + 2 * i + 1 < written.length ∧
      ∀ j, lowPow2 - (leaves.length - lowPow2) + 2 * i ≤ j → written[j]? = leaves[j]?

/-- A round is made in place if the power of two is below the number of leaves, and at least half of it. -/
theorem inPlace_of_lt (pair : Bytes 32 → Bytes 32 → Bytes 32) {leaves : List (Bytes 32)} {lowPow2 : ℕ}
    (hlow : lowPow2 < leaves.length) (hhigh : leaves.length ≤ 2 * lowPow2) : InPlace pair leaves lowPow2 := by
  refine ⟨hlow, by omega, ?_⟩
  intro i hi
  set start := lowPow2 - (leaves.length - lowPow2) with hstart
  refine ⟨_, pairOff_eq pair leaves (show start + 2 * (0 + i) ≤ leaves.length by omega), ?_, ?_, ?_⟩
  · simp only [List.length_append, length_pairUp, List.length_take, List.length_drop]
    omega
  · simp only [List.length_append, length_pairUp, List.length_take, List.length_drop]
    omega
  · intro j hj
    -- The `i` branches end at `start + i`, from where on the slice is as it was.
    have hbranches : (leaves.take (start + 0) ++ pairUp pair ((leaves.drop (start + 2 * 0)).take (2 * i))).length = start + i := by
      simp only [List.length_append, length_pairUp, List.length_take, List.length_drop]
      omega
    rw [← List.append_assoc, List.getElem?_append_right (by omega), hbranches, List.getElem?_drop]
    congr 1
    omega

/-- In each state of the loop, the power of two to reduce to is below the number of leaves and at least half of it. -/
theorem MerkleState.nextPow2_bounds {pair : Bytes 32 → Bytes 32 → Bytes 32} {input leaves : List (Bytes 32)} {lowPow2 : ℕ}
    (h : MerkleState pair input lowPow2 leaves) (hinput : input ≠ []) (hone : leaves.length ≠ 1) :
    nextPow2 lowPow2 leaves < leaves.length ∧ leaves.length ≤ 2 * nextPow2 lowPow2 leaves := by
  -- The invariant of the loop: a power of two, at most the number of leaves and more than half of it.
  have hinv : ∃ k, lowPow2 = 2 ^ k ∧ 2 ^ k ≤ leaves.length ∧ leaves.length < 2 * 2 ^ k := by
    induction h with
    | start =>
      have hpos : input.length ≠ 0 := by simpa using hinput
      refine ⟨input.length.log2, rfl, Nat.log2_self_le hpos, ?_⟩
      rw [← Nat.pow_succ']
      exact Nat.lt_log2_self
    | @round lowPow2 leaves written hstate hone' hwritten ih =>
      obtain ⟨k, rfl, hlow, hhigh⟩ := ih hone'
      have hnext : ∃ j, nextPow2 (2 ^ k) leaves = 2 ^ j ∧ 2 ^ j < leaves.length ∧ leaves.length ≤ 2 * 2 ^ j := by
        unfold nextPow2
        split
        case isTrue h =>
          cases k with
          | zero => exact absurd h hone'
          | succ k =>
            have := Nat.two_pow_pos k
            rw [Nat.pow_succ'] at h ⊢
            exact ⟨k, Nat.mul_div_cancel_left _ Nat.two_pos, by omega, h.le⟩
        case isFalse h => exact ⟨k, rfl, by omega, hhigh.le⟩
      obtain ⟨j, hj, hjlow, hjhigh⟩ := hnext
      rw [hj] at hwritten ⊢
      rw [pairOff_eq pair leaves (by omega)] at hwritten
      obtain rfl := Option.some.inj hwritten
      have hpos := Nat.two_pow_pos j
      refine ⟨j, rfl, ?_, ?_⟩
      all_goals
        simp only [List.length_append, length_pairUp, List.length_take, List.length_drop]
        omega
  obtain ⟨k, rfl, hlow, hhigh⟩ := hinv
  unfold nextPow2
  split
  case isTrue h =>
    cases k with
    | zero => exact absurd h hone
    | succ k =>
      have := Nat.two_pow_pos k
      rw [Nat.pow_succ'] at h ⊢
      omega
  case isFalse h => omega

/-- `merkle_root` is the tree hash of the leaves, and each round of its loop is made in place. That it has a result for all leaves
says that the loop ends. -/
theorem merkleRoot_eq_treeHash (Γ : Ctx) (leaves : List (Bytes 32)) :
    let pair := fun left right : Bytes 32 => Γ.keccak256 (left.toList ++ right.toList)
    (merkleRoot Γ leaves = none ↔ leaves = []) ∧
    merkleRoot Γ leaves = treeHash pair leaves ∧
    ∀ lowPow2 left, MerkleState pair leaves lowPow2 left → leaves ≠ [] → left.length ≠ 1 →
      InPlace pair left (nextPow2 lowPow2 left) := by
  intro pair
  refine ⟨?_, ?_, ?_⟩
  · cases leaves with
    | nil => exact ⟨fun _ => rfl, fun _ => rfl⟩
    | cons leaf leaves =>
      have hsome := isSome_merkleRoot Γ leaf leaves
      constructor
      · intro h
        rw [h] at hsome
        contradiction
      · intro h
        contradiction
  · rcases leaves with _ | ⟨first, _ | ⟨second, _ | ⟨third, leaves⟩⟩⟩
    · rfl
    · rfl
    · rfl
    · obtain ⟨hlow, hhigh⟩ := log2_pred_spec (show 1 < (first :: second :: third :: leaves).length by simp)
      obtain ⟨node, hloop, hroot⟩ := merkleLoop_log2 pair hlow hhigh
      change (merkleLoop pair _ _ _).bind (fun leaves => leaves[0]?) = root pair _ (merkleRound pair _ _)
      rw [hloop, hroot]
      rfl
  · intro lowPow2 left hstate hinput hone
    obtain ⟨hlow, hhigh⟩ := hstate.nextPow2_bounds hinput hone
    exact inPlace_of_lt pair hlow hhigh

/-- The first round over three leaves, which pairs off the last two. -/
theorem inPlace_three_leaves :
    InPlace (fun left right : Bytes 32 => instanceCtx.keccak256 (left.toList ++ right.toList))
      [leBytes 32 1, leBytes 32 2, leBytes 32 3] 2 :=
  (merkleRoot_eq_treeHash instanceCtx [leBytes 32 1, leBytes 32 2, leBytes 32 3]).2.2 2 _ .start (by simp) (by simp)

end MoneroOxide
