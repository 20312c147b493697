import MoneroOxide.Ed25519
import MoneroOxide.Lib.PerfectTree

/-!
# Merkle trees (`src/merkle.rs`)

The Merkle root is taken in place, as in the source. An index out of the range of the leaves would panic, which is a loop
without a result here; `isSome_merkleRoot` says that it does not happen.
-/

namespace MoneroOxide

open PerfectTree

/-- The loop that pairs off leaves, from the `i`-th pair on: the pair is read from its two places and the branch is written to
its new one. -/
def pairOff (pair : Bytes 32 → Bytes 32 → Bytes 32) (start : ℕ) : ℕ → ℕ → List (Bytes 32) → Option (List (Bytes 32))
  | 0, _, leaves => some leaves
  | overage + 1, i, leaves => do
    let left ← leaves[start + 2 * i]?
    let right ← leaves[start + 2 * i + 1]?
    pairOff pair start overage (i + 1) (leaves.set (start + i) (pair left right))

/-- The loop of `merkle_root`, for as many rounds as `fuel`: each reduces the leaves to the next power of two. -/
def merkleLoop (pair : Bytes 32 → Bytes 32 → Bytes 32) : ℕ → ℕ → List (Bytes 32) → Option (List (Bytes 32))
  | 0, _, _ => none
  | fuel + 1, lowPow2, leaves =>
    if leaves.length = 1 then some leaves
    else do
      let lowPow2 := if leaves.length = lowPow2 then lowPow2 / 2 else lowPow2
      let overage := leaves.length - lowPow2
      let start := lowPow2 - overage
      let leaves ← pairOff pair start overage 0 leaves
      merkleLoop pair fuel lowPow2 (leaves.take lowPow2)

/-- `merkle_root`: nothing if the tree is empty, and its root otherwise. -/
def merkleRoot (Γ : Ctx) (leaves : List (Bytes 32)) : Option (Bytes 32) :=
  let pair := fun left right : Bytes 32 => Γ.keccak256 (left.toList ++ right.toList)
  match leaves with
  | [] => none
  | [leaf] => some leaf
  | [left, right] => some (pair left right)
  | _ => do
    let leaves ← merkleLoop pair leaves.length (2 ^ leaves.length.log2) leaves
    leaves[0]?

/-- What pairing off leaves in place leaves behind. The branches are written before the leaves which are still to be read. -/
theorem pairOff_eq (pair : Bytes 32 → Bytes 32 → Bytes 32) {start overage i : ℕ} (leaves : List (Bytes 32))
    (h : start + 2 * (i + overage) ≤ leaves.length) :
    pairOff pair start overage i leaves = some (leaves.take (start + i) ++
      (pairUp pair ((leaves.drop (start + 2 * i)).take (2 * overage)) ++ leaves.drop (start + i + overage))) := by
  induction overage generalizing i leaves with
  | zero => simp [pairOff, pairUp]
  | succ overage ih =>
    have h1 : start + 2 * i < leaves.length := by omega
    have h2 : start + 2 * i + 1 < leaves.length := by omega
    have hi : start + i < leaves.length := by omega
    simp only [pairOff, List.getElem?_eq_getElem h1, List.getElem?_eq_getElem h2, Option.bind_eq_bind, Option.bind_some]
    rw [ih (leaves.set (start + i) (pair leaves[start + 2 * i] leaves[start + 2 * i + 1])) (by rw [List.length_set]; omega)]
    -- What is read next lies after what was written.
    have hread : (leaves.drop (start + 2 * i)).take (2 * (overage + 1)) = leaves[start + 2 * i] :: leaves[start + 2 * i + 1] ::
        (leaves.drop (start + 2 * (i + 1))).take (2 * overage) := by
      rw [List.drop_eq_getElem_cons h1, List.drop_eq_getElem_cons h2, show 2 * (overage + 1) = 2 * overage + 1 + 1 by ring,
        List.take_succ_cons, List.take_succ_cons]
      rfl
    rw [hread, pairUp, List.drop_set_of_lt (by omega), List.drop_set_of_lt (by omega), ← Nat.add_assoc start i 1,
      List.take_succ_eq_append_getElem (by rwa [List.length_set]), List.getElem_set_self, List.take_set_of_le (le_refl _)]
    simp [Nat.add_assoc, Nat.add_comm 1 overage]

/-- A round of the loop: the last leaves are paired off, and the others stay. -/
def merkleRound (pair : Bytes 32 → Bytes 32 → Bytes 32) (k : ℕ) (leaves : List (Bytes 32)) : List (Bytes 32) :=
  leaves.take (2 * 2 ^ k - leaves.length) ++ pairUp pair (leaves.drop (2 * 2 ^ k - leaves.length))

theorem length_merkleRound (pair : Bytes 32 → Bytes 32 → Bytes 32) {k : ℕ} {leaves : List (Bytes 32)} (hlow : 2 ^ k ≤ leaves.length)
    (hhigh : leaves.length ≤ 2 * 2 ^ k) : (merkleRound pair k leaves).length = 2 ^ k := by
  rw [merkleRound, List.length_append, length_pairUp, List.length_take, List.length_drop]
  omega

theorem merkleLoop_succ (pair : Bytes 32 → Bytes 32 → Bytes 32) {fuel lowPow2 k : ℕ} {leaves : List (Bytes 32)}
    (hone : leaves.length ≠ 1) (hnext : (if leaves.length = lowPow2 then lowPow2 / 2 else lowPow2) = 2 ^ k)
    (hlow : 2 ^ k ≤ leaves.length) (hhigh : leaves.length ≤ 2 * 2 ^ k) :
    merkleLoop pair (fuel + 1) lowPow2 leaves = merkleLoop pair fuel (2 ^ k) (merkleRound pair k leaves) := by
  have hstart : 2 ^ k - (leaves.length - 2 ^ k) = 2 * 2 ^ k - leaves.length := by omega
  have hpair := pairOff_eq pair (i := 0) leaves (show 2 * 2 ^ k - leaves.length + 2 * (0 + (leaves.length - 2 ^ k)) ≤ _ by omega)
  rw [merkleLoop, if_neg hone]
  simp only [hnext, hstart, hpair, Option.bind_eq_bind, Option.bind_some]
  -- The leaves after the branches are truncated away.
  congr 1
  rw [← List.append_assoc, List.take_append_of_le_length, List.take_of_length_le]
  · rw [Nat.add_zero, List.take_of_length_le (show (leaves.drop _).length ≤ _ by rw [List.length_drop]; omega), merkleRound]
  · rw [List.length_append, length_pairUp, List.length_take, List.length_take, List.length_drop]
    omega
  · rw [List.length_append, length_pairUp, List.length_take, List.length_take, List.length_drop]
    omega

/-- Leaves which are as many as a power of two are reduced to the root of their perfect tree. -/
theorem merkleLoop_eq_root (pair : Bytes 32 → Bytes 32 → Bytes 32) {fuel k : ℕ} {leaves : List (Bytes 32)} (hfuel : k < fuel)
    (h : leaves.length = 2 ^ k) : ∃ node, merkleLoop pair fuel (2 ^ k) leaves = some [node] ∧ root pair k leaves = some node := by
  induction k generalizing fuel leaves with
  | zero =>
    obtain ⟨fuel, rfl⟩ := Nat.exists_eq_add_of_lt hfuel
    obtain ⟨node, rfl⟩ := List.length_eq_one_iff.1 h
    exact ⟨node, by simp [merkleLoop], rfl⟩
  | succ k ih =>
    obtain ⟨fuel, rfl⟩ := Nat.exists_eq_add_one_of_ne_zero (Nat.ne_zero_of_lt hfuel)
    have hp := Nat.two_pow_pos k
    rw [Nat.pow_succ'] at h ⊢
    have hround : merkleRound pair k leaves = pairUp pair leaves := by
      rw [merkleRound, h, Nat.sub_self, List.take_zero, List.drop_zero, List.nil_append]
    have hlength : (pairUp pair leaves).length = 2 ^ k := by
      rw [length_pairUp, h, Nat.mul_div_cancel_left _ Nat.two_pos]
    obtain ⟨node, hloop, hroot⟩ := ih (by omega : k < fuel) hlength
    refine ⟨node, ?_, by rw [root_succ, hroot]⟩
    rw [merkleLoop_succ pair (k := k) (by omega) (by rw [if_pos h]; omega) (by omega) (by omega), hround, hloop]

/-- With more than one leaf, the loop ends with the root of the perfect tree over the branches of its first round. -/
theorem merkleLoop_log2 (pair : Bytes 32 → Bytes 32 → Bytes 32) {k : ℕ} {leaves : List (Bytes 32)} (hlow : 2 ^ k < leaves.length)
    (hhigh : leaves.length ≤ 2 * 2 ^ k) : ∃ node,
      merkleLoop pair leaves.length (2 ^ leaves.length.log2) leaves = some [node] ∧
        root pair k (merkleRound pair k leaves) = some node := by
  have hp := Nat.two_pow_pos k
  obtain ⟨fuel, hfuel⟩ := Nat.exists_eq_add_one_of_ne_zero (show leaves.length ≠ 0 by omega)
  have hk : k < 2 ^ k := Nat.lt_two_pow_self
  obtain ⟨node, hloop, hroot⟩ := merkleLoop_eq_root pair (show k < fuel by omega) (length_merkleRound pair hlow.le hhigh)
  refine ⟨node, ?_, hroot⟩
  have hnext : (if leaves.length = 2 ^ leaves.length.log2 then 2 ^ leaves.length.log2 / 2 else 2 ^ leaves.length.log2) = 2 ^ k := by
    rcases hhigh.lt_or_eq with hlt | heq
    · have hlog : leaves.length.log2 = k :=
        (Nat.log2_eq_iff (by omega)).2 ⟨hlow.le, by rw [Nat.pow_succ']; exact hlt⟩
      rw [hlog, if_neg (by omega)]
    · rw [heq, ← Nat.pow_succ', Nat.log2_two_pow, if_pos rfl, Nat.pow_succ', Nat.mul_div_cancel_left _ Nat.two_pos]
  calc merkleLoop pair leaves.length (2 ^ leaves.length.log2) leaves
      = merkleLoop pair (fuel + 1) (2 ^ leaves.length.log2) leaves := by rw [← hfuel]
    _ = merkleLoop pair fuel (2 ^ k) (merkleRound pair k leaves) := merkleLoop_succ pair (by omega) hnext hlow.le hhigh
    _ = some [node] := hloop

/-- The largest power of two below a number of leaves. -/
theorem log2_pred_spec {n : ℕ} (h : 1 < n) : 2 ^ (n - 1).log2 < n ∧ n ≤ 2 * 2 ^ (n - 1).log2 := by
  have hlow := Nat.log2_self_le (n := n - 1) (by omega)
  have hhigh := Nat.lt_log2_self (n := n - 1)
  rw [Nat.pow_succ'] at hhigh
  omega

/-- A tree with leaves has a root: no index of `merkle_root` is out of range. -/
theorem isSome_merkleRoot (Γ : Ctx) (leaf : Bytes 32) (leaves : List (Bytes 32)) : (merkleRoot Γ (leaf :: leaves)).isSome := by
  unfold merkleRoot
  split
  · contradiction
  · rfl
  · rfl
  case _ h1 h2 =>
    have hlen : 1 < (leaf :: leaves).length := by
      rcases leaves with _ | ⟨_, _⟩
      · exact absurd rfl (h1 leaf)
      · simp
    obtain ⟨hlow, hhigh⟩ := log2_pred_spec hlen
    obtain ⟨node, hloop, -⟩ := merkleLoop_log2 (fun left right : Bytes 32 => Γ.keccak256 (left.toList ++ right.toList)) hlow hhigh
    simp only [hloop, Option.bind_eq_bind, Option.bind_some]
    rfl

end MoneroOxide
