import Mathlib.Data.List.Range
import Mathlib.Tactic.Common

/-!
# Challenges around a ring

A ring signature has a challenge for each of the `n` members of a ring, the challenge of the next member being computed from that
of a member by `g`. The signer starts after its own place, goes around to its own place, and then chooses its response so that the
next challenge is the one it started with. Whoever verifies starts at the first member and goes around once. `chain_closes` says
these agree.

Both may be run by one loop that goes through indices and only computes within a window of them, so that an observer of the loop
does not learn where the signer is. `foldl_windowStep` says what that loop computes.
-/

namespace ChallengeRing

variable {C : Type} (g : ℕ → C → C) (n : ℕ)

/-- The challenge at index `j`, where the challenge at index `start` is `c₀`. Indices go on after going around the ring. -/
def chain (start : ℕ) (c₀ : C) (j : ℕ) : C := (List.range' start (j - start)).foldl (fun c i => g (i % n) c) c₀

theorem chain_of_le {start j : ℕ} (h : j ≤ start) (c₀ : C) : chain g n start c₀ j = c₀ := by
  rw [chain, Nat.sub_eq_zero_of_le h]
  rfl

theorem chain_succ {start j : ℕ} (h : start ≤ j) (c₀ : C) :
    chain g n start c₀ (j + 1) = g (j % n) (chain g n start c₀ j) := by
  rw [chain, chain, Nat.succ_sub h, List.range'_concat, List.foldl_append]
  simp [Nat.add_sub_cancel' h]

variable {g n}

/-- The ring closes: if the responses used for verifying differ from those of the signer at the place `l` of the signer only, and
the challenge after the signer is the one the signer started with, then going around from the first member gives its challenge
back. -/
theorem chain_closes {g' : ℕ → C → C} {l : ℕ} (hl : l < n) (hg : ∀ i, i < n → i ≠ l → g' i = g i) {c₀ : C}
    (hclose : g' l (chain g n (l + 1) c₀ (n + l)) = c₀) :
    chain g' n 0 (chain g n (l + 1) c₀ n) n = chain g n (l + 1) c₀ n := by
  -- Up to the signer, verifying is one time around the ring behind.
  have before : ∀ j ≤ l, chain g' n 0 (chain g n (l + 1) c₀ n) j = chain g n (l + 1) c₀ (n + j) := by
    intro j
    induction j with
    | zero => exact fun _ => chain_of_le g' n le_rfl _
    | succ j ih =>
      intro hj
      rw [chain_succ g' n (Nat.zero_le j), ih (by omega), ← Nat.add_assoc, chain_succ g n (by omega), Nat.add_mod_left,
        Nat.mod_eq_of_lt (by omega), hg j (by omega) (by omega)]
  -- From the signer on, the two are at the same index.
  have after : ∀ j, l + 1 ≤ j → j ≤ n → chain g' n 0 (chain g n (l + 1) c₀ n) j = chain g n (l + 1) c₀ j := by
    intro j hj
    induction j, hj using Nat.le_induction with
    | base =>
      intro _
      rw [chain_succ g' n (Nat.zero_le l), before l le_rfl, Nat.mod_eq_of_lt hl, hclose, chain_of_le g n le_rfl]
    | succ j hj ih =>
      intro hjn
      rw [chain_succ g' n (Nat.zero_le j), ih (by omega), chain_succ g n hj, Nat.mod_eq_of_lt (by omega),
        hg j (by omega) (by omega)]
  exact after n hl le_rfl

/-- The state of the loop: whether the index is within the window, the challenge, and the challenge of the first member. -/
structure Window (C : Type) where
  inRange : Bool
  c : C
  c1 : C

/-- One iteration: the flag flips at the ends of the window, and within it the challenge is computed. After the last member of the
ring it is kept as the challenge of the first one. -/
def windowStep (g : ℕ → C → C) (n start stop : ℕ) (w : Window C) (i : ℕ) : Window C :=
  let inRange := Bool.xor (w.inRange || i == start) (i == stop)
  let c := if inRange then g (i % n) w.c else w.c
  { inRange, c, c1 := if inRange && i % n == n - 1 then c else w.c1 }

/-- What the loop has computed after the indices below `k`. The window is at most one time around the ring, starts no later than
the end of the ring and stops no earlier. -/
theorem foldl_windowStep (g : ℕ → C → C) {n : ℕ} (start stop : ℕ) (hn : 0 < n) (hstart : start ≤ n) (hstop : n ≤ stop)
    (hstop' : stop < 2 * n) (c₀ : C) {k : ℕ} (hk : k ≤ 2 * n) :
    (List.range k).foldl (windowStep g n start stop) { inRange := false, c := c₀, c1 := c₀ } =
      { inRange := decide (start < k ∧ k ≤ stop), c := chain g n start c₀ (min k stop),
        c1 := if n ≤ k then chain g n start c₀ n else c₀ } := by
  induction k with
  | zero => simp [chain, Nat.not_le_of_lt hn]
  | succ k ih =>
    rw [List.range_succ, List.foldl_append, ih (by omega), List.foldl_cons, List.foldl_nil, windowStep]
    have hflag : Bool.xor (decide (start < k ∧ k ≤ stop) || k == start) (k == stop) =
        decide (start < k + 1 ∧ k + 1 ≤ stop) := by
      rw [Bool.eq_iff_iff]
      simp only [Bool.xor, bne_iff_ne, ne_eq, decide_eq_true_eq]
      rw [Bool.eq_iff_iff]
      simp only [Bool.or_eq_true, decide_eq_true_eq, beq_iff_eq]
      omega
    simp only [hflag]
    by_cases hin : start < k + 1 ∧ k + 1 ≤ stop
    · have hc : g (k % n) (chain g n start c₀ (min k stop)) = chain g n start c₀ (min (k + 1) stop) := by
        rw [Nat.min_eq_left (by omega), Nat.min_eq_left hin.2, chain_succ g n (by omega)]
      simp only [hin, and_self, decide_true, if_true, hc, Bool.true_and, beq_iff_eq]
      by_cases hlast : k + 1 = n
      · have hmod : k % n = n - 1 := by rw [Nat.mod_eq_of_lt (by omega)]; omega
        rw [if_pos hmod, if_pos (by omega), hlast, Nat.min_eq_left (by omega)]
      · have hmod : k % n ≠ n - 1 := by
          rcases Nat.lt_or_ge k n with h | h
          · rw [Nat.mod_eq_of_lt h]
            omega
          · rw [Nat.mod_eq_sub_mod h, Nat.mod_eq_of_lt (by omega)]
            omega
        rw [if_neg hmod]
        congr 1
        simp only [show (n ≤ k + 1) = (n ≤ k) by rw [eq_iff_iff]; omega]
    · simp only [hin, decide_false, Bool.false_eq_true, if_false, Bool.false_and]
      congr 1
      · rcases Nat.lt_or_ge k start with h | h
        · rw [chain_of_le g n (by omega), chain_of_le g n (by omega)]
        · rw [Nat.min_eq_right (by omega), Nat.min_eq_right (by omega)]
      · by_cases hlast : k + 1 = n
        · rw [if_neg (by omega), if_pos (by omega), chain_of_le g n (by omega)]
        · simp only [show (n ≤ k + 1) = (n ≤ k) by rw [eq_iff_iff]; omega]

/-! ## Two times around

Each challenge is the hash of a string, which is computed from the challenge before and the row of a member.
-/

variable {ρ S : Type}

/-- The challenge after going through the rows of the members. -/
def around (hash : S → C) (string : C → ρ → S) (rows : List ρ) (c : C) : C := rows.foldl (fun c row => hash (string c row)) c

/-- The strings which are hashed on the way. -/
def strings (hash : S → C) (string : C → ρ → S) : List ρ → C → List S
  | [], _ => []
  | row :: rows, c => string c row :: strings hash string rows (hash (string c row))

/-- At one place, the two lists have one string of which the hash functions give different challenges, and at the place after it,
going around, they have one string again. -/
def ForksAround (hash hash' : S → C) (ss ss' : List S) : Prop :=
  ∃ i, ∃ s, ss[i]? = some s ∧ ss'[i]? = some s ∧ hash s ≠ hash' s ∧
    ∃ t, ss[(i + 1) % ss.length]? = some t ∧ ss'[(i + 1) % ss.length]? = some t

/-- Two lists fork where they have two strings in common next to each other, of the first of which the challenges differ. -/
theorem forksAround_append {hash hash' : S → C} {ss ss' rest rest' : List S} {s t : S} (hlen : ss.length = ss'.length)
    (hne : hash s ≠ hash' s) : ForksAround hash hash' (ss ++ s :: t :: rest) (ss' ++ s :: t :: rest') := by
  have hplace : ∀ pre post : List S, (pre ++ s :: t :: post)[pre.length]? = some s ∧
      (pre ++ s :: t :: post)[pre.length + 1]? = some t := by
    intro pre post
    constructor
    · rw [List.getElem?_append_right le_rfl, Nat.sub_self]
      rfl
    · rw [List.getElem?_append_right (Nat.le_add_right pre.length 1), Nat.add_sub_cancel_left]
      rfl
  have hmod : (ss.length + 1) % (ss ++ s :: t :: rest).length = ss.length + 1 := by
    refine Nat.mod_eq_of_lt ?_
    simp only [List.length_append, List.length_cons]
    omega
  refine ⟨ss.length, s, (hplace ss rest).1, ?_, hne, t, ?_, ?_⟩
  · rw [hlen]
    exact (hplace ss' rest').1
  · rw [hmod]
    exact (hplace ss rest).2
  · rw [hmod, hlen]
    exact (hplace ss' rest').2

theorem length_strings (hash : S → C) (string : C → ρ → S) (rows : List ρ) (c : C) : (strings hash string rows c).length = rows.length := by
  induction rows generalizing c with
  | nil => rfl
  | cons row rows ih => rw [strings, List.length_cons, List.length_cons, ih]

/-- The string at a place is that of the row, and the challenge reached until there. -/
theorem strings_getElem? (hash : S → C) (string : C → ρ → S) (rows : List ρ) (c : C) (i : ℕ) :
    (strings hash string rows c)[i]? = rows[i]?.map (string (around hash string (rows.take i) c)) := by
  induction rows generalizing c i with
  | nil => rfl
  | cons row rows ih =>
    cases i with
    | zero => rfl
    | succ i => exact ih (hash (string c row)) i

/-- The challenge after a place is the hash of the string at it. -/
theorem around_take_succ {hash : S → C} {string : C → ρ → S} {rows : List ρ} {c : C} {i : ℕ} {s : S}
    (h : (strings hash string rows c)[i]? = some s) : around hash string (rows.take (i + 1)) c = hash s := by
  rw [strings_getElem?, Option.map_eq_some_iff] at h
  obtain ⟨row, hrow, rfl⟩ := h
  rw [around, List.take_add_one, hrow, List.foldl_append]
  rfl

/-- Two rings which close and fork: at the row of one member, two different challenges come before one string. -/
theorem exists_fork {hash hash' : S → C} {string string' : C → ρ → S} {R : ρ → ρ → Prop} {rows rows' : List ρ} {c c' : C}
    (hR : List.Forall₂ R rows rows') (hclose : around hash string rows c = c) (hclose' : around hash' string' rows' c' = c')
    (hforks : ForksAround hash hash' (strings hash string rows c) (strings hash' string' rows' c')) :
    ∃ row ∈ rows, ∃ row' d d', R row row' ∧ d ≠ d' ∧ string d row = string' d' row' := by
  obtain ⟨i, s, hs, hs', hne, t, ht, ht'⟩ := hforks
  rw [length_strings] at ht ht'
  have hi : i < rows.length := by
    rw [← length_strings hash string rows c]
    exact (List.getElem?_eq_some_iff.1 hs).1
  -- The challenges before the next place differ, which is the first one after the last.
  have hbefore : around hash string (rows.take ((i + 1) % rows.length)) c ≠
      around hash' string' (rows'.take ((i + 1) % rows.length)) c' := by
    have hnext := around_take_succ hs
    have hnext' := around_take_succ hs'
    rcases Nat.lt_or_ge (i + 1) rows.length with hlt | hge
    · rw [Nat.mod_eq_of_lt hlt, hnext, hnext']
      exact hne
    · have hend : i + 1 = rows.length := by omega
      rw [hend, List.take_length, hclose] at hnext
      rw [hend, hR.length_eq, List.take_length, hclose'] at hnext'
      rw [hend, Nat.mod_self, List.take_zero, List.take_zero]
      show c ≠ c'
      rw [hnext, hnext']
      exact hne
  rw [strings_getElem?, Option.map_eq_some_iff] at ht ht'
  obtain ⟨row, hrow, rfl⟩ := ht
  obtain ⟨row', hrow', hstring⟩ := ht'
  obtain ⟨hj, rfl⟩ := List.getElem?_eq_some_iff.1 hrow
  obtain ⟨hj', rfl⟩ := List.getElem?_eq_some_iff.1 hrow'
  exact ⟨_, List.getElem_mem hj, _, _, _, hR.get hj hj', hbefore, hstring.symm⟩

/-- Hash functions which agree on the strings give the same strings and challenges. -/
theorem strings_congr {hash hash' : S → C} {string : C → ρ → S} {rows : List ρ} {c : C}
    (h : ∀ s ∈ strings hash string rows c, hash' s = hash s) :
    strings hash' string rows c = strings hash string rows c ∧ around hash' string rows c = around hash string rows c := by
  induction rows generalizing c with
  | nil => exact ⟨rfl, rfl⟩
  | cons row rows ih =>
    obtain ⟨hrow, hrest⟩ := List.forall_mem_cons.1 h
    obtain ⟨hstrings, haround⟩ := ih hrest
    constructor
    · rw [strings, strings, hrow, hstrings]
    · show around hash' string rows (hash' _) = around hash string rows (hash _)
      rw [hrow, haround]

theorem strings_append (hash : S → C) (string : C → ρ → S) (rows rows' : List ρ) (c : C) :
    strings hash string (rows ++ rows') c = strings hash string rows c ++ strings hash string rows' (around hash string rows c) := by
  induction rows generalizing c with
  | nil => rfl
  | cons row rows ih =>
    rw [List.cons_append, strings, strings, ih]
    rfl

theorem around_append (hash : S → C) (string : C → ρ → S) (rows rows' : List ρ) (c : C) :
    around hash string (rows ++ rows') c = around hash string rows' (around hash string rows c) := List.foldl_append

end ChallengeRing
