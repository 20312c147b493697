import MoneroOxide.Lemmas.Clsag
import MoneroOxide.Lemmas.DecoySelection
import MoneroOxide.Lib.Results

/-!
# What `Decoys::new` accepts

The checks of `Decoys::new` are all made, on lengths which are cast to a `u8` and on sums which wrap around, and then combined.
What passes all of them is stated here on natural numbers. A sum that wraps around is not greater than the one before it, so that
the sums which are compared are those of natural numbers (`offsetsRepresentable_iff`).
-/

namespace MoneroOxide

namespace Decoys

variable {Γ : Ctx}

/-- The running sums of offsets, after a sum. -/
def sumsFrom : ℕ → List UInt64 → List ℕ
  | _, [] => []
  | sum, offset :: offsets => (sum + offset.toNat) :: sumsFrom (sum + offset.toNat) offsets

/-- The running sums of offsets. -/
def runningSums (offsets : List UInt64) : List ℕ := sumsFrom 0 offsets

/-! ## The checks -/

/-- A sum that wraps around is not greater, and neither is one to which zero was added. -/
theorem lt_add_iff (sum offset : UInt64) :
    sum < sum + offset ↔ sum.toNat + offset.toNat < 2 ^ 64 ∧ sum.toNat < sum.toNat + offset.toNat := by
  have hsum := sum.toNat_lt
  have hoffset := offset.toNat_lt
  rw [UInt64.lt_iff_toNat_lt, UInt64.toNat_add]
  by_cases hfits : sum.toNat + offset.toNat < 2 ^ 64
  · rw [Nat.mod_eq_of_lt hfits]
    omega
  · have hwraps : (sum.toNat + offset.toNat) % 2 ^ 64 = sum.toNat + offset.toNat - 2 ^ 64 := by omega
    rw [hwraps]
    omega

/-- From the second offset on. -/
theorem offsetsRepresentable_succ (offsets : List UInt64) (i : ℕ) (sum : UInt64) :
    offsetsRepresentable offsets (i + 1) sum = true ↔
      (∀ s ∈ sumsFrom sum.toNat offsets, s < 2 ^ 64) ∧ (sum.toNat :: sumsFrom sum.toNat offsets).IsChain (· < ·) := by
  induction offsets generalizing i sum with
  | nil => simp [offsetsRepresentable, sumsFrom]
  | cons offset offsets ih =>
    rw [offsetsRepresentable, sumsFrom, List.isChain_cons_cons, List.forall_mem_cons]
    simp only [Nat.succ_ne_zero, beq_iff_eq, Bool.and_eq_true, Bool.or_eq_true, false_or, decide_eq_true_eq, lt_add_iff, ih]
    constructor
    · rintro ⟨⟨hfits, hlt⟩, hsums, hchain⟩
      rw [toNat_add_of_lt hfits] at hsums hchain
      exact ⟨⟨hfits, hsums⟩, hlt, hchain⟩
    · rintro ⟨⟨hfits, hsums⟩, hlt, hchain⟩
      rw [toNat_add_of_lt hfits]
      exact ⟨⟨hfits, hlt⟩, hsums, hchain⟩

/-- The first offset is a position, which may be zero. -/
theorem offsetsRepresentable_iff (offsets : List UInt64) :
    offsetsRepresentable offsets 0 0 = true ↔
      (∀ s ∈ runningSums offsets, s < 2 ^ 64) ∧ (runningSums offsets).IsChain (· < ·) := by
  cases offsets with
  | nil => simp [offsetsRepresentable, runningSums, sumsFrom]
  | cons offset offsets =>
    have hlt := offset.toNat_lt
    rw [offsetsRepresentable, runningSums, sumsFrom, UInt64.zero_add, List.forall_mem_cons]
    simp only [beq_self_eq_true, Bool.true_or, Bool.true_and, offsetsRepresentable_succ, Nat.zero_add, hlt, true_and]

/-! ## What is accepted -/

/-- The positions of offsets whose sums fit in a `u64` are these sums. -/
theorem positionsFrom_eq {sum : UInt64} {offsets : List UInt64} (h : ∀ s ∈ sumsFrom sum.toNat offsets, s < 2 ^ 64) :
    ∃ positions, positionsFrom sum offsets = .ok positions ∧ positions.map UInt64.toNat = sumsFrom sum.toNat offsets := by
  induction offsets generalizing sum with
  | nil => exact ⟨[], rfl, rfl⟩
  | cons offset offsets ih =>
    rw [sumsFrom, List.forall_mem_cons] at h
    obtain ⟨hfits, hsums⟩ := h
    rw [← toNat_add_of_lt hfits] at hsums
    obtain ⟨positions, hpositions, hmap⟩ := ih hsums
    refine ⟨(sum + offset) :: positions, ?_, ?_⟩
    · rw [positionsFrom, addU64_of_lt hfits, Results.ok_bind, hpositions]
      rfl
    · rw [sumsFrom, List.map_cons, hmap, toNat_add_of_lt hfits]

theorem positions_eq {decoys : Decoys Γ} (h : ∀ s ∈ runningSums decoys.offsets, s < 2 ^ 64) (hne : decoys.offsets ≠ []) :
    ∃ positions, decoys.positions = .ok positions ∧ positions.map UInt64.toNat = runningSums decoys.offsets := by
  unfold positions
  generalize decoys.offsets = offsets at h hne
  cases offsets with
  | nil => exact absurd rfl hne
  | cons offset offsets =>
    rw [runningSums, sumsFrom, Nat.zero_add, List.forall_mem_cons] at h
    obtain ⟨positions, hpositions, hmap⟩ := positionsFrom_eq h.2
    refine ⟨offset :: positions, ?_, ?_⟩
    · simp only [hpositions, Results.ok_bind]
      rfl
    · rw [runningSums, sumsFrom, Nat.zero_add, List.map_cons, hmap]

/-- What `Decoys::new` accepts. -/
structure Accepts (offsets : List UInt64) (signerIndex : UInt8) (ring : List (Γ.Point × Γ.Point)) : Prop where
  one_le : 1 ≤ ring.length
  le : ring.length ≤ 255
  length_eq : offsets.length = ring.length
  signerIndex_lt : signerIndex.toNat < ring.length
  representable : ∀ s ∈ runningSums offsets, s < 2 ^ 64
  increasing : (runningSums offsets).IsChain (· < ·)

theorem check_iff_accepts {offsets : List UInt64} {signerIndex : UInt8} {ring : List (Γ.Point × Γ.Point)} :
    check offsets signerIndex ring.length = true ↔ Accepts offsets signerIndex ring := by
  rw [check_iff, offsetsRepresentable_iff]
  constructor
  · rintro ⟨hle, hlt, hlength, hrepresentable, hincreasing⟩
    exact ⟨by omega, hle, hlength, hlt, hrepresentable, hincreasing⟩
  · intro h
    exact ⟨h.le, h.signerIndex_lt, h.length_eq, h.representable, h.increasing⟩

/-- `Decoys::new` accepts what it is to, and of what it accepts the positions are the sums of the offsets, and the members selected
those of the signer. -/
theorem new_exact (offsets : List UInt64) (signerIndex : UInt8) (ring : List (Γ.Point × Γ.Point)) :
    ((new offsets signerIndex ring).isSome = true ↔ Accepts offsets signerIndex ring) ∧
    ∀ decoys, new offsets signerIndex ring = some decoys →
      (∃ positions, decoys.positions = .ok positions ∧ positions.map UInt64.toNat = runningSums offsets) ∧
      ring[signerIndex.toNat]? = some decoys.signerRingMembers := by
  constructor
  · rw [← check_iff_accepts, new]
    split
    · rename_i h
      simp [h]
    · rename_i h
      simp [h]
  · intro decoys h
    rw [new] at h
    split at h
    · rename_i hcheck
      obtain rfl := Option.some.inj h
      have haccepts := check_iff_accepts.1 hcheck
      have hne : offsets ≠ [] := by
        rintro rfl
        have := haccepts.length_eq
        have := haccepts.one_le
        rw [List.length_nil] at *
        omega
      refine ⟨positions_eq haccepts.representable hne, ?_⟩
      rw [signerRingMembers_eq _ (0, 0), List.getD_eq_getElem?_getD, List.getElem?_eq_getElem haccepts.signerIndex_lt]
      rfl
    · cases h

end Decoys

end MoneroOxide
