import MoneroOxide.Bulletproofs
import MoneroOxide.Lib.InnerProduct
import MoneroOxide.Lib.Tabulate

/-!
# What Bulletproofs and Bulletproofs+ share, as sums

Vectors are tabulated, so that what is computed of them is a sum over their indexes. The table of `challenge_products` is the
product that the bits of an index select (`getD_challengeProducts`). A batch verifier is taken at its value: the point its terms
add up to, to which each operation on it adds a point of the prime-order subgroup.
-/

namespace MoneroOxide

open InnerProduct Tabulate

namespace ScalarVector

theorem powersFrom_eq (x power : Scalar) (len : ℕ) : powersFrom x power len = tabulate len fun i => power * x ^ i := by
  induction len generalizing power with
  | zero => rfl
  | succ len ih =>
    rw [powersFrom, ih, tabulate_succ, pow_zero, mul_one]
    congr 2
    funext i
    rw [pow_succ']
    ring

theorem powers_eq (x : Scalar) (len : ℕ) : powers x len = tabulate len fun i => x ^ i := by
  simp [powers, powersFrom_eq]

section

variable (n : ℕ) (f g h : ℕ → Scalar) (s : Scalar)

@[simp]
theorem add_tabulate : add (tabulate n f) (tabulate n g) = tabulate n fun i => f i + g i := zipWith_tabulate ..

@[simp]
theorem mul_tabulate : mul (tabulate n f) (tabulate n g) = tabulate n fun i => f i * g i := zipWith_tabulate ..

@[simp]
theorem addScalar_tabulate : addScalar (tabulate n f) s = tabulate n fun i => f i + s := map_tabulate ..

@[simp]
theorem subScalar_tabulate : subScalar (tabulate n f) s = tabulate n fun i => f i - s := map_tabulate ..

@[simp]
theorem mulScalar_tabulate : mulScalar (tabulate n f) s = tabulate n fun i => f i * s := map_tabulate ..

@[simp]
theorem innerProduct_tabulate : innerProduct (tabulate n f) (tabulate n g) = combine n f g := by
  rw [innerProduct, mul_tabulate, sum_tabulate]
  rfl

@[simp]
theorem weightedInnerProduct_tabulate :
    weightedInnerProduct (tabulate n f) (tabulate n g) (tabulate n h) = combine n f fun i => g i * h i := by
  rw [weightedInnerProduct, mul_tabulate, mul_tabulate, sum_tabulate, combine]
  refine Finset.sum_congr rfl fun i _ => ?_
  rw [mul_assoc, smul_eq_mul]

end

end ScalarVector

theorem split_tabulate {α : Type} (n : ℕ) (f : ℕ → α) :
    split (tabulate (n + n) f) = (tabulate n f, tabulate n fun i => f (n + i)) := by
  have h : (n + n) / 2 = n := by omega
  rw [split, length_tabulate, h, take_tabulate f (by omega), drop_tabulate]

/-! ## Padding -/

theorem le_two_pow_padLoop (n LRLen : ℕ) : n ≤ 2 ^ Bulletproof.padLoop n LRLen := by
  unfold Bulletproof.padLoop
  split
  · exact le_two_pow_padLoop n (LRLen + 1)
  · omega
termination_by n - 2 ^ LRLen
decreasing_by
  have : 2 ^ LRLen < 2 ^ (LRLen + 1) := Nat.pow_lt_pow_right (by omega) (by omega)
  omega

theorem padLoop_le {n k : ℕ} (hn : n ≤ 2 ^ k) (LRLen : ℕ) (h : LRLen ≤ k) : Bulletproof.padLoop n LRLen ≤ k := by
  unfold Bulletproof.padLoop
  split
  · refine padLoop_le hn (LRLen + 1) ?_
    by_contra hlt
    have : LRLen = k := by omega
    subst this
    omega
  · exact h
termination_by k - LRLen
decreasing_by
  by_contra hlt
  have : LRLen = k := by omega
  subst this
  omega

theorem padLoop_two_pow (k : ℕ) : Bulletproof.padLoop (2 ^ k) 0 = k := by
  have hle := padLoop_le (le_refl (2 ^ k)) 0 (Nat.zero_le k)
  have hge := (Nat.pow_le_pow_iff_right (by omega)).1 (le_two_pow_padLoop (2 ^ k) 0)
  omega

theorem paddedPowOf2_two_pow (k : ℕ) : paddedPowOf2 (2 ^ k) = 2 ^ k := by
  rw [paddedPowOf2, padLoop_two_pow]

theorem le_paddedPowOf2 (n : ℕ) : n ≤ paddedPowOf2 n := le_two_pow_padLoop n 0

/-! ## `challenge_products` -/

namespace ChallengeProducts

theorem length_slotStep (challenge : Scalar × Scalar) (slots : ℕ) (products : List Scalar) :
    (slotStep challenge slots products).length = products.length := by
  simp [slotStep]

/-- What an iteration writes. -/
theorem getD_slotStep (challenge : Scalar × Scalar) (m : ℕ) {products : List Scalar} (h : 2 * m + 1 < products.length) (i : ℕ) :
    (slotStep challenge (2 * m + 1) products).getD i 0 =
      if i = 2 * m + 1 then products.getD m 0 * challenge.1
      else if i = 2 * m then products.getD m 0 * challenge.2 else products.getD i 0 := by
  have hhalf : (2 * m + 1) / 2 = m := by omega
  rw [slotStep, hhalf]
  simp only [Nat.add_sub_cancel, List.getD_eq_getElem?_getD, List.getElem?_set, List.length_set]
  split <;> split <;> grind

/-- The loop of a challenge doubles the slots it is for: each is written from the one of the half of its index. The slots below are
written later, so that what is read was not overwritten. -/
theorem getD_pass (challenge : Scalar × Scalar) (m : ℕ) {products : List Scalar} (h : 2 * m + 1 < products.length) :
    (pass challenge (2 * m + 1) products).length = products.length ∧
    ∀ i, (pass challenge (2 * m + 1) products).getD i 0 =
      if i < 2 * m + 2 then products.getD (i / 2) 0 * (if i.testBit 0 then challenge.1 else challenge.2)
      else products.getD i 0 := by
  induction m generalizing products with
  | zero =>
    refine ⟨length_slotStep .., fun i => ?_⟩
    show (slotStep challenge (2 * 0 + 1) products).getD i 0 = _
    rw [getD_slotStep challenge 0 h]
    rcases i with _ | _ | i
    · simp
    · simp
    · simp
  | succ m ih =>
    have hpass : pass challenge (2 * (m + 1) + 1) products =
        pass challenge (2 * m + 1) (slotStep challenge (2 * (m + 1) + 1) products) := rfl
    have hlt : 2 * m + 1 < (slotStep challenge (2 * (m + 1) + 1) products).length := by
      rw [length_slotStep]
      omega
    obtain ⟨hlen, hget⟩ := ih hlt
    rw [hpass]
    refine ⟨hlen.trans (length_slotStep ..), fun i => ?_⟩
    rw [hget i]
    by_cases hi : i < 2 * m + 2
    · rw [if_pos hi, if_pos (show i < 2 * (m + 1) + 2 by omega), getD_slotStep challenge (m + 1) h, if_neg (by omega),
        if_neg (by omega)]
    · rw [if_neg hi, getD_slotStep challenge (m + 1) h]
      by_cases hodd : i = 2 * (m + 1) + 1
      · have hbit : i.testBit 0 = true := by simp [hodd, Nat.testBit_zero]
        rw [if_pos hodd, if_pos (by omega), if_pos hbit, show i / 2 = m + 1 by omega]
      · rw [if_neg hodd]
        by_cases heven : i = 2 * (m + 1)
        · have hbit : ¬i.testBit 0 = true := by simp [heven, Nat.testBit_zero]
          rw [if_pos heven, if_pos (by omega), if_neg hbit, show i / 2 = m + 1 by omega]
        · rw [if_neg heven, if_neg (by omega)]

/-- The table after some of the challenges. -/
theorem foldl_pass (done rest : List (Scalar × Scalar)) (hdone : done ≠ []) {products : List Scalar}
    (hlen : products.length = 2 ^ (done ++ rest).length)
    (h : ∀ i < 2 ^ done.length, products.getD i 0 = bitProduct done i) :
    let final := (rest.zipIdx done.length).foldl
      (fun products challenge => pass challenge.1 (2 ^ (challenge.2 + 1) - 1) products) products
    final.length = 2 ^ (done ++ rest).length ∧ ∀ i < 2 ^ (done ++ rest).length, final.getD i 0 = bitProduct (done ++ rest) i := by
  induction rest generalizing done products with
  | nil =>
    rw [List.append_nil] at hlen ⊢
    exact ⟨hlen, h⟩
  | cons challenge rest ih =>
    have happend : done ++ challenge :: rest = (done ++ [challenge]) ++ rest := by simp
    have hslots : 2 ^ (done.length + 1) - 1 = 2 * (2 ^ done.length - 1) + 1 := by
      have := Nat.one_le_two_pow (n := done.length)
      rw [Nat.pow_succ]
      omega
    have hpow : 2 * (2 ^ done.length - 1) + 2 = 2 ^ (done ++ [challenge]).length := by
      have := Nat.one_le_two_pow (n := done.length)
      rw [List.length_append, List.length_singleton, Nat.pow_succ]
      omega
    have hle : 2 ^ (done ++ [challenge]).length ≤ products.length := by
      rw [hlen, happend]
      exact Nat.pow_le_pow_right (by omega) (by simp)
    have hlt : 2 * (2 ^ done.length - 1) + 1 < products.length := by omega
    obtain ⟨hlen', hget⟩ := getD_pass challenge (2 ^ done.length - 1) hlt
    have hnext : (pass challenge (2 * (2 ^ done.length - 1) + 1) products).length = 2 ^ ((done ++ [challenge]) ++ rest).length := by
      rw [hlen', hlen, happend]
    rw [List.zipIdx_cons, List.foldl_cons, happend, hslots]
    have := ih (done ++ [challenge]) (by simp) hnext ?_
    · rw [List.length_append, List.length_singleton] at this
      exact this
    · intro i hi
      rw [hget i, if_pos (by omega), bitProduct_concat, h (i / 2) (by omega)]

end ChallengeProducts

/-- `challenge_products` is the table of the products that the bits of the index select. -/
theorem challengeProducts_spec (challenges : List (Scalar × Scalar)) :
    (challengeProducts challenges).length = 2 ^ challenges.length ∧
    ∀ i < 2 ^ challenges.length, (challengeProducts challenges).getD i 0 = bitProduct challenges i := by
  cases challenges with
  | nil =>
    refine ⟨rfl, fun i hi => ?_⟩
    have : i = 0 := by simpa using hi
    subst this
    rfl
  | cons first rest =>
    have htwo : 2 ≤ 2 ^ (first :: rest).length := by
      rw [List.length_cons, Nat.pow_succ]
      have := Nat.one_le_two_pow (n := rest.length)
      omega
    refine ChallengeProducts.foldl_pass [first] rest (by simp) (by simp) fun i hi => ?_
    have hi : i < 2 := hi
    obtain rfl | rfl : i = 0 ∨ i = 1 := by omega
    · simp [List.getD_eq_getElem?_getD, bitProduct]
    · simp only [List.getD_eq_getElem?_getD, List.getElem?_set, List.length_set, List.length_replicate, bitProduct]
      grind

/-! ## Points of the prime-order subgroup -/

section

variable {Γ : Ctx}

@[simp]
theorem multiexp_nil : multiexp ([] : List (Scalar × Γ.Point)) = 0 := rfl

@[simp]
theorem multiexp_cons (s : Scalar) (P : Γ.Point) (pairs : List (Scalar × Γ.Point)) :
    multiexp ((s, P) :: pairs) = s • P + multiexp pairs := rfl

@[simp]
theorem multiexp_append (a b : List (Scalar × Γ.Point)) : multiexp (a ++ b) = multiexp a + multiexp b := by
  simp [multiexp]

@[simp]
theorem multiexp_tabulate (n : ℕ) (a : ℕ → Scalar) (g : ℕ → Γ.primeSubgroup) :
    multiexp (tabulate n fun i => (a i, (g i : Γ.Point))) = (combine n a g : Γ.primeSubgroup) := by
  rw [multiexp, map_tabulate, sum_tabulate, combine, AddSubgroup.val_finsetSum]
  rfl

theorem multiexp_flatMap_tabulate {α : Type} (n : ℕ) (f : ℕ → α) (terms : α → List (Scalar × Γ.Point)) :
    multiexp ((tabulate n f).flatMap terms) = ∑ i ∈ Finset.range n, multiexp (terms (f i)) := by
  induction n with
  | zero => rfl
  | succ n ih =>
    rw [tabulate_add, List.flatMap_append, multiexp_append, ih, Finset.sum_range_succ]
    congr 1
    simp [tabulate_succ]

theorem multiexp_pair (s t : Scalar) (P Q : Γ.primeSubgroup) :
    multiexp [(s, (P : Γ.Point)), (t, (Q : Γ.Point))] = ((s • P + t • Q : Γ.primeSubgroup) : Γ.Point) := by
  simp only [multiexp_cons, multiexp_nil, add_zero, AddSubgroup.coe_add, Ctx.coe_smul]

/-- The generators of Bulletproofs, as points of the prime-order subgroup. -/
def boldG (Γ : Ctx) (dst : List UInt8) (i : ℕ) : Γ.primeSubgroup := ⟨generator Γ dst (2 * i + 1), Ctx.torsionFree_biasedHash _⟩

/-- The generators `H`. -/
def boldH (Γ : Ctx) (dst : List UInt8) (i : ℕ) : Γ.primeSubgroup := ⟨generator Γ dst (2 * i), Ctx.torsionFree_biasedHash _⟩

/-- The generators of commitments. -/
def pointG (Γ : Ctx) : Γ.primeSubgroup := ⟨Γ.G, Ctx.torsionFree_G⟩

def pointH (Γ : Ctx) : Γ.primeSubgroup := ⟨Γ.H, Ctx.torsionFree_H⟩

theorem bulletproofsGenerators_eq (dst : List UInt8) :
    bulletproofsGenerators Γ dst =
      { G := tabulate MAX_MN fun i => (boldG Γ dst i : Γ.Point), H := tabulate MAX_MN fun i => (boldH Γ dst i : Γ.Point) } := rfl

theorem length_bulletproofsGenerators_G (dst : List UInt8) : (bulletproofsGenerators Γ dst).G.length = MAX_MN := by
  rw [bulletproofsGenerators_eq]
  generalize MAX_MN = m
  exact length_tabulate _ _

theorem take_boldG (dst : List UInt8) {n : ℕ} (hn : n ≤ MAX_MN) :
    (bulletproofsGenerators Γ dst).G.take n = tabulate n fun i => (boldG Γ dst i : Γ.Point) := by
  rw [bulletproofsGenerators_eq]
  generalize MAX_MN = m at *
  exact take_tabulate _ hn

theorem take_boldH (dst : List UInt8) {n : ℕ} (hn : n ≤ MAX_MN) :
    (bulletproofsGenerators Γ dst).H.take n = tabulate n fun i => (boldH Γ dst i : Γ.Point) := by
  rw [bulletproofsGenerators_eq]
  generalize MAX_MN = m at *
  exact take_tabulate _ hn

/-- The encoding of a point that is sent multiplied by the inverse of the cofactor. -/
def encoded (P : Γ.primeSubgroup) : CompressedPoint := Γ.compress (Scalar.INV_EIGHT • (P : Γ.Point))

@[simp]
theorem decompMulCofactor_encoded (P : Γ.primeSubgroup) : decompMulCofactor Γ (encoded P) = some (P : Γ.Point) := by
  rw [decompMulCofactor, encoded, CompressedPoint.decompress_compress, Option.map_some, eight_smul_inv_eight P.2]

/-- The combination of generators with the coefficients of a list. -/
def weighted (v : List Scalar) (g : ℕ → Γ.primeSubgroup) : Γ.primeSubgroup := combine v.length (fun i => v.getD i 0) g

theorem weighted_tabulate (n : ℕ) (a : ℕ → Scalar) (g : ℕ → Γ.primeSubgroup) : weighted (tabulate n a) g = combine n a g := by
  rw [weighted, length_tabulate]
  exact combine_congr (fun i hi => getD_tabulate a hi 0) fun _ _ => rfl

theorem multiexp_zip_tabulate {v : List Scalar} {n : ℕ} (h : v.length ≤ n) (g : ℕ → Γ.primeSubgroup) :
    multiexp (v.zip (tabulate n fun i => (g i : Γ.Point))) = weighted v g := by
  rw [zip_tabulate_of_le h _ 0, multiexp_tabulate]
  rfl

/-- The table of the verifier folds the generators. -/
theorem combine_challengeProducts (c y : Scalar) (challenges : List (Scalar × Scalar)) (g : ℕ → Γ.primeSubgroup) :
    combine (2 ^ challenges.length) (fun i => c * ((challengeProducts challenges).getD i 0 * y ^ i)) g =
      c • folded challenges y g := by
  rw [combine_smul_left]
  congr 1
  refine combine_congr (fun i hi => ?_) fun _ _ => rfl
  rw [(challengeProducts_spec challenges).2 i hi]

/-- Read from its end, the table folds the other way. -/
theorem combine_challengeProducts_reverse (c : Scalar) (challenges : List (Scalar × Scalar)) (g : ℕ → Γ.primeSubgroup) :
    combine (2 ^ challenges.length)
        (fun i => c * (challengeProducts challenges).getD ((challengeProducts challenges).length - 1 - i) 0) g =
      c • folded (challenges.map Prod.swap) 1 g := by
  rw [combine_smul_left, folded, List.length_map]
  congr 1
  refine combine_congr (fun i hi => ?_) fun _ _ => rfl
  rw [(challengeProducts_spec challenges).1, (challengeProducts_spec challenges).2 _ (by omega), bitProduct_complement _ le_rfl hi,
    one_pow, mul_one]

theorem weighted_append_zeros (v : List Scalar) (k : ℕ) (g : ℕ → Γ.primeSubgroup) :
    weighted (v ++ List.replicate k 0) g = weighted v g := by
  rw [weighted, List.length_append, List.length_replicate, combine_add]
  have hlow : combine v.length (fun i => (v ++ List.replicate k 0).getD i 0) g = weighted v g := by
    refine combine_congr (fun i hi => ?_) fun _ _ => rfl
    rw [List.getD_eq_getElem?_getD, List.getElem?_append_left hi, ← List.getD_eq_getElem?_getD]
  have hhigh : combine k (fun i => (v ++ List.replicate k 0).getD (v.length + i) 0) (fun i => g (v.length + i)) = 0 := by
    refine combine_eq_zero (fun i _ => ?_) _
    rw [List.getD_eq_getElem?_getD, List.getElem?_append_right (by omega), List.getElem?_replicate]
    split <;> rfl
  rw [hlow, hhigh, add_zero]

theorem weighted_addTo {v : List Scalar} {n : ℕ} (h : n ≤ v.length) (f : ℕ → Scalar) (g : ℕ → Γ.primeSubgroup) :
    weighted (InternalBatchVerifier.addTo n f v) g = weighted v g + combine n f g := by
  obtain ⟨k, hk⟩ := Nat.exists_eq_add_of_le h
  have hlen : (InternalBatchVerifier.addTo n f v).length = v.length := by simp [InternalBatchVerifier.addTo]
  have hget : ∀ i < v.length, (InternalBatchVerifier.addTo n f v).getD i 0 = v.getD i 0 + if i < n then f i else 0 := by
    intro i hi
    simp only [InternalBatchVerifier.addTo, List.getD_eq_getElem?_getD, List.getElem?_mapIdx, List.getElem?_eq_getElem hi,
      Option.map_some, Option.getD_some]
    split
    · rfl
    · rw [add_zero]
  have hsum : combine v.length (fun i => if i < n then f i else 0) g = combine n f g := by
    rw [hk, combine_add]
    have hlow : combine n (fun i => if i < n then f i else 0) g = combine n f g :=
      combine_congr (fun i hi => if_pos hi) fun _ _ => rfl
    have hhigh : combine k (fun i => if n + i < n then f (n + i) else 0) (fun i => g (n + i)) = 0 :=
      combine_eq_zero (fun i _ => if_neg (by omega)) _
    rw [hlow, hhigh, add_zero]
  rw [weighted, hlen, combine_congr hget fun _ _ => rfl, combine_add_left, hsum]
  rfl

end

/-! ## The witness -/

open Bulletproof (MAX_COMMITMENTS COMMITMENT_BITS)

theorem padded_rows (n : ℕ) : paddedPowOf2 n * COMMITMENT_BITS = 2 ^ (Bulletproof.padLoop n 0 + 6) := by
  rw [paddedPowOf2, Nat.pow_add]
  rfl

/-- Whether the commitments are padded or their bits is the same. -/
theorem paddedPowOf2_mul_bits {n : ℕ} (hn : 0 < n) :
    paddedPowOf2 (n * COMMITMENT_BITS) = 2 ^ (Bulletproof.padLoop n 0 + 6) := by
  have hbits : COMMITMENT_BITS = 2 ^ 6 := by decide
  have hn64 : n * 2 ^ 6 ≤ 2 ^ Bulletproof.padLoop (n * 2 ^ 6) 0 := le_two_pow_padLoop _ 0
  have hle : n * 2 ^ 6 ≤ 2 ^ (Bulletproof.padLoop n 0 + 6) := by
    rw [Nat.pow_add]
    exact Nat.mul_le_mul_right _ (le_two_pow_padLoop n 0)
  have hsix : 6 ≤ Bulletproof.padLoop (n * 2 ^ 6) 0 :=
    (Nat.pow_le_pow_iff_right (by omega)).1 (le_trans (Nat.le_mul_of_pos_left _ hn) hn64)
  obtain ⟨k, hk⟩ := Nat.exists_eq_add_of_le' hsix
  have hk' : n ≤ 2 ^ k := by
    rw [hk, Nat.pow_add] at hn64
    exact Nat.le_of_mul_le_mul_right hn64 (by decide)
  have hupper := padLoop_le hle 0 (Nat.zero_le _)
  have hlower := padLoop_le hk' 0 (Nat.zero_le _)
  rw [paddedPowOf2, hbits]
  congr 1
  omega

theorem padded_rows_le {n : ℕ} (h : n ≤ MAX_COMMITMENTS) : 2 ^ (Bulletproof.padLoop n 0 + 6) ≤ MAX_MN := by
  have hle : Bulletproof.padLoop n 0 ≤ 4 := padLoop_le h 0 (by omega)
  have hmax : MAX_MN = 2 ^ 10 := by decide
  rw [hmax]
  exact Nat.pow_le_pow_right (by omega) (by omega)

/-- The bits of an amount. -/
def bit (amount i : ℕ) : Scalar := ((amount / 2 ^ i % 2 : ℕ) : Scalar)

theorem bit_mul_bit_sub_one (amount i : ℕ) : bit amount i * (bit amount i - 1) = 0 := by
  rcases Nat.mod_two_eq_zero_or_one (amount / 2 ^ i) with h | h
  · rw [bit, h, Nat.cast_zero, zero_mul]
  · rw [bit, h, Nat.cast_one, sub_self, mul_zero]

theorem sum_bit (amount n : ℕ) : ∑ i ∈ Finset.range n, bit amount i * 2 ^ i = ((amount % 2 ^ n : ℕ) : Scalar) := by
  induction n with
  | zero => simp [Nat.mod_one]
  | succ n ih =>
    rw [Finset.sum_range_succ, ih, Nat.mod_pow_succ, bit]
    push_cast
    ring

/-- The commitment at an index, and the opening of the identity for those padded. -/
def commitmentAt (witness : List Commitment) (j : ℕ) : Commitment := witness.getD j { mask := 0, amount := 0 }

/-- The bit of a row of the amounts. -/
def rowBit (witness : List Commitment) (k : ℕ) : Scalar :=
  bit (commitmentAt witness (k / COMMITMENT_BITS)).amount.toNat (k % COMMITMENT_BITS)

theorem witness_eq (witness : List Commitment) : witness = tabulate witness.length (commitmentAt witness) := eq_tabulate witness _

theorem commitmentAt_of_le {witness : List Commitment} {j : ℕ} (h : witness.length ≤ j) :
    commitmentAt witness j = { mask := 0, amount := 0 } := by
  rw [commitmentAt, List.getD_eq_default _ _ h]

/-- The rows of an amount are its bits. -/
theorem sum_rowBit (witness : List Commitment) (j : ℕ) :
    ∑ i ∈ Finset.range COMMITMENT_BITS, rowBit witness (j * COMMITMENT_BITS + i) * 2 ^ i =
      Commitment.amountScalar (commitmentAt witness j).amount := by
  have hrow : ∀ i ∈ Finset.range COMMITMENT_BITS, rowBit witness (j * COMMITMENT_BITS + i) * 2 ^ i =
      bit (commitmentAt witness j).amount.toNat i * 2 ^ i := by
    intro i hi
    have hi : i < COMMITMENT_BITS := Finset.mem_range.1 hi
    rw [rowBit, Nat.mul_comm j, Nat.mul_add_div (by decide), Nat.div_eq_of_lt hi, Nat.add_zero, Nat.mul_add_mod,
      Nat.mod_eq_of_lt hi]
  have hlt : (commitmentAt witness j).amount.toNat < 2 ^ COMMITMENT_BITS := UInt64.toNat_lt _
  rw [Finset.sum_congr rfl hrow, sum_bit, Nat.mod_eq_of_lt hlt]
  rfl

section

variable {Γ : Ctx}

/-- A commitment of the witness, as a point of the prime-order subgroup. -/
def commitmentPoint (Γ : Ctx) (commitment : Commitment) : Γ.primeSubgroup :=
  commitment.mask • pointG Γ + Commitment.amountScalar commitment.amount • pointH Γ

theorem coe_commitmentPoint (commitment : Commitment) : (commitmentPoint Γ commitment : Γ.Point) = commitment.commit Γ := by
  simp only [commitmentPoint, AddSubgroup.coe_add, Ctx.coe_smul]
  rfl

/-- The commitments are consistent with the openings they were made from. -/
theorem any_commit_ne (witness : List Commitment) :
    (((witness.map (Commitment.commit Γ)).zip witness).any fun pair => pair.2.commit Γ ≠ pair.1) = false := by
  induction witness with
  | nil => rfl
  | cons commitment witness ih =>
    rw [List.map_cons, List.zip_cons_cons, List.any_cons, ih, decide_eq_false (not_not.2 rfl), Bool.or_false]

/-- What the commitments are taken as, once their cofactor was cleared. -/
theorem map_clearCofactor (witness : List Commitment) :
    ((witness.map (Commitment.commit Γ)).map fun V => Scalar.INV_EIGHT • V).map (fun V => (8 : ℕ) • V) =
      tabulate witness.length fun i => (commitmentPoint Γ (commitmentAt witness i) : Γ.Point) := by
  have hcancel : ∀ commitment : Commitment, (8 : ℕ) • Scalar.INV_EIGHT • commitment.commit Γ = commitmentPoint Γ commitment := by
    intro commitment
    rw [eight_smul_inv_eight (Ctx.torsionFree_commit _), coe_commitmentPoint]
  rw [List.map_map, List.map_map]
  conv_lhs => rw [witness_eq witness, map_tabulate]
  exact tabulate_congr fun i _ => hcancel _

/-- The sum of the commitments, by their openings. -/
theorem combine_commitmentPoint (len : ℕ) (f : ℕ → Scalar) (witness : ℕ → Commitment) :
    combine len f (fun i => commitmentPoint Γ (witness i)) =
      (∑ i ∈ Finset.range len, f i * (witness i).mask) • pointG Γ +
        (∑ i ∈ Finset.range len, f i * Commitment.amountScalar (witness i).amount) • pointH Γ := by
  simp only [combine, commitmentPoint, smul_add, Finset.sum_add_distrib, smul_smul, Finset.sum_smul]

/-- Amounts of zero may be left out. -/
theorem sum_amount_of_le {len padded : ℕ} (hlen : len ≤ padded) {witness : ℕ → Commitment}
    (hzero : ∀ j, len ≤ j → witness j = { mask := 0, amount := 0 }) (f : ℕ → Scalar) :
    ∑ j ∈ Finset.range padded, f j * Commitment.amountScalar (witness j).amount =
      ∑ j ∈ Finset.range len, f j * Commitment.amountScalar (witness j).amount := by
  obtain ⟨k, rfl⟩ := Nat.exists_eq_add_of_le hlen
  rw [Finset.sum_range_add, Finset.sum_eq_zero (s := Finset.range k), add_zero]
  intro j _
  rw [hzero _ (Nat.le_add_right len j)]
  simp [Commitment.amountScalar]

end

/-! ## Rounds -/

section

variable {Γ : Ctx}

/-- The terms of the rounds of an inner-product argument, as points: the squares of the challenges times `L`, and of their inverses
times `R`. -/
def crossTerms (xs : List Scalar) (rounds : List (Γ.primeSubgroup × Γ.primeSubgroup)) : Γ.primeSubgroup :=
  ((xs.zip rounds).map fun round => (round.1 * round.1) • round.2.1 + (round.1⁻¹ * round.1⁻¹) • round.2.2).sum

theorem crossTerms_cons (x : Scalar) (xs : List Scalar) (L R : Γ.primeSubgroup)
    (rounds : List (Γ.primeSubgroup × Γ.primeSubgroup)) :
    crossTerms (x :: xs) ((L, R) :: rounds) = (x * x) • L + (x⁻¹ * x⁻¹) • R + crossTerms xs rounds := rfl

/-- The rounds as they are sent. -/
def encodedRounds (rounds : List (Γ.primeSubgroup × Γ.primeSubgroup)) : List (CompressedPoint × CompressedPoint) :=
  rounds.map fun round => (encoded round.1, encoded round.2)

/-- The generators of a round, folded. -/
theorem fold_tabulate (n : ℕ) (s t : Scalar) (g : ℕ → Γ.primeSubgroup) :
    List.zipWith (fun a b => multiexp [(s, a), (t, b)]) (tabulate n fun i => (g i : Γ.Point))
        (tabulate n fun i => (g (n + i) : Γ.Point)) =
      tabulate n fun i => ((s • g i + t • g (n + i) : Γ.primeSubgroup) : Γ.Point) := by
  simp only [zipWith_tabulate, multiexp_pair]

end

namespace InternalBatchVerifier

/-- The verifiers that there are: as many coefficients for one list of generators as for the other, and no more than there are
generators. -/
structure Sane {Γ : Ctx} (verifier : InternalBatchVerifier Γ) : Prop where
  length_eq : verifier.hBold.length = verifier.gBold.length
  length_le : verifier.gBold.length ≤ MAX_MN

section

variable {Γ : Ctx} (g h : Γ.primeSubgroup) (dst : List UInt8) (verifier : InternalBatchVerifier Γ)

/-- The point that the terms of a verifier add up to. -/
def value : Γ.Point := multiexp (verifier.terms g h (bulletproofsGenerators Γ dst))

variable {verifier}

theorem value_eq (hsane : verifier.Sane) :
    verifier.value g h dst =
      ((verifier.g • g + verifier.h • h + weighted verifier.gBold (boldG Γ dst) + weighted verifier.hBold (boldH Γ dst) :
        Γ.primeSubgroup) : Γ.Point) + multiexp verifier.other := by
  rw [value, terms, bulletproofsGenerators_eq, multiexp_cons, multiexp_cons, multiexp_append, multiexp_append,
    multiexp_zip_tabulate hsane.length_le, multiexp_zip_tabulate (hsane.length_eq ▸ hsane.length_le)]
  simp only [AddSubgroup.coe_add, Ctx.coe_smul]
  abel

variable (verifier) in
/-- What was done to a verifier: another is reached from it, with coefficients for at least `rows` generators, and a point was added
to its value. -/
structure Reaches (rows : ℕ) (reached : InternalBatchVerifier Γ) (P : Γ.primeSubgroup) : Prop where
  sane : reached.Sane
  rows_le : rows ≤ reached.gBold.length
  value_eq : reached.value g h dst = verifier.value g h dst + P

namespace Reaches

variable {g h dst} {rows : ℕ} {reached : InternalBatchVerifier Γ} {P : Γ.primeSubgroup}

theorem congr (hr : Reaches g h dst verifier rows reached P) {Q : Γ.primeSubgroup} (hPQ : P = Q) :
    Reaches g h dst verifier rows reached Q := hPQ ▸ hr

/-- One more operation, which adds a point. -/
theorem step (hr : Reaches g h dst verifier rows reached P) {next : InternalBatchVerifier Γ} (hsane : next.Sane)
    (hrows : rows ≤ next.gBold.length) {Q : Γ.primeSubgroup} (hQ : next.value g h dst = reached.value g h dst + Q) :
    Reaches g h dst verifier rows next (P + Q) := by
  refine ⟨hsane, hrows, ?_⟩
  rw [hQ, hr.value_eq, AddSubgroup.coe_add, add_assoc]

theorem addG (hr : Reaches g h dst verifier rows reached P) (s : Scalar) :
    Reaches g h dst verifier rows (reached.addG s) (P + s • g) := by
  have hsane : (reached.addG s).Sane := { hr.sane with }
  refine hr.step hsane hr.rows_le ?_
  rw [InternalBatchVerifier.value_eq g h dst hsane, InternalBatchVerifier.value_eq g h dst hr.sane]
  simp only [InternalBatchVerifier.addG, add_smul, AddSubgroup.coe_add]
  abel

theorem addH (hr : Reaches g h dst verifier rows reached P) (s : Scalar) :
    Reaches g h dst verifier rows (reached.addH s) (P + s • h) := by
  have hsane : (reached.addH s).Sane := { hr.sane with }
  refine hr.step hsane hr.rows_le ?_
  rw [InternalBatchVerifier.value_eq g h dst hsane, InternalBatchVerifier.value_eq g h dst hr.sane]
  simp only [InternalBatchVerifier.addH, add_smul, AddSubgroup.coe_add]
  abel

theorem push (hr : Reaches g h dst verifier rows reached P) {terms : List (Scalar × Γ.Point)} {Q : Γ.primeSubgroup}
    (hQ : multiexp terms = Q) : Reaches g h dst verifier rows (reached.push terms) (P + Q) := by
  have hsane : (reached.push terms).Sane := { hr.sane with }
  refine hr.step hsane hr.rows_le ?_
  rw [InternalBatchVerifier.value_eq g h dst hsane, InternalBatchVerifier.value_eq g h dst hr.sane]
  simp only [InternalBatchVerifier.push, multiexp_append, hQ]
  abel

theorem addGBold (hr : Reaches g h dst verifier rows reached P) (f : ℕ → Scalar) :
    Reaches g h dst verifier rows (reached.addGBold rows f) (P + combine rows f (boldG Γ dst)) := by
  have hlen : (reached.addGBold rows f).gBold.length = reached.gBold.length := by simp [InternalBatchVerifier.addGBold, addTo]
  have hsane : (reached.addGBold rows f).Sane := ⟨hr.sane.length_eq.trans hlen.symm, hlen ▸ hr.sane.length_le⟩
  refine hr.step hsane (hlen ▸ hr.rows_le) ?_
  rw [InternalBatchVerifier.value_eq g h dst hsane, InternalBatchVerifier.value_eq g h dst hr.sane]
  simp only [InternalBatchVerifier.addGBold, weighted_addTo hr.rows_le, AddSubgroup.coe_add]
  abel

theorem addHBold (hr : Reaches g h dst verifier rows reached P) (f : ℕ → Scalar) :
    Reaches g h dst verifier rows (reached.addHBold rows f) (P + combine rows f (boldH Γ dst)) := by
  have hlen : (reached.addHBold rows f).hBold.length = reached.hBold.length := by simp [InternalBatchVerifier.addHBold, addTo]
  have hsane : (reached.addHBold rows f).Sane := ⟨hlen.trans hr.sane.length_eq, hr.sane.length_le⟩
  refine hr.step hsane hr.rows_le ?_
  rw [InternalBatchVerifier.value_eq g h dst hsane, InternalBatchVerifier.value_eq g h dst hr.sane]
  simp only [InternalBatchVerifier.addHBold, weighted_addTo (hr.sane.length_eq ▸ hr.rows_le), AddSubgroup.coe_add]
  abel

theorem refl (hsane : verifier.Sane) : Reaches g h dst verifier 0 verifier 0 where
  sane := hsane
  rows_le := Nat.zero_le _
  value_eq := by rw [AddSubgroup.coe_zero, add_zero]

/-- Padding with zeros adds nothing. -/
theorem pad (hr : Reaches g h dst verifier rows reached P) {rows' : ℕ} (hrows : rows' ≤ MAX_MN) :
    Reaches g h dst verifier rows' { reached with
      gBold := reached.gBold ++ List.replicate (rows' - reached.gBold.length) 0
      hBold := reached.hBold ++ List.replicate (rows' - reached.hBold.length) 0 } P := by
  have hlen := hr.sane.length_eq
  have hle := hr.sane.length_le
  set padded : InternalBatchVerifier Γ := { reached with
      gBold := reached.gBold ++ List.replicate (rows' - reached.gBold.length) 0
      hBold := reached.hBold ++ List.replicate (rows' - reached.hBold.length) 0 } with hpadded
  have hG : padded.gBold.length = reached.gBold.length + (rows' - reached.gBold.length) := by
    rw [hpadded, List.length_append, List.length_replicate]
  have hH : padded.hBold.length = reached.hBold.length + (rows' - reached.hBold.length) := by
    rw [hpadded, List.length_append, List.length_replicate]
  have hsane : padded.Sane := ⟨by rw [hG, hH, hlen], by omega⟩
  refine ⟨hsane, by omega, ?_⟩
  rw [InternalBatchVerifier.value_eq g h dst hsane, ← hr.value_eq, InternalBatchVerifier.value_eq g h dst hr.sane, hpadded]
  simp only [weighted_append_zeros]

end Reaches

end

end InternalBatchVerifier

end MoneroOxide
