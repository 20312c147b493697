import MoneroOxide.Lib.BinaryDigits
import MoneroOxide.UnreducedScalar

/-!
# What `slide` of ref10 recovers

The digits after the one being processed are bits, and the digits from it on add up to what they did before, unless a carry falls
off the top. Then no digit is left to carry from, so that a carry is lost at most once.
-/

namespace MoneroOxide

namespace UnreducedScalar

open BinaryDigits

/-- The digits which are left by a window: odd, and within the range of `PRECOMPUTED_SCALARS`. -/
def IsDigit (d : ℤ) : Prop := d % 2 = 1 ∧ -15 ≤ d ∧ d ≤ 15

theorem i8_eq_some {value : ℤ} (h : -128 ≤ value ∧ value ≤ 127) : i8 value = some value := if_pos h

theorem shl_one {b : ℕ} (hb : b ≤ 5) : shl 1 b = 2 ^ b := by
  interval_cases b <;> rfl

theorem shl_zero (b : ℕ) : shl 0 b = 0 := by
  simp [shl]

/-- The loop over `k` increments the bits from `k` on. -/
theorem carry_eq (pre bits : List ℤ) : carry bits.length pre.length (pre ++ bits) = some (pre ++ increment bits) := by
  induction bits generalizing pre with
  | nil => rfl
  | cons d bits ih =>
    have hget : (pre ++ d :: bits)[pre.length]? = some d := by simp
    rw [List.length_cons, carry, hget, Option.bind_eq_bind, Option.bind_some, increment]
    split
    · simp
    · have hset : (pre ++ d :: bits).set pre.length 0 = (pre ++ [0]) ++ bits := by simp
      have h := ih (pre ++ [0])
      rw [List.length_append, List.length_singleton] at h
      rw [hset, h, List.append_assoc, List.singleton_append]

/-- The digits while the window of the digit `d` is processed: its first `b - 1` digits are cleared. -/
def windowDigits (pre : List ℤ) (d : ℤ) (b : ℕ) (bits : List ℤ) : List ℤ := pre ++ d :: (List.replicate (b - 1) 0 ++ bits)

section Window

variable {pre bits : List ℤ} {d : ℤ} {b : ℕ} {bs : List ℕ}

theorem windowDigits_digit : (windowDigits pre d b bits)[pre.length]? = some d := by
  simp [windowDigits]

theorem set_windowDigits (d' : ℤ) : (windowDigits pre d b bits).set pre.length d' = windowDigits pre d' b bits := by
  simp [windowDigits]

theorem windowDigits_bit {bit : ℤ} (hb : 1 ≤ b) : (windowDigits pre d b (bit :: bits))[pre.length + b]? = some bit := by
  obtain ⟨b, rfl⟩ := Nat.exists_eq_add_of_le' hb
  simp [windowDigits]

/-- A bit which is cleared is one more of the window. -/
theorem set_bit_windowDigits {bit : ℤ} (hb : 1 ≤ b) :
    (windowDigits pre d b (bit :: bits)).set (pre.length + b) 0 = windowDigits pre d (b + 1) bits := by
  obtain ⟨b, rfl⟩ := Nat.exists_eq_add_of_le' hb
  simp [windowDigits, List.replicate_succ']

theorem windowDigits_zero (hb : 1 ≤ b) : windowDigits pre d b (0 :: bits) = windowDigits pre d (b + 1) bits := by
  obtain ⟨b, rfl⟩ := Nat.exists_eq_add_of_le' hb
  simp [windowDigits, List.replicate_succ']

theorem carry_windowDigits (hb : 1 ≤ b) (hlen : pre.length + b + bits.length = 256) :
    carry (256 - (pre.length + b)) (pre.length + b) (windowDigits pre d b bits) = some (windowDigits pre d b (increment bits)) := by
  have h := carry_eq (pre ++ d :: List.replicate (b - 1) 0) bits
  have hpre : (pre ++ d :: List.replicate (b - 1) 0).length = pre.length + b := by
    simp only [List.length_append, List.length_cons, List.length_replicate]
    omega
  rw [hpre, show bits.length = 256 - (pre.length + b) by omega, List.append_assoc, List.cons_append] at h
  rw [windowDigits, h, windowDigits, List.append_assoc, List.cons_append]

end Window

/-- How the window of a digit ends: `d` and the `bits` after it, where the digits added up to `total` before. -/
structure WindowEnds (len : ℕ) (total d : ℤ) (bits : List ℤ) : Prop where
  digit : IsDigit d
  isBits : IsBits bits
  length_eq : bits.length = len
  cleared : ∃ rest, value bits = 16 * rest ∧ (len < 5 → rest = 0)
  value_eq : d + 2 * value bits = total ∨ d + 2 * value bits = total - 2 ^ (len + 1) ∧ value bits = 0
  value_of_le : total ≤ 2 ^ len → d + 2 * value bits = total

/-- The digits after a window of which nothing is left are as they are. -/
theorem windowEnds_of_cleared {d : ℤ} {b : ℕ} {bits : List ℤ} (hd : IsDigit d) (hbits : IsBits bits) (hb : 1 ≤ b)
    (hcleared : 5 ≤ b ∨ bits = []) :
    WindowEnds (b - 1 + bits.length) (d + 2 ^ b * value bits) d (List.replicate (b - 1) 0 ++ bits) := by
  have hvalue : value (List.replicate (b - 1) 0 ++ bits) = 2 ^ (b - 1) * value bits := by
    rw [value_append, value_zeros, List.length_replicate, zero_add]
  have htotal : d + 2 * value (List.replicate (b - 1) 0 ++ bits) = d + 2 ^ b * value bits := by
    rw [hvalue, ← mul_assoc, ← pow_succ', Nat.sub_add_cancel hb]
  refine ⟨hd, (isBits_zeros _).append hbits, by simp, ?_, Or.inl htotal, fun _ => htotal⟩
  rw [hvalue]
  rcases hcleared with hcleared | rfl
  · refine ⟨2 ^ (b - 5) * value bits, ?_, ?_⟩
    · rw [← mul_assoc, show (16 : ℤ) = 2 ^ 4 from rfl, ← pow_add, show 4 + (b - 5) = b - 1 by omega]
    · intro hlen
      have hnil : bits = [] := List.eq_nil_of_length_eq_zero (by omega)
      rw [hnil, value, mul_zero]
  · exact ⟨0, by simp [value], fun _ => rfl⟩

/-- A window, from one of its bits on. -/
theorem window_ends {pre bits : List ℤ} {d : ℤ} {b n : ℕ} (hb : 1 ≤ b) (hn : b + n = 6) (hd : IsDigit d) (hlt : d < 2 ^ b)
    (hbits : IsBits bits) (hlen : pre.length + b + bits.length = 256) : ∃ d' bits',
      window pre.length (List.range' b n) (windowDigits pre d b bits) = some (pre ++ d' :: bits') ∧
        WindowEnds (b - 1 + bits.length) (d + 2 ^ b * value bits) d' bits' := by
  induction n generalizing b d bits with
  | zero => exact ⟨d, _, rfl, windowEnds_of_cleared hd hbits hb (Or.inl (by omega))⟩
  | succ n ih =>
    rw [List.range'_succ, window]
    rcases bits with _ | ⟨bit, bits⟩
    · -- The end of the digits.
      rw [List.length_nil] at hlen
      rw [if_pos (by omega)]
      exact ⟨d, _, rfl, windowEnds_of_cleared hd hbits hb (Or.inr rfl)⟩
    obtain ⟨hbit, hbits'⟩ := isBits_cons.1 hbits
    rw [List.length_cons] at hlen
    rw [if_neg (by omega), windowDigits_bit hb, Option.bind_eq_bind, Option.bind_some]
    have hcount : b + 1 - 1 + bits.length = b - 1 + (bit :: bits).length := by
      rw [List.length_cons]
      omega
    have hpow : (2 : ℤ) ^ b % 2 = 0 ∧ 2 ≤ (2 : ℤ) ^ b ∧ (2 : ℤ) ^ b ≤ 32 ∧ (b ≤ 4 → (2 : ℤ) ^ b ≤ 16) := by
      have hb5 : b ≤ 5 := by omega
      interval_cases b <;> simp
    rcases hbit with rfl | rfl
    · rw [shl_zero, if_pos rfl, windowDigits_zero hb]
      obtain ⟨d', bits', hwindow, hends⟩ := ih (b := b + 1) (by omega) (by omega) hd (by rw [pow_succ]; omega) hbits' (by omega)
      refine ⟨d', bits', hwindow, ?_⟩
      rw [hcount, show d + 2 ^ (b + 1) * value bits = d + 2 ^ b * value (0 :: bits) by rw [value, pow_succ]; ring] at hends
      exact hends
    obtain ⟨hodd, hlow, hhigh⟩ := hd
    rw [shl_one (by omega), if_neg (by omega), windowDigits_digit, Option.bind_eq_bind, Option.bind_some,
      i8_eq_some (by omega), Option.bind_some]
    by_cases hadd : d + 2 ^ b ≤ 15
    · rw [if_pos hadd, set_windowDigits, set_bit_windowDigits hb]
      obtain ⟨d', bits', hwindow, hends⟩ := ih (b := b + 1) (d := d + 2 ^ b) (by omega) (by omega)
        ⟨by omega, by omega, hadd⟩ (by rw [pow_succ]; omega) hbits' (by omega)
      refine ⟨d', bits', hwindow, ?_⟩
      rw [hcount, show d + 2 ^ b + 2 ^ (b + 1) * value bits = d + 2 ^ b * value (1 :: bits) by rw [value, pow_succ]; ring] at hends
      exact hends
    rw [if_neg hadd, i8_eq_some (by omega), Option.bind_some]
    by_cases hsub : -15 ≤ d - 2 ^ b
    · have hincrement : increment (1 :: bits) = 0 :: increment bits := by rw [increment, if_neg one_ne_zero]
      rw [if_pos hsub, set_windowDigits, carry_windowDigits hb (by rw [List.length_cons]; omega), Option.bind_some, hincrement,
        windowDigits_zero hb]
      obtain ⟨d', bits', hwindow, hends⟩ := ih (b := b + 1) (d := d - 2 ^ b) (by omega) (by omega)
        ⟨by omega, hsub, by omega⟩ (by rw [pow_succ]; omega) hbits'.increment (by rw [length_increment]; omega)
      refine ⟨d', bits', hwindow, ?_⟩
      rw [length_increment, hcount] at hends
      rcases hbits'.value_increment with hvalue | ⟨hones, hzeros⟩
      · rw [hvalue, show d - 2 ^ b + 2 ^ (b + 1) * (value bits + 1) = d + 2 ^ b * value (1 :: bits) by
          rw [value, pow_succ]; ring] at hends
        exact hends
      · -- The carry falls off: all of the bits were set, and none is now.
        have hlen' : b - 1 + (1 :: bits).length = b + bits.length := by
          rw [List.length_cons]
          omega
        have htotal : d + 2 ^ b * value (1 :: bits) = d - 2 ^ b + 2 ^ (b + bits.length + 1) := by
          rw [value, hones, pow_succ, pow_add]
          ring
        rw [hzeros, value_zeros, mul_zero, add_zero, hlen'] at hends
        rw [htotal, hlen']
        have hpow' : (2 : ℤ) ^ b ≤ 2 ^ (b + bits.length) := pow_le_pow_right₀ one_le_two (by omega)
        have hvalue := hends.value_of_le (by omega)
        obtain ⟨rest, hrest, -⟩ := hends.cleared
        obtain ⟨-, hlow', hhigh'⟩ := hends.digit
        refine ⟨hends.digit, hends.isBits, hends.length_eq, hends.cleared, Or.inr ⟨by rw [hvalue]; ring, by omega⟩, ?_⟩
        intro hle
        -- With the last bit clear, no digit is both not positive and subtracted from.
        exfalso
        rw [pow_succ] at hle
        omega
    · rw [if_neg hsub]
      exact ⟨d, _, rfl, windowEnds_of_cleared ⟨hodd, hlow, hhigh⟩ hbits hb (Or.inl (by omega))⟩

/-- How the digits from one on end, where they were `bits`. -/
structure SlideEnds (bits digits : List ℤ) : Prop where
  length_eq : digits.length = bits.length
  digit : ∀ d ∈ digits, d = 0 ∨ IsDigit d
  value_eq : value digits = value bits ∨ value digits = value bits - 2 ^ bits.length
  value_of_le : value bits ≤ 2 ^ (bits.length - 1) → value digits = value bits

theorem slideEnds_zero {bits digits : List ℤ} (h : SlideEnds bits digits) : SlideEnds (0 :: bits) (0 :: digits) := by
  refine ⟨by rw [List.length_cons, h.length_eq, List.length_cons], ?_, ?_, ?_⟩
  · intro d hd
    rcases List.mem_cons.1 hd with rfl | hd
    · exact Or.inl rfl
    · exact h.digit d hd
  · rw [value, value, List.length_cons, pow_succ]
    rcases h.value_eq with he | he
    · exact Or.inl (by rw [he])
    · exact Or.inr (by rw [he]; ring)
  · rw [value, value, List.length_cons, Nat.add_sub_cancel]
    intro hle
    rcases bits with _ | ⟨bit, bits⟩
    · rw [List.eq_nil_of_length_eq_zero h.length_eq]
    · rw [h.value_of_le]
      rw [List.length_cons, pow_succ] at hle
      rw [List.length_cons, Nat.add_sub_cancel]
      omega

/-- A window, followed by the digits after it. -/
theorem slideEnds_window {bits bits' digits : List ℤ} {d : ℤ} (hwindow : WindowEnds bits.length (1 + 2 * value bits) d bits')
    (h : SlideEnds bits' digits) : SlideEnds (1 :: bits) (d :: digits) := by
  have hlen := hwindow.length_eq
  have hzero : value bits' = 0 → value digits = 0 := by
    intro hzero
    rw [h.value_of_le, hzero]
    rw [hzero]
    positivity
  refine ⟨by rw [List.length_cons, h.length_eq, hlen, List.length_cons], ?_, ?_, ?_⟩
  · intro e he
    rcases List.mem_cons.1 he with rfl | he
    · exact Or.inr hwindow.digit
    · exact h.digit e he
  · rw [value, value, List.length_cons]
    rcases hwindow.value_eq with htotal | ⟨htotal, hcleared⟩
    · rcases h.value_eq with he | he
      · exact Or.inl (by rw [he, htotal])
      · exact Or.inr (by rw [he, hlen, pow_succ, ← htotal]; ring)
    · exact Or.inr (by rw [hzero hcleared, ← htotal, hcleared])
  · rw [value, value, List.length_cons, Nat.add_sub_cancel]
    intro hle
    have htotal := hwindow.value_of_le hle
    rw [h.value_of_le, htotal]
    -- The digits of the window are cleared, so what is left is a multiple of 16.
    obtain ⟨rest, hrest, hshort⟩ := hwindow.cleared
    obtain ⟨-, hlow, -⟩ := hwindow.digit
    rw [hlen]
    by_cases hlt : bits.length < 5
    · rw [hrest, hshort hlt]
      positivity
    · obtain ⟨n, hn⟩ := Nat.exists_eq_add_of_le' (Nat.le_of_not_lt hlt)
      rw [hn, show n + 5 - 1 = n + 4 by omega, pow_add]
      rw [hn, pow_add] at hle
      omega

/-- The loop over the digits, from one on. -/
theorem slide_ends {pre bits : List ℤ} (hbits : IsBits bits) (hlen : pre.length + bits.length = 256) :
    ∃ digits, slide bits.length pre.length (pre ++ bits) = some (pre ++ digits) ∧ SlideEnds bits digits := by
  obtain ⟨n, hn⟩ : ∃ n, bits.length = n := ⟨_, rfl⟩
  induction n generalizing pre bits with
  | zero =>
    rw [List.eq_nil_of_length_eq_zero hn]
    exact ⟨[], rfl, rfl, by simp, Or.inl rfl, fun _ => rfl⟩
  | succ n ih =>
    obtain ⟨bit, bits, rfl⟩ := List.exists_cons_of_length_eq_add_one hn
    obtain ⟨hbit, hbits'⟩ := isBits_cons.1 hbits
    rw [List.length_cons] at hlen hn
    have hget : (pre ++ bit :: bits)[pre.length]? = some bit := by simp
    have hnext : ∀ d : ℤ, (pre ++ [d]).length = pre.length + 1 := by simp
    rw [List.length_cons, slide, hget, Option.bind_eq_bind, Option.bind_some]
    rcases hbit with rfl | rfl
    · have hlen' : (pre ++ [0]).length + bits.length = 256 := by
        rw [hnext]
        omega
      obtain ⟨digits, hslide, hends⟩ := ih hbits' hlen' (by omega)
      rw [hnext, List.append_assoc, List.append_assoc] at hslide
      refine ⟨0 :: digits, ?_, slideEnds_zero hends⟩
      rw [if_neg (by simp)]
      exact hslide
    · obtain ⟨d, bits', hwindow, hends⟩ := window_ends (b := 1) (n := 5) (le_refl 1) rfl (d := 1) ⟨rfl, by decide, by decide⟩
        (by decide) hbits'
        (by omega : pre.length + 1 + bits.length = 256)
      rw [Nat.sub_self, Nat.zero_add, pow_one] at hends
      have hlen' : (pre ++ [d]).length + bits'.length = 256 := by
        rw [hnext, hends.length_eq]
        omega
      obtain ⟨digits, hslide, hends'⟩ := ih hends.isBits hlen' (by rw [hends.length_eq]; omega)
      rw [hnext, List.append_assoc, List.append_assoc, hends.length_eq] at hslide
      refine ⟨d :: digits, ?_, slideEnds_window hends hends'⟩
      rw [if_pos one_ne_zero]
      change (window pre.length [1, 2, 3, 4, 5] (pre ++ 1 :: bits)).bind _ = _
      rw [show window pre.length [1, 2, 3, 4, 5] (pre ++ 1 :: bits) = _ from hwindow, Option.bind_some]
      exact hslide

/-! ## The bits and the scalar -/

theorem asBits_eq (scalar : UnreducedScalar) :
    (asBits scalar).map (fun bit => ((bit.toNat : ℕ) : ℤ)) =
      (List.range 256).map fun i => ((scalar.toNat / 2 ^ i % 2 : ℕ) : ℤ) := by
  rw [asBits, List.map_map]
  refine List.map_congr_left ?_
  intro i _
  have hbyte : (scalar.toList.getD (i / 8) 0).toNat = scalar.toNat / 2 ^ (8 * (i / 8)) % 2 ^ 8 := by
    rw [← leNat_div_mod, Bytes.toNat, show (256 : ℕ) = 2 ^ 8 from rfl, ← pow_mul]
  have hshift : (1 &&& (scalar.toList.getD (i / 8) 0 >>> UInt8.ofNat (i % 8))).toNat =
      (scalar.toList.getD (i / 8) 0).toNat / 2 ^ (i % 8) % 2 := by
    rw [UInt8.toNat_and, UInt8.toNat_shiftRight, UInt8.toNat_ofNat', Nat.and_comm]
    change _ &&& 1 = _
    rw [Nat.and_one_is_mod, Nat.shiftRight_eq_div_pow, show i % 8 % 2 ^ 8 % 8 = i % 8 by omega]
  have hbit : scalar.toNat / 2 ^ (8 * (i / 8)) % 2 ^ 8 / 2 ^ (i % 8) % 2 = scalar.toNat / 2 ^ i % 2 := by
    have hsplit : 2 ^ 8 = 2 ^ (i % 8) * 2 ^ (8 - i % 8) := by
      rw [← pow_add]
      congr 1
      omega
    have hdvd : 2 ∣ 2 ^ (8 - i % 8) := dvd_pow_self 2 (by omega)
    rw [hsplit, Nat.mod_mul_right_div_self, Nat.mod_mod_of_dvd _ hdvd, Nat.div_div_eq_div_mul, ← pow_add, Nat.div_add_mod]
  rw [Function.comp_apply, hshift, hbyte, hbit]

theorem value_asBits (scalar : UnreducedScalar) :
    value ((asBits scalar).map fun bit => ((bit.toNat : ℕ) : ℤ)) = scalar.toNat := by
  rw [asBits_eq, List.range_eq_range', value_bits, pow_zero, Nat.div_one, Nat.mod_eq_of_lt]
  have h := scalar.toNat_lt
  rwa [show (256 : ℕ) ^ 32 = 2 ^ 256 by norm_num] at h

theorem isBits_asBits (scalar : UnreducedScalar) : IsBits ((asBits scalar).map fun bit => ((bit.toNat : ℕ) : ℤ)) := by
  rw [asBits_eq]
  intro d hd
  obtain ⟨i, -, rfl⟩ := List.mem_map.1 hd
  omega

theorem mapM_asBits (scalar : UnreducedScalar) :
    (asBits scalar).mapM (fun bit => i8 bit.toNat) = some ((asBits scalar).map fun bit => ((bit.toNat : ℕ) : ℤ)) := by
  have hbits := isBits_asBits scalar
  generalize asBits scalar = bits at hbits ⊢
  induction bits with
  | nil => rfl
  | cons bit bits ih =>
    rw [List.map_cons, isBits_cons] at hbits
    obtain ⟨hbit, hbits⟩ := hbits
    have hrange : -128 ≤ ((bit.toNat : ℕ) : ℤ) ∧ ((bit.toNat : ℕ) : ℤ) ≤ 127 := by omega
    rw [List.mapM_cons, i8_eq_some hrange, ih hbits]
    rfl

/-- `non_adjacent_form` always returns. -/
theorem nonAdjacentForm_ends (scalar : UnreducedScalar) : ∃ digits, nonAdjacentForm scalar = some digits ∧
    SlideEnds ((asBits scalar).map fun bit => ((bit.toNat : ℕ) : ℤ)) digits := by
  have hlen : ((asBits scalar).map fun bit => ((bit.toNat : ℕ) : ℤ)).length = 256 := by simp [asBits]
  have hlen' : ([] : List ℤ).length + ((asBits scalar).map fun bit => ((bit.toNat : ℕ) : ℤ)).length = 256 := by
    rw [hlen]
    rfl
  obtain ⟨digits, hslide, hends⟩ := slide_ends (isBits_asBits scalar) hlen'
  rw [hlen] at hslide
  refine ⟨digits, ?_, hends⟩
  rw [nonAdjacentForm, mapM_asBits]
  exact hslide

theorem precomputedScalars_get {n : ℕ} (hodd : n % 2 = 1) (hlt : n < 16) : PRECOMPUTED_SCALARS[n / 2]? = some (n : Scalar) := by
  rw [PRECOMPUTED_SCALARS, List.getElem?_map, List.getElem?_range (by omega), Option.map_some, show n / 2 * 2 + 1 = n by omega]

theorem recoverStep_eq (recovered : Scalar) {d : ℤ} (h : d = 0 ∨ IsDigit d) :
    recoverStep recovered d = some (d + 2 * recovered) := by
  unfold recoverStep
  rcases lt_trichotomy d 0 with hneg | rfl | hpos
  · obtain ⟨hodd, hlow, -⟩ := h.resolve_left hneg.ne
    have hcast : (((-d).toNat : ℕ) : Scalar) = -(d : Scalar) := by
      rw [← Int.cast_natCast, Int.toNat_of_nonneg (by omega), Int.cast_neg]
    rw [if_neg (by omega), if_pos hneg, i8_eq_some (by omega)]
    simp only [Option.bind_eq_bind, Option.bind_some, precomputedScalars_get (n := (-d).toNat) (by omega) (by omega)]
    rw [hcast]
    congr 1
    ring
  · rw [if_neg (lt_irrefl 0), if_neg (lt_irrefl 0)]
    congr 1
    rw [Int.cast_zero]
    ring
  · obtain ⟨hodd, -, hhigh⟩ := h.resolve_left hpos.ne'
    have hcast : ((d.toNat : ℕ) : Scalar) = (d : Scalar) := by rw [← Int.cast_natCast, Int.toNat_of_nonneg hpos.le]
    rw [if_pos hpos, precomputedScalars_get (n := d.toNat) (by omega) (by omega), hcast]
    change some _ = _
    congr 1
    ring

/-- The slow path recovers what the digits add up to. -/
theorem recover_eq {digits : List ℤ} (h : ∀ d ∈ digits, d = 0 ∨ IsDigit d) : recover digits = some (value digits : Scalar) := by
  unfold recover
  induction digits with
  | nil => simp [value]
  | cons d digits ih =>
    obtain ⟨hd, hdigits⟩ := List.forall_mem_cons.1 h
    rw [List.reverse_cons, List.foldlM_append, ih hdigits, Option.bind_eq_bind, Option.bind_some, List.foldlM_cons,
      recoverStep_eq _ hd, value]
    change some _ = _
    push_cast
    rfl

/-- The last bit is the one the fast path looks at. -/
theorem lastBit_eq_zero_iff (scalar : UnreducedScalar) :
    scalar.toList.getD 31 0 &&& 128 = 0 ↔ scalar.toNat < 2 ^ 255 := by
  have hbyte := leNat_div_mod scalar.toList 31
  have hlt := scalar.toNat_lt
  have hdiv : scalar.toNat / 256 ^ 31 = (scalar.toList.getD 31 0).toNat := by
    rw [← hbyte, Bytes.toNat, Nat.mod_eq_of_lt]
    rw [Bytes.toNat] at hlt
    rw [Nat.div_lt_iff_lt_mul (by norm_num)]
    exact lt_of_lt_of_eq hlt (by norm_num)
  have hlast : ∀ byte : Fin 256, UInt8.ofNat byte &&& 128 = 0 ↔ byte.val < 128 := by decide +kernel
  have hlast := hlast ⟨(scalar.toList.getD 31 0).toNat, UInt8.toNat_lt _⟩
  rw [UInt8.ofNat_toNat] at hlast
  change _ ↔ (scalar.toList.getD 31 0).toNat < 128 at hlast
  rw [hlast, ← hdiv, Nat.div_lt_iff_lt_mul (by norm_num)]
  norm_num

/-- `ref10_slide_scalar_vartime` returns what the digits of `non_adjacent_form` add up to. These are odd where they are not zero and
at most 15, so that no index of `PRECOMPUTED_SCALARS` is out of range, and add up to the value of the 32 bytes, or to `2 ^ 256` less.
The latter is only the case with the last bit set. Nothing overflows, as both return for all 32 bytes, and the fast path agrees
with the slow one. -/
theorem ref10SlideScalarVartime_eq (scalar : UnreducedScalar) : ∃ digits,
    nonAdjacentForm scalar = some digits ∧ digits.length = 256 ∧
    (∀ d ∈ digits, d ≠ 0 → d % 2 = 1 ∧ |d| ≤ 15) ∧
    (∑ i ∈ Finset.range 256, digits.getD i 0 * 2 ^ i = scalar.toNat ∨
      ∑ i ∈ Finset.range 256, digits.getD i 0 * 2 ^ i = scalar.toNat - 2 ^ 256) ∧
    (scalar.toNat < 2 ^ 255 → ∑ i ∈ Finset.range 256, digits.getD i 0 * 2 ^ i = scalar.toNat) ∧
    recover digits = some ((∑ i ∈ Finset.range 256, digits.getD i 0 * 2 ^ i : ℤ) : Scalar) ∧
    ref10SlideScalarVartime scalar = some ((∑ i ∈ Finset.range 256, digits.getD i 0 * 2 ^ i : ℤ) : Scalar) := by
  obtain ⟨digits, hnaf, hends⟩ := nonAdjacentForm_ends scalar
  have hlen : ((asBits scalar).map fun bit => ((bit.toNat : ℕ) : ℤ)).length = 256 := by simp [asBits]
  have hdigits := hends.length_eq
  have hvalue := hends.value_eq
  have hfast := hends.value_of_le
  rw [hlen] at hdigits
  rw [value_asBits, hlen] at hvalue hfast
  have hsum := value_eq_sum digits
  have hrecover := recover_eq hends.digit
  rw [hdigits] at hsum
  rw [hsum] at hvalue hfast hrecover
  refine ⟨digits, hnaf, hdigits, ?_, hvalue, ?_, hrecover, ?_⟩
  · intro d hd hne
    obtain ⟨hodd, hlow, hhigh⟩ := (hends.digit d hd).resolve_left hne
    exact ⟨hodd, abs_le.2 ⟨hlow, hhigh⟩⟩
  · intro hlt
    exact hfast (by exact_mod_cast hlt.le)
  · unfold ref10SlideScalarVartime
    split
    case isTrue hclear =>
      rw [hfast (by exact_mod_cast ((lastBit_eq_zero_iff scalar).1 hclear).le), Scalar.fromBytesModOrder, Int.cast_natCast]
    case isFalse hset =>
      rw [hnaf]
      exact hrecover

theorem nonAdjacentForm_thirtyOne : ∃ digits, nonAdjacentForm (leBytes 32 31) = some digits ∧
    ∑ i ∈ Finset.range 256, digits.getD i 0 * 2 ^ i = 31 := by
  obtain ⟨digits, hnaf, -, -, -, hclear, -⟩ := ref10SlideScalarVartime_eq (leBytes 32 31)
  have htoNat : (leBytes 32 31).toNat = 31 := by decide +kernel
  rw [htoNat] at hclear
  exact ⟨digits, hnaf, hclear (by norm_num)⟩

end UnreducedScalar

end MoneroOxide
