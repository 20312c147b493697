import Mathlib.Algebra.Ring.Nat
import Mathlib.Tactic.Common

/-!
# Unsigned integers of a fixed width

The operators on unsigned integers of `w` bits, as a build that checks for overflows has them: an operand is a natural number below
`2 ^ w`, and an operator whose result does not fit panics, with the text of the panic. A left shift panics if it is by `w` bits or
more, and drops the bits which are shifted out.

For each operator there is one lemma, on when it does not panic and what it returns then.
-/

namespace Checked

/-- `a + b`. -/
def add (w a b : ℕ) : Except String ℕ := if a + b < 2 ^ w then .ok (a + b) else .error "attempt to add with overflow"

/-- `a - b`. -/
def sub (a b : ℕ) : Except String ℕ := if b ≤ a then .ok (a - b) else .error "attempt to subtract with overflow"

/-- `a * b`. -/
def mul (w a b : ℕ) : Except String ℕ := if a * b < 2 ^ w then .ok (a * b) else .error "attempt to multiply with overflow"

/-- `a << k`. -/
def shl (w a k : ℕ) : Except String ℕ :=
  if k < w then .ok (a * 2 ^ k % 2 ^ w) else .error "attempt to shift left with overflow"

/-- `a / b`. -/
def div (a b : ℕ) : Except String ℕ := if b = 0 then .error "attempt to divide by zero" else .ok (a / b)

/-- `a % b`. -/
def rem (a b : ℕ) : Except String ℕ :=
  if b = 0 then .error "attempt to calculate the remainder with a divisor of zero" else .ok (a % b)

/-- `a.div_ceil(b)`: the quotient, and one more if there is a remainder. -/
def divCeil (w a b : ℕ) : Except String ℕ := do
  let d ← div a b
  let r ← rem a b
  if 0 < r then add w d 1 else pure d

variable {w a b k : ℕ}

theorem add_eq (h : a + b < 2 ^ w) : add w a b = .ok (a + b) := if_pos h

theorem sub_eq (h : b ≤ a) : sub a b = .ok (a - b) := if_pos h

theorem mul_eq (h : a * b < 2 ^ w) : mul w a b = .ok (a * b) := if_pos h

/-- A shift of a value which stays within the width drops no bits. -/
theorem shl_eq (hk : k < w) (h : a * 2 ^ k < 2 ^ w) : shl w a k = .ok (a * 2 ^ k) := by
  rw [shl, if_pos hk, Nat.mod_eq_of_lt h]

theorem div_eq (h : 0 < b) : div a b = .ok (a / b) := if_neg (by omega)

theorem rem_eq (h : 0 < b) : rem a b = .ok (a % b) := if_neg (by omega)

/-- The quotient rounded up never overflows. -/
theorem divCeil_eq (ha : a < 2 ^ w) (hb : 0 < b) : divCeil w a b = .ok ((a + b - 1) / b) := by
  have hdiv := Nat.div_add_mod a b
  have hlt := Nat.mod_lt a hb
  rw [divCeil, div_eq hb, rem_eq hb]
  show (if 0 < a % b then add w (a / b) 1 else .ok (a / b)) = _
  split
  · have hle : a / b + 1 ≤ a := by
      have : a / b ≤ b * (a / b) := Nat.le_mul_of_pos_left _ hb
      omega
    have hsum : a + b - 1 = (a % b - 1) + b * (a / b + 1) := by
      rw [Nat.mul_add, Nat.mul_one]
      omega
    have hsmall : (a % b - 1) / b = 0 := Nat.div_eq_of_lt (by omega)
    rw [add_eq (lt_of_le_of_lt hle ha), hsum, Nat.add_mul_div_left _ _ hb, hsmall, Nat.zero_add]
  · have hsum : a + b - 1 = (b - 1) + b * (a / b) := by omega
    have hsmall : (b - 1) / b = 0 := Nat.div_eq_of_lt (by omega)
    rw [hsum, Nat.add_mul_div_left _ _ hb, hsmall, Nat.zero_add]

end Checked
