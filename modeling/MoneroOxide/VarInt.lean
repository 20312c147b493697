import MoneroOxide.Io
import MoneroOxide.Lib.Checked

/-!
# `VarInt::read` with the arithmetic of its types (`io/src/varint.rs`)

`VarInt.read` of `Io` computes with natural numbers. Here each operator of the source is that of the type the source has there, and
panics if it overflows: the count of the bits read is a `usize`, of as many bits as it has on the platform, the value read so far is
a `u64`, and the bound a byte is compared with is shifted as a `u8`.
-/

namespace MoneroOxide

namespace VarInt

/-- `VARINT_CONTINUATION_FLAG`. -/
def VARINT_CONTINUATION_FLAG : UInt8 := 128

/-- `VARINT_VALUE_MASK`. -/
def VARINT_VALUE_MASK : UInt8 := ~~~VARINT_CONTINUATION_FLAG

/-- A platform, by the bits of its `usize`. There is a conversion of every `u16` to a `usize`, and `_NO_128_BIT_PLATFORMS` asserts
that there is one of every `usize` to a `u64`. -/
structure Platform where
  usizeBits : ℕ
  le_usizeBits : 16 ≤ usizeBits
  usizeBits_le : usizeBits ≤ 64

/-- The types `VarInt` is implemented for. -/
inductive IntType where
  | u8
  | u32
  | u64
  | usize
  deriving DecidableEq, Repr

/-- The bits of a type, which are those of its size. -/
def IntType.BITS (platform : Platform) : IntType → ℕ
  | .u8 => 8
  | .u32 => 32
  | .u64 => 64
  | .usize => platform.usizeBits

/-- `VarInt::UPPER_BOUND`. -/
def IntType.UPPER_BOUND (platform : Platform) (T : IntType) : ℕ := upperBound (T.BITS platform)

/-- A function of `r: &mut impl Read` that returns an `io::Result`, unless it panics. -/
abbrev CheckedRead (α : Type) : Type := Reader (Failure IoError) UInt8 α

/-- Whether a byte is of more bits than there are left, with `bits` bits read so far. The right side of `&&` is evaluated only if
the left side holds. -/
def overflows (platform : Platform) (uBits bits : ℕ) (b : UInt8) : Except String Bool := do
  let next ← Checked.add platform.usizeBits bits 7
  if uBits ≤ next then
    let left ← Checked.sub uBits bits
    let bound ← Checked.shl 8 1 left
    pure (decide (bound ≤ b.toNat))
  else pure false

/-- The bits read and their value, after a byte. -/
def accumulate (platform : Platform) (bits res : ℕ) (b : UInt8) : Except String (ℕ × ℕ) := do
  let value ← Checked.shl 64 (b &&& VARINT_VALUE_MASK).toNat bits
  let res ← Checked.add 64 res value
  let bits ← Checked.add platform.usizeBits bits 7
  pure (bits, res)

/-- The loop of `VarInt::read`, with `bits` bits read so far and their value in `res`. -/
def checkedReadLoop (platform : Platform) (uBits : ℕ) : ℕ → ℕ → CheckedRead ℕ
  | _, _, [] => .error (.error .unexpectedEof) []
  | bits, res, b :: s =>
    -- Trailing zero bytes are rejected
    if bits ≠ 0 ∧ b = 0 then .error (.error (.other "non-canonical varint")) s
    else
      match overflows platform uBits bits b with
      | .error message => .error (.panic message) s
      | .ok true => .error (.error (.other "varint overflow")) s
      | .ok false =>
        match accumulate platform bits res b with
        | .error message => .error (.panic message) s
        | .ok (bits, res) =>
          if b &&& VARINT_CONTINUATION_FLAG = VARINT_CONTINUATION_FLAG then checkedReadLoop platform uBits bits res s
          else if res < 2 ^ uBits then .ok res s
          else .error (.error (.other "VarInt does not fit into integer type")) s

/-- `VarInt::read`. -/
def IntType.read (platform : Platform) (T : IntType) : CheckedRead ℕ := checkedReadLoop platform (T.BITS platform) 0 0

end VarInt

end MoneroOxide
