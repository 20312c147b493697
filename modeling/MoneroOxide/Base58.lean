import MoneroOxide.Address

/-!
# Base58, with its panics (`wallet/base58/src/lib.rs`)

The functions of `Base58`, loop by loop. Each index, shift and operation on integers that the source does not check itself panics
where it does in Rust. What is left out is that an allocation may fail.
-/

namespace MoneroOxide

namespace Base58

namespace Checked

/-- A function which returns, or panics. -/
abbrev MayPanic (α : Type) : Type := Except (Failure Empty) α

/-- The most bytes there are in a slice or a vector. -/
def ISIZE_MAX : ℕ := 2 ^ 63 - 1

/-- A panic unless a condition holds. -/
def expect (c : Prop) [Decidable c] (message : String) : MayPanic Unit := if c then .ok () else .error (.panic message)

/-- The product of two `u64` or `usize`. -/
def mul (a b : ℕ) : MayPanic ℕ := do
  expect (a * b < 2 ^ 64) "attempt to multiply with overflow"
  pure (a * b)

/-- The difference of two `usize`. -/
def sub (a b : ℕ) : MayPanic ℕ := do
  expect (b ≤ a) "attempt to subtract with overflow"
  pure (a - b)

/-- `bytes[.. i]` and `bytes[i ..]`. -/
def splitAt (bytes : List UInt8) (i : ℕ) : MayPanic (List UInt8 × List UInt8) := do
  expect (i ≤ bytes.length) "range index out of range for slice"
  pure (bytes.take i, bytes.drop i)

/-- The loop of `encoded_len_for_bytes`. -/
def lenLoop (max i : ℕ) : ℕ := if max = 0 then i else lenLoop (max / ALPHABET_LEN) (i + 1)
termination_by max
decreasing_by exact Nat.div_lt_self (by omega) (by decide)

/-- `encoded_len_for_bytes`. -/
def encodedLenForBytes (bytes : ℕ) : MayPanic ℕ := do
  expect (bytes < 2 ^ 64) "length exceeded 2**64"
  let bits ← mul bytes 8
  if bits = 64 then pure (lenLoop (2 ^ 64 - 1) 0)
  else do
    expect (bits < 64) "attempt to shift left with overflow"
    pure (lenLoop (2 ^ bits - 1) 0)

/-- The loop over the digits of a chunk. -/
def encodeLoop (chunkStr : List UInt8) (i value : ℕ) : MayPanic (List UInt8) :=
  if value = 0 then .ok chunkStr
  else match ALPHABET[value % ALPHABET_LEN]? with
    | some c =>
      if i < chunkStr.length then encodeLoop (chunkStr.set i c) (i + 1) (value / ALPHABET_LEN)
      else .error (.panic "index out of bounds")
    | none => .error (.panic "index out of bounds")
termination_by value
decreasing_by exact Nat.div_lt_self (by omega) (by decide)

/-- The encoding of a chunk. -/
def encodeChunk (chunk : List UInt8) : MayPanic (List UInt8) := do
  let unused ← sub BLOCK_LEN chunk.length
  let fixedLenChunk := List.replicate unused 0 ++ chunk
  let chunkStr ← encodeLoop (List.replicate ENCODED_BLOCK_LEN (ALPHABET.getD 0 0)) 0 (beNat fixedLenChunk)
  let len ← encodedLenForBytes chunk.length
  pure (chunkStr.take len).reverse

/-- `encode`. -/
def encode (bytes : List UInt8) : MayPanic (List UInt8) := do
  let _capacity ← mul ((bytes.length + (BLOCK_LEN - 1)) / BLOCK_LEN) ENCODED_BLOCK_LEN
  let res ← (chunks BLOCK_LEN bytes).mapM encodeChunk
  pure res.flatten

/-- The loop over the characters of a chunk. -/
def sumLoop : ℕ → List UInt8 → MayPanic (Option ℕ)
  | sum, [] => .ok (some sum)
  | sum, thisChar :: chunk =>
    if 2 ^ 64 ≤ sum * ALPHABET_LEN then .ok none
    else match ALPHABET.idxOf? thisChar with
      | none => .ok none
      | some digit => do
        expect (digit < 2 ^ 64) "alphabet len exceeded 2**64"
        if 2 ^ 64 ≤ sum * ALPHABET_LEN + digit then .ok none else sumLoop (sum * ALPHABET_LEN + digit) chunk

/-- The loop over how many bytes a chunk of this many characters may be of. -/
def usedBytesLoop (len : ℕ) : List ℕ → MayPanic (Option ℕ)
  | [] => .ok none
  | i :: is => do
    let encoded ← encodedLenForBytes i
    if encoded = len then .ok (some i) else usedBytesLoop len is

/-- The decoding of a chunk. -/
def decodeChunk (chunk : List UInt8) : MayPanic (Option (List UInt8)) := do
  match ← sumLoop 0 chunk with
  | none => pure none
  | some sum => match ← usedBytesLoop chunk.length ((List.range BLOCK_LEN).map (· + 1)) with
    | none => pure none
    | some usedBytes => do
      let bytes := (leList BLOCK_LEN sum).reverse
      let unusedBytes ← sub BLOCK_LEN usedBytes
      let (unused, used) ← splitAt bytes unusedBytes
      if unused.all (· = 0) then pure (some used) else pure none

/-- The loop over the chunks of a string. -/
def decodeLoop : List UInt8 → List (List UInt8) → MayPanic (Option (List UInt8))
  | res, [] => .ok (some res)
  | res, chunk :: chunks => do
    match ← decodeChunk chunk with
    | none => pure none
    | some bytes => decodeLoop (res ++ bytes) chunks

/-- `decode`. -/
def decode (data : List UInt8) : MayPanic (Option (List UInt8)) := do
  let _capacity ← mul (data.length / ENCODED_BLOCK_LEN) BLOCK_LEN
  decodeLoop [] (chunks ENCODED_BLOCK_LEN data)

/-- `encode_check`. -/
def encodeCheck (Γ : Ctx) (data : List UInt8) : MayPanic (List UInt8) := do
  let (checksum, _) ← splitAt (Γ.keccak256 data).toList CHECKSUM_LEN
  encode (data ++ checksum)

/-- `decode_check`. -/
def decodeCheck (Γ : Ctx) (data : List UInt8) : MayPanic (Option (List UInt8)) := do
  match ← decode data with
  | none => pure none
  | some res =>
    if res.length < CHECKSUM_LEN then pure none
    else do
      let checksumPos ← sub res.length CHECKSUM_LEN
      let (checked, checksum) ← splitAt res checksumPos
      let (expected, _) ← splitAt (Γ.keccak256 checked).toList CHECKSUM_LEN
      if expected ≠ checksum then pure none else pure (some checked)

end Checked

end Base58

end MoneroOxide
