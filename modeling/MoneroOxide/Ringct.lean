import MoneroOxide.Proofs

/-!
# RingCT (`src/ringct.rs`)

The proofs of a version 2 transaction: a base, which is part of what is signed, and a prunable part. How many elements each list
has, and whether a list is there at all, is not written: the reader is told the length of a ring, the amount of inputs and the
amount of outputs, and the type of the proofs decides the rest. `RctBase.Readable`, `RctPrunable.Readable` and
`RctProofs.Readable` are these conditions.
-/

namespace MoneroOxide

/-- `EncryptedAmount`: an amount as only its receiver can read it. -/
inductive EncryptedAmount where
  | original (mask : Bytes 32) (amount : Bytes 32)
  | compact (amount : Bytes 8)
  deriving DecidableEq

namespace EncryptedAmount

/-- `EncryptedAmount::read`. -/
def read (compact : Bool) : Read EncryptedAmount :=
  if compact = false then do
    let mask ← readBytes 32
    let amount ← readBytes 32
    pure (.original mask amount)
  else do
    let amount ← readBytes 8
    pure (.compact amount)

/-- `EncryptedAmount::write`. -/
def write : EncryptedAmount → List UInt8
  | .original mask amount => mask.toList ++ amount.toList
  | .compact amount => amount.toList

end EncryptedAmount

/-- `RctType`: the type of the RingCT proofs. -/
inductive RctType where
  | AggregateMlsagBorromean
  | MlsagBorromean
  | MlsagBulletproofs
  | MlsagBulletproofsCompactAmount
  | ClsagBulletproof
  | ClsagBulletproofPlus
  deriving DecidableEq, Repr

namespace RctType

/-- `u8::from(RctType)`. -/
def toU8 : RctType → UInt8
  | AggregateMlsagBorromean => 1
  | MlsagBorromean => 2
  | MlsagBulletproofs => 3
  | MlsagBulletproofsCompactAmount => 4
  | ClsagBulletproof => 5
  | ClsagBulletproofPlus => 6

/-- `RctType::try_from(u8)`. -/
def ofU8 (byte : UInt8) : Option RctType :=
  if byte = 1 then some AggregateMlsagBorromean
  else if byte = 2 then some MlsagBorromean
  else if byte = 3 then some MlsagBulletproofs
  else if byte = 4 then some MlsagBulletproofsCompactAmount
  else if byte = 5 then some ClsagBulletproof
  else if byte = 6 then some ClsagBulletproofPlus
  else none

/-- `RctType::compact_encrypted_amounts`. -/
def compactEncryptedAmounts : RctType → Bool
  | AggregateMlsagBorromean | MlsagBorromean | MlsagBulletproofs => false
  | MlsagBulletproofsCompactAmount | ClsagBulletproof | ClsagBulletproofPlus => true

/-- `RctType::bulletproof`. -/
def bulletproof : RctType → Bool
  | MlsagBulletproofs | MlsagBulletproofsCompactAmount | ClsagBulletproof => true
  | AggregateMlsagBorromean | MlsagBorromean | ClsagBulletproofPlus => false

/-- `RctType::bulletproof_plus`. -/
def bulletproofPlus : RctType → Bool
  | ClsagBulletproofPlus => true
  | AggregateMlsagBorromean | MlsagBorromean | MlsagBulletproofs | MlsagBulletproofsCompactAmount | ClsagBulletproof => false

end RctType

/-- `RctBase`: the base of the RingCT proofs. -/
structure RctBase where
  fee : UInt64
  pseudoOuts : List CompressedPoint
  encryptedAmounts : List EncryptedAmount
  commitments : List CompressedPoint
  deriving DecidableEq

namespace RctBase

/-- `RctBase::write`. -/
def write (base : RctBase) (rctType : RctType) : List UInt8 :=
  [rctType.toU8] ++ VarInt.write base.fee.toNat ++
    (if rctType = .MlsagBorromean then writeRawVec CompressedPoint.write base.pseudoOuts else []) ++
    writeRawVec EncryptedAmount.write base.encryptedAmounts ++ writeRawVec CompressedPoint.write base.commitments

/-- The fields of a base, as `RctBase::read` reads them once it has the type of the proofs. -/
def readFields (rctType : RctType) (inputs outputs : ℕ) : Read RctBase := do
  let fee ← VarInt.readU64
  -- The pseudo-outs are part of the base only until Bulletproofs moved them to the prunable part
  let pseudoOuts ← if rctType = .MlsagBorromean then readRawVec CompressedPoint.read inputs else pure []
  let encryptedAmounts ← readRawVec (EncryptedAmount.read rctType.compactEncryptedAmounts) outputs
  let commitments ← readRawVec CompressedPoint.read outputs
  pure { fee, pseudoOuts, encryptedAmounts, commitments }

/-- `RctBase::read`. A type byte of zero is the absence of proofs. -/
def read (inputs outputs : ℕ) : Read (Option (RctType × RctBase)) := do
  let byte ← readByte
  if byte = 0 then pure none
  else match RctType.ofU8 byte with
    | none => throw (.other "invalid RCT type")
    | some rctType =>
      -- There must be one Bulletproof if Bulletproofs are in use, which bans having no outputs
      if (rctType.bulletproof ∨ rctType.bulletproofPlus) ∧ outputs = 0 then
        throw (.other "RCT with Bulletproofs(+) had 0 outputs")
      else (fun base => some (rctType, base)) <$> readFields rctType inputs outputs

end RctBase

/-- `RctPrunable`: the prunable part of the RingCT proofs. -/
inductive RctPrunable where
  | AggregateMlsagBorromean (mlsag : Mlsag) (borromean : List BorromeanRange)
  | MlsagBorromean (mlsags : List Mlsag) (borromean : List BorromeanRange)
  | MlsagBulletproofs (mlsags : List Mlsag) (pseudoOuts : List CompressedPoint) (bulletproof : Bulletproof)
  | MlsagBulletproofsCompactAmount (mlsags : List Mlsag) (pseudoOuts : List CompressedPoint) (bulletproof : Bulletproof)
  | Clsag (clsags : List Clsag) (pseudoOuts : List CompressedPoint) (bulletproof : Bulletproof)
  deriving DecidableEq

namespace RctPrunable

/-- `RctPrunable::write`. The amount of Bulletproofs, always one, takes four bytes or one. -/
def write (prunable : RctPrunable) (rctType : RctType) : List UInt8 :=
  match prunable with
  | AggregateMlsagBorromean mlsag borromean => writeRawVec BorromeanRange.write borromean ++ mlsag.write
  | MlsagBorromean mlsags borromean => writeRawVec BorromeanRange.write borromean ++ writeRawVec Mlsag.write mlsags
  | MlsagBulletproofs mlsags pseudoOuts bulletproof
  | MlsagBulletproofsCompactAmount mlsags pseudoOuts bulletproof =>
    (if rctType = .MlsagBulletproofs then (u32Bytes 1).toList else [1]) ++ bulletproof.write ++
      writeRawVec Mlsag.write mlsags ++ writeRawVec CompressedPoint.write pseudoOuts
  | Clsag clsags pseudoOuts bulletproof =>
    [1] ++ bulletproof.write ++ writeRawVec MoneroOxide.Clsag.write clsags ++ writeRawVec CompressedPoint.write pseudoOuts

/-- `RctPrunable::read`. -/
def read (rctType : RctType) (ringLength inputs outputs : ℕ) : Read RctPrunable :=
  match rctType with
  | .AggregateMlsagBorromean => do
    let borromean ← readRawVec BorromeanRange.read outputs
    if 2 ^ 64 ≤ inputs + 1 then throw (.other "reading a MLSAG for more inputs than representable")
    else do
      let mlsag ← Mlsag.read ringLength (inputs + 1)
      pure (AggregateMlsagBorromean mlsag borromean)
  | .MlsagBorromean => do
    let borromean ← readRawVec BorromeanRange.read outputs
    let mlsags ← readRawVec (Mlsag.read ringLength 2) inputs
    pure (MlsagBorromean mlsags borromean)
  | .MlsagBulletproofs => do
    let amount ← readU32
    if amount.toUInt64 ≠ 1 then throw (.other "n bulletproofs instead of one")
    else do
      let bulletproof ← Bulletproof.read
      let mlsags ← readRawVec (Mlsag.read ringLength 2) inputs
      let pseudoOuts ← readRawVec CompressedPoint.read inputs
      pure (MlsagBulletproofs mlsags pseudoOuts bulletproof)
  | .MlsagBulletproofsCompactAmount => do
    let amount ← VarInt.readU64
    if amount ≠ 1 then throw (.other "n bulletproofs instead of one")
    else do
      let bulletproof ← Bulletproof.read
      let mlsags ← readRawVec (Mlsag.read ringLength 2) inputs
      let pseudoOuts ← readRawVec CompressedPoint.read inputs
      pure (MlsagBulletproofsCompactAmount mlsags pseudoOuts bulletproof)
  | .ClsagBulletproof | .ClsagBulletproofPlus => do
    let amount ← readByte
    if amount ≠ 1 then throw (.other "n bulletproofs instead of one")
    else do
      let bulletproof ← if rctType = .ClsagBulletproof then Bulletproof.read else Bulletproof.readPlus
      let clsags ← readRawVec (MoneroOxide.Clsag.read ringLength) inputs
      let pseudoOuts ← readRawVec CompressedPoint.read inputs
      pure (Clsag clsags pseudoOuts bulletproof)

/-- `RctPrunable::signature_write`: the part of the prunable data that is signed, namely the range proofs. -/
def signatureWrite : RctPrunable → List UInt8
  | AggregateMlsagBorromean _ borromean | MlsagBorromean _ borromean => writeRawVec BorromeanRange.write borromean
  | MlsagBulletproofs _ _ bulletproof | MlsagBulletproofsCompactAmount _ _ bulletproof | Clsag _ _ bulletproof =>
    bulletproof.signatureWrite

end RctPrunable

/-- `RctProofs`: the RingCT proofs. -/
structure RctProofs where
  base : RctBase
  prunable : RctPrunable
  deriving DecidableEq

namespace RctProofs

/-- `RctProofs::rct_type`. -/
def rctType (proofs : RctProofs) : RctType :=
  match proofs.prunable with
  | .AggregateMlsagBorromean .. => .AggregateMlsagBorromean
  | .MlsagBorromean .. => .MlsagBorromean
  | .MlsagBulletproofs .. => .MlsagBulletproofs
  | .MlsagBulletproofsCompactAmount .. => .MlsagBulletproofsCompactAmount
  | .Clsag _ _ bulletproof => if bulletproof.isOriginal then .ClsagBulletproof else .ClsagBulletproofPlus

/-- `RctProofs::write`. -/
def write (proofs : RctProofs) : List UInt8 :=
  proofs.base.write proofs.rctType ++ proofs.prunable.write proofs.rctType

/-- `RctProofs::read`. -/
def read (ringLength inputs outputs : ℕ) : Read (Option RctProofs) := do
  match ← RctBase.read inputs outputs with
  | none => pure none
  | some (rctType, base) => do
    let prunable ← RctPrunable.read rctType ringLength inputs outputs
    pure (some { base, prunable })

end RctProofs

/-- `PrunedRctProofs`: the RingCT proofs without the prunable part. -/
structure PrunedRctProofs where
  rctType : RctType
  base : RctBase
  deriving DecidableEq

/-! ## What the readers read -/

namespace EncryptedAmount

/-- Which of the two forms an encrypted amount has. -/
def isCompact : EncryptedAmount → Bool
  | original .. => false
  | compact .. => true

theorem reads_read (c : Bool) :
    Reader.Reads (EncryptedAmount.read c) (fun amount => amount.isCompact = c) EncryptedAmount.write := by
  intro s amount rest
  cases c <;> cases amount <;> simp [EncryptedAmount.read, EncryptedAmount.write, isCompact]

end EncryptedAmount

namespace RctType

theorem ofU8_eq_some {byte : UInt8} {rctType : RctType} : ofU8 byte = some rctType ↔ byte = rctType.toU8 := by
  constructor
  · intro h
    unfold ofU8 at h
    repeat' split at h
    all_goals simp_all [toU8]
    all_goals subst h; rfl
  · rintro rfl
    cases rctType <;> rfl

theorem toU8_ne_zero (rctType : RctType) : rctType.toU8 ≠ 0 := by cases rctType <;> decide

end RctType

/-- Whether a type of proofs uses Bulletproofs of either kind. -/
def RctType.usesBulletproofs (rctType : RctType) : Prop := rctType.bulletproof = true ∨ rctType.bulletproofPlus = true

/-- The bases read for a type of proofs, an amount of inputs and an amount of outputs. -/
@[mk_iff]
structure RctBase.Readable (rctType : RctType) (inputs outputs : ℕ) (base : RctBase) : Prop where
  outputs_ne_zero : rctType.usesBulletproofs → outputs ≠ 0
  pseudoOuts : base.pseudoOuts.length = if rctType = .MlsagBorromean then inputs else 0
  encryptedAmounts : base.encryptedAmounts.length = outputs
  compact : ∀ amount ∈ base.encryptedAmounts, amount.isCompact = rctType.compactEncryptedAmounts
  commitments : base.commitments.length = outputs

/-- What `RctBase::read` may return: nothing, or a base with the type of the proofs. -/
def RctBase.OptionReadable (inputs outputs : ℕ) : Option (RctType × RctBase) → Prop
  | none => True
  | some (rctType, base) => base.Readable rctType inputs outputs

/-- The encoding of a base that may be absent. -/
def RctBase.writeOption : Option (RctType × RctBase) → List UInt8
  | none => [0]
  | some (rctType, base) => base.write rctType

theorem RctBase.readFields_ok {rctType : RctType} {inputs outputs : ℕ} {s rest : List UInt8} {base : RctBase}
    (hout : rctType.usesBulletproofs → outputs ≠ 0) :
    RctBase.readFields rctType inputs outputs s = .ok base rest ↔
      base.Readable rctType inputs outputs ∧ rctType.toU8 :: s = base.write rctType ++ rest := by
  obtain ⟨fee, pseudoOuts, encryptedAmounts, commitments⟩ := base
  have hpoints := fun n => reads_readRawVec CompressedPoint.reads_read n
  have hamounts := reads_readRawVec (EncryptedAmount.reads_read rctType.compactEncryptedAmounts) outputs
  by_cases h : rctType = .MlsagBorromean
  · subst h
    simp [RctBase.readFields, RctBase.readable_iff, RctBase.write, (hpoints _).iff, hamounts.iff]
    constructor
    · rintro ⟨hs, hps, ⟨hlen, hcompact⟩, hcs⟩
      exact ⟨⟨hout, hps, hlen, hcompact, hcs⟩, hs⟩
    · rintro ⟨⟨-, hps, hlen, hcompact, hcs⟩, hs⟩
      exact ⟨hs, hps, ⟨hlen, hcompact⟩, hcs⟩
  · simp [RctBase.readFields, RctBase.readable_iff, RctBase.write, h, (hpoints _).iff, hamounts.iff]
    constructor
    · rintro ⟨hs, ⟨hlen, hcompact⟩, hcs, hps⟩
      exact ⟨⟨hout, hps, hlen, hcompact, hcs⟩, hs⟩
    · rintro ⟨⟨-, hps, hlen, hcompact, hcs⟩, hs⟩
      exact ⟨hs, ⟨hlen, hcompact⟩, hcs, hps⟩

theorem RctBase.reads_read (inputs outputs : ℕ) :
    Reader.Reads (RctBase.read inputs outputs) (RctBase.OptionReadable inputs outputs) RctBase.writeOption := by
  intro s result rest
  simp only [RctBase.read, Reader.bind_ok, readByte_ok, Reader.ite_ok, Reader.pure_ok]
  constructor
  · rintro ⟨byte, t, rfl, ⟨rfl, rfl, rfl⟩ | ⟨-, h⟩⟩
    · exact ⟨trivial, rfl⟩
    · cases hbyte : RctType.ofU8 byte with
      | none => simp [hbyte] at h
      | some rctType =>
        simp only [hbyte, Reader.ite_ok, Reader.throw_ok, and_false, false_or, Reader.map_ok] at h
        obtain ⟨hout, base, h, rfl⟩ := h
        rw [RctType.ofU8_eq_some] at hbyte
        rw [RctBase.readFields_ok (fun hb h0 => hout ⟨hb, h0⟩)] at h
        exact ⟨h.1, hbyte ▸ h.2⟩
  · rintro ⟨hV, rfl⟩
    cases result with
    | none => exact ⟨0, rest, rfl, Or.inl ⟨rfl, rfl, rfl⟩⟩
    | some result =>
      obtain ⟨rctType, base⟩ := result
      have hV : base.Readable rctType inputs outputs := hV
      obtain ⟨t, ht⟩ : ∃ t, base.write rctType ++ rest = rctType.toU8 :: t := ⟨_, rfl⟩
      refine ⟨rctType.toU8, t, ht, Or.inr ⟨rctType.toU8_ne_zero, ?_⟩⟩
      simp only [RctType.ofU8_eq_some.2 rfl, Reader.ite_ok, Reader.throw_ok, and_false, false_or, Reader.map_ok]
      refine ⟨fun h => hV.outputs_ne_zero h.1 h.2, base, ?_, rfl⟩
      rw [RctBase.readFields_ok hV.outputs_ne_zero]
      exact ⟨hV, ht.symm⟩

/-- The prunable parts read for a type of proofs, the length of a ring, an amount of inputs and an amount of outputs. -/
def RctPrunable.Readable (rctType : RctType) (ringLength inputs outputs : ℕ) : RctPrunable → Prop
  | AggregateMlsagBorromean mlsag borromean =>
    rctType = .AggregateMlsagBorromean ∧ borromean.length = outputs ∧ inputs + 1 < 2 ^ 64 ∧
      mlsag.HasShape ringLength (inputs + 1)
  | MlsagBorromean mlsags borromean =>
    rctType = .MlsagBorromean ∧ borromean.length = outputs ∧ mlsags.length = inputs ∧
      ∀ mlsag ∈ mlsags, mlsag.HasShape ringLength 2
  | MlsagBulletproofs mlsags pseudoOuts bulletproof =>
    rctType = .MlsagBulletproofs ∧ (bulletproof.isOriginal = true ∧ bulletproof.Bounded) ∧
      (mlsags.length = inputs ∧ ∀ mlsag ∈ mlsags, mlsag.HasShape ringLength 2) ∧ pseudoOuts.length = inputs
  | MlsagBulletproofsCompactAmount mlsags pseudoOuts bulletproof =>
    rctType = .MlsagBulletproofsCompactAmount ∧ (bulletproof.isOriginal = true ∧ bulletproof.Bounded) ∧
      (mlsags.length = inputs ∧ ∀ mlsag ∈ mlsags, mlsag.HasShape ringLength 2) ∧ pseudoOuts.length = inputs
  | Clsag clsags pseudoOuts bulletproof =>
    ((rctType = .ClsagBulletproof ∧ bulletproof.isOriginal = true) ∨
        (rctType = .ClsagBulletproofPlus ∧ bulletproof.isOriginal = false)) ∧ bulletproof.Bounded ∧
      (clsags.length = inputs ∧ ∀ clsag ∈ clsags, clsag.s.length = ringLength) ∧ pseudoOuts.length = inputs

theorem RctPrunable.reads_read (rctType : RctType) (ringLength inputs outputs : ℕ) :
    Reader.Reads (RctPrunable.read rctType ringLength inputs outputs)
      (RctPrunable.Readable rctType ringLength inputs outputs) (RctPrunable.write · rctType) := by
  intro s prunable rest
  have hmlsags := reads_readRawVec (Mlsag.reads_read ringLength 2) inputs
  have hborromean := reads_readRawVec BorromeanRange.reads_read outputs
  have hpoints := reads_readRawVec CompressedPoint.reads_read inputs
  have hclsags := reads_readRawVec (Clsag.reads_read ringLength) inputs
  cases rctType with
  | AggregateMlsagBorromean =>
    have hlt : inputs < 18446744073709551615 ↔ inputs + 1 < 18446744073709551616 := by omega
    cases prunable <;>
      simp [RctPrunable.read, RctPrunable.Readable, RctPrunable.write, hborromean.iff, (Mlsag.reads_read _ _).iff, hlt]
    constructor
    · rintro ⟨⟨hb, hs⟩, hm⟩
      exact ⟨⟨hb, hm⟩, hs⟩
    · rintro ⟨⟨hb, hm⟩, hs⟩
      exact ⟨⟨hb, hs⟩, hm⟩
  | MlsagBorromean =>
    cases prunable <;>
      simp [RctPrunable.read, RctPrunable.Readable, RctPrunable.write, hborromean.iff, hmlsags.iff]
    constructor
    · rintro ⟨⟨hb, hs⟩, hm⟩
      exact ⟨⟨hb, hm⟩, hs⟩
    · rintro ⟨⟨hb, hm⟩, hs⟩
      exact ⟨⟨hb, hs⟩, hm⟩
  | MlsagBulletproofs =>
    have hone : ∀ a : UInt32, a.toUInt64 = 1 ↔ a = 1 := by
      intro a
      rw [← UInt64.toNat_inj, ← UInt32.toNat_inj, UInt32.toNat_toUInt64]
      rfl
    cases prunable <;>
      simp [RctPrunable.read, RctPrunable.Readable, RctPrunable.write, reads_readU32.iff, Bulletproof.reads_read.iff,
        hmlsags.iff, hpoints.iff, hone]
    exact and_comm
  | MlsagBulletproofsCompactAmount =>
    have hone : VarInt.write 1 = [1] := VarInt.write_of_lt (by omega)
    cases prunable <;>
      simp [RctPrunable.read, RctPrunable.Readable, RctPrunable.write, Bulletproof.reads_read.iff, hmlsags.iff, hpoints.iff,
        hone]
    exact and_comm
  | ClsagBulletproof =>
    cases prunable <;>
      simp [RctPrunable.read, RctPrunable.Readable, RctPrunable.write, Bulletproof.reads_read.iff, hclsags.iff,
        hpoints.iff]
    constructor
    · rintro ⟨hs, ⟨ho, hb⟩, hrest⟩
      exact ⟨⟨ho, hb, hrest⟩, hs⟩
    · rintro ⟨⟨ho, hb, hrest⟩, hs⟩
      exact ⟨hs, ⟨ho, hb⟩, hrest⟩
  | ClsagBulletproofPlus =>
    cases prunable <;>
      simp [RctPrunable.read, RctPrunable.Readable, RctPrunable.write, Bulletproof.reads_readPlus.iff, hclsags.iff,
        hpoints.iff]
    constructor
    · rintro ⟨hs, ⟨ho, hb⟩, hrest⟩
      exact ⟨⟨ho, hb, hrest⟩, hs⟩
    · rintro ⟨⟨ho, hb, hrest⟩, hs⟩
      exact ⟨hs, ⟨ho, hb⟩, hrest⟩

/-- The proofs read for the length of a ring, an amount of inputs and an amount of outputs. -/
def RctProofs.Readable (ringLength inputs outputs : ℕ) (proofs : RctProofs) : Prop :=
  proofs.base.Readable proofs.rctType inputs outputs ∧
    proofs.prunable.Readable proofs.rctType ringLength inputs outputs

/-- The prunable part read for a type of proofs is of that type. -/
theorem RctPrunable.Readable.rctType_eq {rctType : RctType} {ringLength inputs outputs : ℕ} {base : RctBase}
    {prunable : RctPrunable} (h : prunable.Readable rctType ringLength inputs outputs) :
    RctProofs.rctType { base, prunable } = rctType := by
  cases prunable with
  | Clsag clsags pseudoOuts bulletproof =>
    rcases h.1 with ⟨h, hbp⟩ | ⟨h, hbp⟩ <;> simp [RctProofs.rctType, h, hbp]
  | _ => exact h.1.symm

/-- The encoding of proofs that may be absent. -/
def RctProofs.writeOption : Option RctProofs → List UInt8
  | none => [0]
  | some proofs => proofs.write

theorem RctProofs.reads_read (ringLength inputs outputs : ℕ) :
    Reader.Reads (RctProofs.read ringLength inputs outputs) (fun proofs => ∀ p ∈ proofs, p.Readable ringLength inputs outputs)
      RctProofs.writeOption := by
  intro s result rest
  simp only [RctProofs.read, Reader.bind_ok, (RctBase.reads_read inputs outputs).iff]
  constructor
  · rintro ⟨base, t, ⟨hbase, rfl⟩, h⟩
    cases base with
    | none =>
      obtain ⟨rfl, rfl⟩ := Reader.pure_ok.1 h
      exact ⟨by simp, rfl⟩
    | some base =>
      obtain ⟨rctType, base⟩ := base
      simp only [Reader.bind_ok, Reader.pure_ok, (RctPrunable.reads_read rctType ringLength inputs outputs).iff] at h
      obtain ⟨prunable, u, ⟨hprunable, rfl⟩, rfl, rfl⟩ := h
      have htype : RctProofs.rctType { base, prunable } = rctType := hprunable.rctType_eq
      refine ⟨?_, ?_⟩
      · rintro p ⟨rfl⟩
        rw [RctProofs.Readable, htype]
        exact ⟨hbase, hprunable⟩
      · simp [RctBase.writeOption, RctProofs.writeOption, RctProofs.write, htype]
  · rintro ⟨hV, rfl⟩
    cases result with
    | none => exact ⟨none, rest, ⟨trivial, rfl⟩, Reader.pure_ok.2 ⟨rfl, rfl⟩⟩
    | some proofs =>
      obtain ⟨hbase, hprunable⟩ := hV proofs rfl
      refine ⟨some (proofs.rctType, proofs.base), proofs.prunable.write proofs.rctType ++ rest, ⟨hbase, ?_⟩, ?_⟩
      · simp [RctBase.writeOption, RctProofs.writeOption, RctProofs.write]
      · simp only [Reader.bind_ok, Reader.pure_ok, (RctPrunable.reads_read _ ringLength inputs outputs).iff]
        exact ⟨proofs.prunable, rest, ⟨hprunable, rfl⟩, rfl, rfl⟩

end MoneroOxide
