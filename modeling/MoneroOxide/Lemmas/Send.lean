import MoneroOxide.Lemmas.SignableTransaction
import MoneroOxide.Lemmas.Transaction
import MoneroOxide.Send
import MoneroOxide.Theorems.RangeProof

/-!
# The parts of a transaction to be signed

With a supported type of proofs and a payment among the outputs, the parts of a transaction are returned, and are the ones named
here. Their lengths, and so the weight and the fee, do not depend on the order of the inputs and the payments.
-/

namespace MoneroOxide

/-! ## Arithmetic which does not overflow -/

section Arithmetic

variable {ε : Type}

theorem addU64_eq {a b : ℕ} (h : a + b < 2 ^ 64) :
    (addU64 (UInt64.ofNat a) (UInt64.ofNat b) : Except (Failure ε) UInt64) = .ok (UInt64.ofNat (a + b)) := by
  have ha : (UInt64.ofNat a).toNat = a := by rw [UInt64.toNat_ofNat', Nat.mod_eq_of_lt (by omega)]
  have hb : (UInt64.ofNat b).toNat = b := by rw [UInt64.toNat_ofNat', Nat.mod_eq_of_lt (by omega)]
  rw [addU64, ha, hb, if_pos h, UInt64.ofNat_add]

theorem subU64_eq {a b : ℕ} (ha : a < 2 ^ 64) (h : b ≤ a) :
    (subU64 (UInt64.ofNat a) (UInt64.ofNat b) : Except (Failure ε) UInt64) = .ok (UInt64.ofNat (a - b)) := by
  have ha' : (UInt64.ofNat a).toNat = a := by rw [UInt64.toNat_ofNat', Nat.mod_eq_of_lt ha]
  have hb' : (UInt64.ofNat b).toNat = b := by rw [UInt64.toNat_ofNat', Nat.mod_eq_of_lt (by omega)]
  have hle : UInt64.ofNat b ≤ UInt64.ofNat a := by rwa [UInt64.le_iff_toNat_le, ha', hb']
  rw [subU64, if_pos hle]
  congr 1
  rw [← UInt64.toNat_inj, UInt64.toNat_sub_of_le _ _ hle, ha', hb', UInt64.toNat_ofNat', Nat.mod_eq_of_lt (by omega)]

theorem unwrapU64_eq {n : ℕ} (h : n < 2 ^ 64) : (unwrapU64 n : Except (Failure ε) UInt64) = .ok (UInt64.ofNat n) := if_pos h

theorem foldlM_addU64 (amounts : List UInt64) (sum : ℕ) (h : sum + (amounts.map UInt64.toNat).sum < 2 ^ 64) :
    (amounts.foldlM addU64 (UInt64.ofNat sum) : Except (Failure ε) UInt64) =
      .ok (UInt64.ofNat (sum + (amounts.map UInt64.toNat).sum)) := by
  induction amounts generalizing sum with
  | nil => rfl
  | cons amount amounts ih =>
    rw [List.map_cons, List.sum_cons] at h ⊢
    have hadd : (addU64 (UInt64.ofNat sum) amount : Except (Failure ε) UInt64) = .ok (UInt64.ofNat (sum + amount.toNat)) := by
      have := addU64_eq (ε := ε) (a := sum) (b := amount.toNat) (by omega)
      rwa [UInt64.ofNat_toNat] at this
    rw [List.foldlM_cons, hadd, Results.ok_bind, ih _ (by omega), Nat.add_assoc]

/-- A sum which is a `u64` is computed as such. -/
theorem sumU64_eq {amounts : List UInt64} (h : (amounts.map UInt64.toNat).sum < 2 ^ 64) :
    (sumU64 amounts : Except (Failure ε) UInt64) = .ok (UInt64.ofNat (amounts.map UInt64.toNat).sum) := by
  have := foldlM_addU64 (ε := ε) amounts 0 (by omega)
  rwa [Nat.zero_add] at this

end Arithmetic

namespace SignableTransaction

variable {Γ : Ctx} {t t' : SignableTransaction Γ}

/-- The types of proofs which are supported. -/
def Supported (t : SignableTransaction Γ) : Prop := t.rctType = .ClsagBulletproof ∨ t.rctType = .ClsagBulletproofPlus

/-- The proofs are Bulletproofs+. -/
def plus (t : SignableTransaction Γ) : Bool := t.rctType == .ClsagBulletproofPlus

/-! ## The outputs -/

/-- The output for a payment. -/
def outputOf (t : SignableTransaction Γ) (payment : InternalPayment Γ) (derivations : SharedKeyDerivations) : Output where
  amount := none
  key := Γ.compress (derivations.sharedKey • Γ.G + payment.address.spend)
  viewTag := if t.plus then some derivations.viewTag else none

/-- The outputs. -/
def outputList (t : SignableTransaction Γ) (keyImages : List CompressedPoint) : List Output :=
  (t.payments.zip (t.derivations keyImages)).map fun pair => t.outputOf pair.1 pair.2

@[simp]
theorem length_outputList (t : SignableTransaction Γ) (keyImages : List CompressedPoint) :
    (t.outputList keyImages).length = t.payments.length := by
  rw [outputList, List.length_map, List.length_zip, length_derivations, Nat.min_self]

theorem outputs_eq (hs : t.Supported) (h : t.HasPayment) (keyImages : List CompressedPoint) :
    t.outputs keyImages = .ok (t.outputList keyImages) := by
  rw [outputs, sharedKeyDerivations_eq h, Results.ok_bind]
  refine Results.mapM_ok fun pair _ => ?_
  rcases hs with hs | hs
  · simp only [output, outputOf, plus, hs]
    rfl
  · simp only [output, outputOf, plus, hs]
    rfl

/-! ## The extra -/

/-- The payment ID of the extra. -/
def paymentIdField (t : SignableTransaction Γ) : Option PaymentId :=
  let xors := t.secrets.map (SharedKeyDerivations.paymentIdXor Γ)
  match (t.payments.zip xors).findSome? fun pair => pair.1.address.paymentId.map fun id => (id, pair.2) with
  | some (id, idXor) => some (.Encrypted (xorBytes id idXor))
  | none =>
    if t.payments.length = 2 then ((t.payments.zip xors).find? fun pair => pair.1.isPayment).map fun pair => .Encrypted pair.2
    else none

/-- A list of the length of the payments, zipped with them, has a payment where they have. -/
theorem HasPayment.find_zip (h : t.HasPayment) {β : Type} (bs : List β) (hlen : bs.length = t.payments.length) :
    ∃ found, (t.payments.zip bs).find? (fun pair => pair.1.isPayment) = some found := by
  obtain ⟨payment, hin, hpayment⟩ := h
  have hmap : (t.payments.zip bs).map Prod.fst = t.payments := List.map_fst_zip hlen.ge
  rw [← hmap] at hin
  obtain ⟨pair, hpair, rfl⟩ := List.mem_map.1 hin
  exact Option.isSome_iff_exists.1 (List.find?_isSome.2 ⟨pair, hpair, hpayment⟩)

theorem paymentIdNonce_eq (h : t.HasPayment) :
    t.paymentIdNonce (t.secrets.map (SharedKeyDerivations.paymentIdXor Γ)) = .ok t.paymentIdField := by
  obtain ⟨found, hfound⟩ := h.find_zip (t.secrets.map (SharedKeyDerivations.paymentIdXor Γ)) (by simp)
  simp only [paymentIdNonce, paymentIdField]
  cases (t.payments.zip (t.secrets.map (SharedKeyDerivations.paymentIdXor Γ))).findSome? fun pair =>
      pair.1.address.paymentId.map fun id => (id, pair.2) with
  | some pair => rfl
  | none =>
    simp only [hfound, Option.map_some]
    split <;> rfl

/-- The nonces of the extra. -/
def nonces (t : SignableTransaction Γ) : List (List UInt8) :=
  t.paymentIdField.toList.map PaymentId.write ++ t.data.map (ARBITRARY_DATA_MARKER :: ·)

/-- The fields of the extra. -/
def extraFields (t : SignableTransaction Γ) : Extra :=
  Extra.new (Γ.compress t.txKeyPub) t.additionalKeysPub ++ t.nonces.map ExtraField.Nonce

theorem foldl_pushNonce {α : Type} (f : α → List UInt8) (as : List α) (extra : Extra) :
    as.foldl (fun extra a => extra.pushNonce (f a)) extra = extra ++ as.map fun a => .Nonce (f a) := by
  induction as generalizing extra with
  | nil => simp
  | cons a as ih =>
    rw [List.foldl_cons, ih, Extra.pushNonce, List.append_assoc]
    rfl

theorem extra_eq (h : t.HasPayment) : t.extra = .ok t.extraFields.write := by
  simp only [extra, transactionKeysPub_eq h, paymentIdXors_eq h, paymentIdNonce_eq h, Results.ok_bind, foldl_pushNonce,
    Results.pure_eq]
  simp only [extraFields, nonces, List.map_append, List.map_map, List.append_assoc, Function.comp_def]

/-- The fields are in the order they are written in. -/
theorem write_extraFields (t : SignableTransaction Γ) : t.extraFields.write = t.extraFields.flatMap ExtraField.write := by
  have hnonces : ∀ kind, ((t.nonces.map ExtraField.Nonce).filter fun field => field.sortOrder = kind) =
      if kind = 2 then t.nonces.map ExtraField.Nonce else [] := by
    intro kind
    rw [List.filter_map, Function.comp_def]
    by_cases hkind : kind = 2
    · simp [hkind, ExtraField.sortOrder]
    · simp [hkind, ExtraField.sortOrder, Ne.symm hkind]
  unfold Extra.write extraFields
  simp only [List.filter_append, hnonces]
  by_cases hempty : t.additionalKeysPub.isEmpty = true
  · simp [Extra.new, hempty, List.range_succ, ExtraField.sortOrder]
  · simp [Extra.new, hempty, List.range_succ, ExtraField.sortOrder]

/-- Whether the extra has a payment ID. -/
def hasPaymentIdField (t : SignableTransaction Γ) : Bool :=
  t.payments.any (fun payment => payment.address.paymentId.isSome) || t.payments.length == 2

theorem isSome_paymentIdField (h : t.HasPayment) : t.paymentIdField.isSome = t.hasPaymentIdField := by
  obtain ⟨found, hfound⟩ := h.find_zip (t.secrets.map (SharedKeyDerivations.paymentIdXor Γ)) (by simp)
  set xors := t.secrets.map (SharedKeyDerivations.paymentIdXor Γ) with hxors
  have hfst : (t.payments.zip xors).map Prod.fst = t.payments := List.map_fst_zip (by simp [hxors])
  have hany : t.payments.any (fun payment => payment.address.paymentId.isSome) =
      ((t.payments.zip xors).findSome? fun pair => pair.1.address.paymentId.map fun id => (id, pair.2)).isSome := by
    rw [List.isSome_findSome?]
    conv_lhs => rw [← hfst, List.any_map]
    simp only [Function.comp_def, Option.isSome_map]
  rw [hasPaymentIdField, hany, paymentIdField, ← hxors]
  cases hid : (t.payments.zip xors).findSome? fun pair => pair.1.address.paymentId.map fun id => (id, pair.2) with
  | some pair => rfl
  | none =>
    simp only [hfound, Option.map_some, Option.isSome_none, Bool.false_or]
    by_cases hlen : t.payments.length = 2
    · simp [hlen]
    · simp [hlen]

/-- The payment ID of the extra is an encrypted one. -/
theorem encrypted_of_paymentIdField {id : PaymentId} (h : t.paymentIdField = some id) : ∃ bytes, id = .Encrypted bytes := by
  unfold paymentIdField at h
  simp only at h
  split at h
  · exact ⟨_, (Option.some.inj h).symm⟩
  · split at h
    · obtain ⟨pair, -, hid⟩ := Option.map_eq_some_iff.1 h
      exact ⟨_, hid.symm⟩
    · cases h

/-- The length of a nonce in the extra. -/
def nonceSize (length : ℕ) : ℕ := 1 + (VarInt.varintLen length + length)

/-- The length of the extra. -/
def extraLength (t : SignableTransaction Γ) : ℕ :=
  33 + (if t.shouldUseAdditionalKeys then 1 + (VarInt.varintLen t.payments.length + t.payments.length * 32) else 0) +
    (if t.hasPaymentIdField then nonceSize 9 else 0) + (t.data.map fun part => nonceSize (part.length + 1)).sum

theorem length_write_nonce (nonce : List UInt8) : (ExtraField.write (.Nonce nonce)).length = nonceSize nonce.length := by
  have hbyte : (nonce.map fun byte => (ExtraField.writeByte byte).length).sum = nonce.length := by
    simp [ExtraField.writeByte]
  rw [ExtraField.write, List.length_append, length_writeVec, hbyte]
  rfl

theorem length_extra (h : t.HasPayment) : t.extraFields.write.length = t.extraLength := by
  have hpos : 0 < t.payments.length := by
    obtain ⟨payment, hin, -⟩ := h
    exact List.length_pos_of_mem hin
  have hkeys : ((Extra.new (Γ.compress t.txKeyPub) t.additionalKeysPub).map fun field => field.write.length).sum =
      33 + if t.shouldUseAdditionalKeys then 1 + (VarInt.varintLen t.payments.length + t.payments.length * 32) else 0 := by
    have hlen := length_additionalKeysPub t
    cases hshould : t.shouldUseAdditionalKeys with
    | false =>
      rw [hshould, if_neg Bool.false_ne_true, List.length_eq_zero_iff] at hlen
      simp [Extra.new, hlen, ExtraField.write]
    | true =>
      rw [hshould, if_pos rfl] at hlen
      have hne : t.additionalKeysPub.isEmpty = false := by
        rw [List.isEmpty_eq_false_iff]
        intro hnil
        rw [hnil, List.length_nil] at hlen
        omega
      have hpoints : (t.additionalKeysPub.map fun _ => 32).sum = t.payments.length * 32 := by
        rw [List.map_const', List.sum_replicate, smul_eq_mul, hlen]
      simp only [Extra.new, hne, Bool.false_eq_true, if_false, if_true, List.map_cons, List.map_nil, List.sum_cons, List.sum_nil,
        ExtraField.write, List.length_append, CompressedPoint.length_write, length_writeVec, hpoints, hlen, List.length_singleton]
      omega
  have hid : (t.paymentIdField.toList.map fun id => nonceSize id.write.length).sum =
      if t.hasPaymentIdField then nonceSize 9 else 0 := by
    rw [← isSome_paymentIdField h]
    cases hfield : t.paymentIdField with
    | none => rfl
    | some id =>
      obtain ⟨bytes, rfl⟩ := encrypted_of_paymentIdField hfield
      simp [PaymentId.write]
  rw [write_extraFields, List.length_flatMap, extraFields, List.map_append, List.sum_append, hkeys, nonces, List.map_map,
    Function.comp_def, extraLength]
  simp only [length_write_nonce, List.map_append, List.map_map, List.sum_append, Function.comp_def, hid, List.length_cons]
  omega

/-! ## The weight -/

/-- The point whose bytes `weight_and_necessary_fee` pushes. -/
def dummyKey : CompressedPoint := ⟨dummyPoint, rfl⟩

theorem write_zero : (0 : Scalar).write = dummyScalar := by
  rw [Scalar.write, Scalar.toBytes, ZMod.val_zero]
  rfl

theorem dummyLR_eq (lrLen : ℕ) : dummyLR lrLen = writeVec CompressedPoint.write (List.replicate lrLen dummyKey) := by
  rw [dummyLR, writeVec, List.length_replicate, writeRawVec, List.flatMap, List.map_replicate]
  rfl

/-- The range proof made up is one of the kind and the lengths of the real one. -/
theorem dummyBulletproof_eq (hs : t.Supported) {outputs : ℕ} (hle : outputs ≤ Bulletproof.MAX_COMMITMENTS) :
    ∃ bp, dummyBulletproof t.rctType outputs = .ok bp ∧ bp.isOriginal = !t.plus ∧ bp.LR.1.length = Lengths.lrLen outputs ∧
      bp.LR.2.length = Lengths.lrLen outputs := by
  have hmax : 6 + Bulletproof.padLoop outputs 0 ≤ Bulletproof.MAX_LR := by
    have hpad : Bulletproof.padLoop outputs 0 ≤ 4 := padLoop_le hle 0 (by omega)
    have hten : Bulletproof.MAX_LR = 10 := by decide
    omega
  set points := List.replicate (6 + Bulletproof.padLoop outputs 0) dummyKey with hpoints
  have hlength : points.length = 6 + Bulletproof.padLoop outputs 0 := List.length_replicate
  rcases hs with hs | hs
  · set bp : Bulletproof := .original
      { A := dummyKey, S := dummyKey, T1 := dummyKey, T2 := dummyKey, tauX := 0, mu := 0, tHat := 0,
        ip := { L := points, R := points, a := 0, b := 0 } }
    have hbytes : (List.replicate 4 dummyPoint).flatten ++ (List.replicate 2 dummyScalar).flatten ++
        (List.replicate 2 (dummyLR (6 + Bulletproof.padLoop outputs 0))).flatten ++ (List.replicate 3 dummyScalar).flatten =
          bp.write ++ [] := by
      rw [dummyLR_eq, ← hpoints]
      simp only [bp, Bulletproof.write, Bulletproof.writeCore, write_zero]
      simp [List.replicate_succ, dummyKey, CompressedPoint.write]
    have hread := (Bulletproof.reads_read.iff (a := bp)).2 ⟨⟨rfl, hlength.trans_le hmax, hlength.trans_le hmax⟩, hbytes⟩
    refine ⟨bp, ?_, by simp [plus, hs, bp, Bulletproof.isOriginal], hlength, hlength⟩
    unfold dummyBulletproof
    simp only [hs, hread]
  · set bp : Bulletproof := .plus
      { A := dummyKey,
        wip := { L := points, R := points, A := dummyKey, B := dummyKey, rAnswer := 0, sAnswer := 0, deltaAnswer := 0 } }
    have hbytes : (List.replicate 3 dummyPoint).flatten ++ (List.replicate 3 dummyScalar).flatten ++
        (List.replicate 2 (dummyLR (6 + Bulletproof.padLoop outputs 0))).flatten = bp.write ++ [] := by
      rw [dummyLR_eq, ← hpoints]
      simp only [bp, Bulletproof.write, Bulletproof.writeCore, write_zero]
      simp [List.replicate_succ, dummyKey, CompressedPoint.write]
    have hread := (Bulletproof.reads_readPlus.iff (a := bp)).2 ⟨⟨rfl, hlength.trans_le hmax, hlength.trans_le hmax⟩, hbytes⟩
    refine ⟨bp, ?_, by simp [plus, hs, bp, Bulletproof.isOriginal], hlength, hlength⟩
    unfold dummyBulletproof
    simp only [hs, hread]

/-- The lengths of the transaction, with a fee of this length. -/
def lengths (t : SignableTransaction Γ) (fee : ℕ) : Lengths where
  plus := t.plus
  inputs := t.inputs.length
  inputsSize := (t.inputs.map fun input => Input.size input.decoys.offsets).sum
  outputs := t.payments.length
  extra := t.extraLength
  fee := fee

/-- The weight of the transaction without its fee. -/
def baseWeight (t : SignableTransaction Γ) : ℕ := (t.lengths 0).baseWeight

theorem plus_reorders (h : Reorders t t') : t'.plus = t.plus := by rw [plus, plus, h.rctType]

theorem extraLength_reorders (h : Reorders t t') : t'.extraLength = t.extraLength := by
  have hid : t'.hasPaymentIdField = t.hasPaymentIdField := by
    rw [hasPaymentIdField, hasPaymentIdField, h.payments.any_eq, h.payments.length_eq]
  rw [extraLength, extraLength, hid, shouldUseAdditionalKeys_reorders h, h.payments.length_eq, h.data]

theorem baseWeight_reorders (h : Reorders t t') : t'.baseWeight = t.baseWeight := by
  have hsize : (t'.inputs.map fun input => Input.size input.decoys.offsets).sum =
      (t.inputs.map fun input => Input.size input.decoys.offsets).sum := (h.inputs.map _).sum_eq
  rw [baseWeight, baseWeight, lengths, lengths, plus_reorders h, hsize, extraLength_reorders h, h.inputs.length_eq,
    h.payments.length_eq]

theorem ringLen_eq (hs : t.Supported) (unsupported : String) : ringLen unsupported t.rctType = .ok (Lengths.ringLen t.plus) := by
  rcases hs with hs | hs
  · rw [hs, plus, hs]
    rfl
  · rw [hs, plus, hs]
    rfl

/-- The lengths which do not depend on the proofs. -/
theorem inputsSize_txInputs {keyImages : List CompressedPoint} (h : t.inputs.length ≤ keyImages.length) :
    ((t.txInputs keyImages).map fun input => input.write.length).sum =
      (t.inputs.map fun input => Input.size input.decoys.offsets).sum := by
  conv_rhs => rw [← List.map_fst_zip h, List.map_map]
  rw [txInputs, List.map_map]
  congr 1
  refine List.map_congr_left fun pair _ => ?_
  exact Input.length_write _ _

theorem length_txInputs {keyImages : List CompressedPoint} (h : keyImages.length = t.inputs.length) :
    (t.txInputs keyImages).length = t.inputs.length := by
  rw [txInputs, List.length_map, List.length_zip, h, Nat.min_self]

theorem output_outputList {keyImages : List CompressedPoint} {output : Output} (h : output ∈ t.outputList keyImages) :
    output.amount = none ∧ output.viewTag.isSome = t.plus := by
  obtain ⟨pair, -, rfl⟩ := List.mem_map.1 h
  refine ⟨rfl, ?_⟩
  cases hplus : t.plus <;> simp [outputOf, hplus]

/-- The shim is a transaction of the same lengths, with a fee of one byte. -/
theorem shim_eq (hs : t.Supported) (h : t.HasPayment) (hle : t.payments.length ≤ Bulletproof.MAX_COMMITMENTS) :
    ∃ shim, t.shim = .ok shim ∧ shim.weight = t.baseWeight + 1 := by
  obtain ⟨bp, hbp, hkind, hL, hR⟩ := dummyBulletproof_eq hs hle
  set keyImages := t.inputs.map fun _ => CompressedPoint.G with hkeyImages
  set clsag : Clsag := { D := CompressedPoint.G, s := List.replicate (Lengths.ringLen t.plus) 0, c1 := 0 } with hclsag
  have hlen : keyImages.length = t.inputs.length := List.length_map _
  have hclsags : t.inputs.mapM (fun _ => do
      let ringLen ← ringLen "internal error: entered unreachable code: unsupported RCT type" t.rctType
      pure { D := CompressedPoint.G, s := List.replicate ringLen 0, c1 := 0 : Clsag }) =
        (.ok (t.inputs.map fun _ => clsag) : Send (List Clsag)) := by
    refine Results.mapM_ok fun input _ => ?_
    rw [ringLen_eq hs]
    rfl
  have hshim : ∃ txPrefix base, t.shim =
      .ok (.V2 txPrefix (some { base, prunable := .Clsag (t.inputs.map fun _ => clsag) keyImages bp : RctProofs })) ∧
      HasLengths (t.lengths 1) txPrefix base (t.inputs.map fun _ => clsag) keyImages bp := by
    refine ⟨{ additionalTimelock := .None, inputs := t.txInputs keyImages, outputs := t.outputList keyImages,
              extra := t.extraFields.write },
      { fee := 0, pseudoOuts := [], encryptedAmounts := t.payments.map fun _ => .compact (Bytes.replicate 8 0),
        commitments := t.payments.map fun _ => CompressedPoint.G }, ?_, ?_⟩
    · rw [shim, hclsags]
      simp only [← hkeyImages, Results.ok_bind, hbp, outputs_eq hs h, extra_eq h]
      rfl
    · exact
        { timelock := rfl
          inputs := length_txInputs hlen
          inputsSize := inputsSize_txInputs hlen.ge
          outputs := length_outputList t keyImages
          output := fun output => output_outputList
          extra := length_extra h
          fee := VarInt.varintLen_of_lt (n := 0) (by decide)
          encryptedAmounts := List.length_map _
          compact := by
            intro amount hamount
            obtain ⟨payment, -, rfl⟩ := List.mem_map.1 hamount
            rfl
          commitments := List.length_map _
          responses := by
            intro clsag hin
            obtain ⟨input, -, rfl⟩ := List.mem_map.1 hin
            exact List.length_replicate
          clsags := List.length_map _
          pseudoOuts := hlen
          kind := hkind
          L := hL
          R := hR }
  obtain ⟨txPrefix, base, hshim, hlengths⟩ := hshim
  exact ⟨_, hshim, hlengths.weight_eq⟩

theorem weightAndNecessaryFee_eq (hs : t.Supported) (h : t.HasPayment) (hle : t.payments.length ≤ Bulletproof.MAX_COMMITMENTS) :
    t.weightAndNecessaryFee = weightAndFeeFor t.feeRate t.baseWeight := by
  obtain ⟨shim, hshim, hweight⟩ := shim_eq hs h hle
  rw [weightAndNecessaryFee, hshim, Results.ok_bind, hweight, Nat.add_sub_cancel]

/-! ## The fee -/

/-- A `u128` saturated to a `u64`. -/
def saturated (n : ℕ) : ℕ := ((tryU64 n).getD (UInt64.ofNat (2 ^ 64 - 1))).toNat

theorem saturated_eq (n : ℕ) : saturated n = min n (2 ^ 64 - 1) := by
  by_cases h : n < 2 ^ 64
  · rw [saturated, tryU64, if_pos h, Option.getD_some, UInt64.toNat_ofNat', Nat.mod_eq_of_lt h]
    omega
  · rw [saturated, tryU64, if_neg h, Option.getD_none, UInt64.toNat_ofNat', Nat.mod_eq_of_lt (by omega)]
    omega

/-- The search finds the first length which the fee for it fits in. -/
theorem findFee_range (fee : ℕ → ℕ) (base : ℕ) (n feeLen : ℕ)
    (h : ∃ k, feeLen ≤ k ∧ k < feeLen + n ∧ VarInt.varintLen (saturated (fee k)) ≤ k) :
    ∃ k, feeLen ≤ k ∧ k < feeLen + n ∧
      findFee base feeLen ((List.range n).map fun i => fee (feeLen + i)) = some (base + k, fee k) ∧
      VarInt.varintLen (saturated (fee k)) ≤ k ∧ ∀ j, feeLen ≤ j → j < k → j < VarInt.varintLen (saturated (fee j)) := by
  induction n generalizing feeLen with
  | zero =>
    obtain ⟨k, hk, hlt, -⟩ := h
    omega
  | succ n ih =>
    have hlist : (List.range (n + 1)).map (fun i => fee (feeLen + i)) =
        fee feeLen :: (List.range n).map fun i => fee (feeLen + 1 + i) := by
      rw [List.range_succ_eq_map, List.map_cons, List.map_map]
      refine congrArg₂ List.cons rfl (List.map_congr_left fun i _ => ?_)
      change fee (feeLen + (i + 1)) = _
      rw [show feeLen + (i + 1) = feeLen + 1 + i by omega]
    by_cases hfits : VarInt.varintLen (saturated (fee feeLen)) ≤ feeLen
    · refine ⟨feeLen, le_rfl, by omega, ?_, hfits, fun j hj hlt => by omega⟩
      rw [hlist, findFee]
      exact if_pos hfits
    · obtain ⟨k, hk, hlt, hle⟩ := h
      have hne : k ≠ feeLen := by
        intro e
        rw [e] at hle
        exact hfits hle
      obtain ⟨k', hk', hlt', hfind, hle', hleast⟩ := ih (feeLen + 1) ⟨k, by omega, by omega, hle⟩
      refine ⟨k', by omega, by omega, ?_, hle', ?_⟩
      · rw [hlist, findFee, ← hfind]
        exact if_neg hfits
      · intro j hj hlt
        rcases Nat.eq_or_lt_of_le hj with rfl | hj
        · omega
        · exact hleast j hj hlt

/-- The length of the encoding of a fee that is chosen: the first which the fee for it fits in. -/
structure ChosenLength (feeRate : FeeRate) (baseWeight k : ℕ) : Prop where
  one_le : 1 ≤ k
  le_ten : k ≤ 10
  fits : VarInt.varintLen (saturated (feeRate.calculateFeeFromWeight (baseWeight + k))) ≤ k
  least : ∀ j, 1 ≤ j → j < k → j < VarInt.varintLen (saturated (feeRate.calculateFeeFromWeight (baseWeight + j)))

/-- The candidates are representable if the heaviest is, and one of them is chosen. -/
theorem weightAndFeeFor_eq (feeRate : FeeRate) {baseWeight : ℕ} (h : baseWeight + 10 < 2 ^ 64) :
    ∃ k, ChosenLength feeRate baseWeight k ∧
      weightAndFeeFor feeRate baseWeight = .ok (baseWeight + k, feeRate.calculateFeeFromWeight (baseWeight + k)) := by
  have hten : VarInt.upperBound 64 = 10 := rfl
  have hlast : VarInt.varintLen (saturated (feeRate.calculateFeeFromWeight (baseWeight + 10))) ≤ 10 := by
    rw [VarInt.varintLen_le_iff (by omega), saturated_eq]
    omega
  obtain ⟨k, hk, hlt, hfind, hle, hleast⟩ :=
    findFee_range (fun k => feeRate.calculateFeeFromWeight (baseWeight + k)) baseWeight 10 1 ⟨10, by omega, by omega, hlast⟩
  refine ⟨k, ⟨hk, by omega, hle, hleast⟩, ?_⟩
  have hfees : ((List.range (VarInt.upperBound 64)).map fun i => baseWeight + (1 + i)).mapM (fun weight => do
      let weight ← u64FromUsize weight "candidate weight exceeded `u64::MAX`"
      pure (feeRate.calculateFeeFromWeight weight.toNat)) =
        (.ok (((List.range (VarInt.upperBound 64)).map fun i => baseWeight + (1 + i)).map feeRate.calculateFeeFromWeight) :
          Send (List ℕ)) := by
    refine Results.mapM_ok fun weight hweight => ?_
    obtain ⟨i, hi, rfl⟩ := List.mem_map.1 hweight
    have hi : i < 10 := List.mem_range.1 hi
    rw [u64FromUsize, if_pos (by omega), Results.ok_bind, UInt64.toNat_ofNat', Nat.mod_eq_of_lt (by omega)]
    rfl
  rw [List.map_map, Function.comp_def, hten] at hfees
  simp only [weightAndFeeFor, hten, hfees, Results.ok_bind, hfind]

/-- A candidate is heavier than is representable if the heaviest is not. -/
theorem lt_of_weightAndFeeFor {feeRate : FeeRate} {baseWeight : ℕ} {chosen : ℕ × ℕ}
    (h : weightAndFeeFor feeRate baseWeight = .ok chosen) : baseWeight + 10 < 2 ^ 64 := by
  unfold weightAndFeeFor at h
  obtain ⟨fees, hfees, -⟩ := Results.bind_eq_ok.1 h
  have hmem : baseWeight + 10 ∈ (List.range (VarInt.upperBound 64)).map fun i => baseWeight + (1 + i) :=
    List.mem_map.2 ⟨9, by decide, rfl⟩
  obtain ⟨fee, hfee⟩ := Lists.exists_of_forall₂ (Results.mapM_eq_ok.1 hfees) hmem
  obtain ⟨weight, hweight, -⟩ := Results.bind_eq_ok.1 hfee
  rw [u64FromUsize] at hweight
  by_contra hge
  rw [if_neg hge] at hweight
  cases hweight

/-- Heavier transactions do not have lower fees. -/
theorem calculateFeeFromWeight_mono (feeRate : FeeRate) {weight weight' : ℕ} (h : weight ≤ weight') :
    feeRate.calculateFeeFromWeight weight ≤ feeRate.calculateFeeFromWeight weight' := by
  have hmul : feeRate.perWeight.toNat * weight ≤ feeRate.perWeight.toNat * weight' := Nat.mul_le_mul_left _ h
  refine Nat.mul_le_mul_right _ (Nat.div_le_div_right ?_)
  omega

/-- A length which the fee for it fits in is not shorter than the one chosen. -/
theorem ChosenLength.le {feeRate : FeeRate} {baseWeight k j : ℕ} (h : ChosenLength feeRate baseWeight k) (hj : 1 ≤ j)
    (hfits : VarInt.varintLen (saturated (feeRate.calculateFeeFromWeight (baseWeight + j))) ≤ j) : k ≤ j := by
  by_contra hlt
  have := h.least j hj (by omega)
  omega

/-! ## What is checked -/

/-- The weight, and the fee for it. -/
def necessary (t : SignableTransaction Γ) : ℕ × ℕ :=
  match weightAndFeeFor t.feeRate t.baseWeight with
  | .ok chosen => chosen
  | .error _ => (0, 0)

/-- What `validate` checks. -/
structure Valid (t : SignableTransaction Γ) : Prop where
  supported : t.Supported
  inputs_ne_nil : t.inputs ≠ []
  keys_nodup : t.KeysNodup
  torsionFree : ∀ input ∈ t.inputs, Γ.TorsionFree input.key
  key_ne_zero : ∀ input ∈ t.inputs, input.key ≠ 0
  ring_length : ∀ input ∈ t.inputs, input.decoys.offsets.length = Lengths.ringLen t.plus
  hasPayment : t.HasPayment
  two_le : 2 ≤ t.payments.length
  change_le : t.payments.countP InternalPayment.isChange ≤ 1
  paymentId_le : t.payments.countP (fun payment => payment.address.paymentId.isSome) ≤ 1
  length_le : t.payments.length ≤ Bulletproof.MAX_COMMITMENTS
  data_le : ∀ part ∈ t.data, part.length ≤ MAX_ARBITRARY_DATA_SIZE
  extra_le : t.extraLength ≤ MAX_EXTRA_SIZE_BY_RELAY_RULE
  fee_ok : weightAndFeeFor t.feeRate t.baseWeight = .ok t.necessary
  inAmount_lt : t.inAmount < 2 ^ 64
  funds : t.paymentsAmount + t.necessary.2 ≤ t.inAmount
  weight_lt : t.necessary.1 < MAX_TX_SIZE

theorem errIf_eq_ok {c : Prop} [Decidable c] {error : SendError} {u : Unit} : errIf c error = .ok u ↔ ¬c := by
  rw [errIf]
  by_cases h : c <;> simp [h]

theorem validateInput_eq_ok (hs : t.Supported) {input : OutputWithDecoys Γ} : validateInput t.rctType input = .ok () ↔
    Γ.TorsionFree input.key ∧ input.key ≠ 0 ∧ input.decoys.offsets.length = Lengths.ringLen t.plus := by
  simp only [validateInput, Results.bind_unit_eq_ok, errIf_eq_ok, ringLen_eq hs, Results.ok_bind, not_not, ne_eq]

theorem validateFunds_eq_ok {necessaryFee : ℕ} : t.validateFunds necessaryFee = .ok () ↔
    t.inAmount < 2 ^ 64 ∧ t.paymentsAmount + necessaryFee ≤ t.inAmount := by
  have htry : ∀ n : ℕ, n < 2 ^ 64 → tryU64 n = some (UInt64.ofNat n) ∧ (UInt64.ofNat n).toNat = n := by
    intro n hn
    exact ⟨if_pos hn, by rw [UInt64.toNat_ofNat', Nat.mod_eq_of_lt hn]⟩
  have hnone : ∀ n : ℕ, ¬n < 2 ^ 64 → tryU64 n = none := fun n hn => if_neg hn
  unfold validateFunds
  simp only
  set out := min (t.paymentsAmount + necessaryFee) (2 ^ 128 - 1) with hout
  by_cases hin : t.inAmount < 2 ^ 64
  · obtain ⟨hin', hinNat⟩ := htry _ hin
    by_cases hout' : out < 2 ^ 64
    · obtain ⟨hout'', houtNat⟩ := htry _ hout'
      have hmin : out = t.paymentsAmount + necessaryFee := by omega
      rw [hin', hout'']
      simp only [UInt64.lt_iff_toNat_lt, hinNat, houtNat]
      by_cases hlt : t.inAmount < out
      · rw [if_pos hlt, u64FromUsize, if_pos (by omega), Results.ok_bind, u64FromUsize, if_pos (by omega), Results.ok_bind]
        simp only [reduceCtorEq, false_iff, not_and]
        omega
      · rw [if_neg hlt]
        simp only [true_iff]
        omega
    · rw [hin', hnone _ hout']
      simp only [reduceCtorEq, false_iff, not_and]
      omega
  · rw [hnone _ hin]
    simp only [reduceCtorEq, false_iff, not_and]
    omega

theorem nodup_iff_length_dedup {α : Type} [DecidableEq α] (as : List α) : as.dedup.length = as.length ↔ as.Nodup := by
  constructor
  · intro h
    rw [← List.dedup_eq_self]
    exact (List.dedup_sublist as).eq_of_length h
  · intro h
    rw [h.dedup]

theorem HasPayment.iff_any : t.HasPayment ↔ t.payments.any InternalPayment.isPayment = true := by
  rw [List.any_eq_true]
  rfl

/-- `validate` accepts what it checks. -/
theorem validate_eq_ok : t.validate = .ok () ↔ t.Valid := by
  have hsupported : ¬(t.rctType ≠ .ClsagBulletproof ∧ t.rctType ≠ .ClsagBulletproofPlus) ↔ t.Supported := by
    rw [not_and_or, not_not, not_not]
    rfl
  have hinputs : t.Supported → (t.validateInputs = .ok () ↔ t.inputs ≠ [] ∧ t.KeysNodup ∧
      ∀ input ∈ t.inputs, Γ.TorsionFree input.key ∧ input.key ≠ 0 ∧ input.decoys.offsets.length = Lengths.ringLen t.plus) := by
    intro hs
    have hnodup := nodup_iff_length_dedup (t.inputs.map fun input => Γ.compress input.key)
    rw [List.length_map] at hnodup
    simp only [validateInputs, Results.bind_unit_eq_ok, errIf_eq_ok, Results.forM_eq_ok, validateInput_eq_ok hs, ne_eq, not_not,
      hnodup, List.isEmpty_iff, KeysNodup]
  have houtputs : t.validateOutputs = .ok () ↔ t.HasPayment ∧ 2 ≤ t.payments.length ∧
      t.payments.countP InternalPayment.isChange ≤ 1 ∧
      t.payments.countP (fun payment => payment.address.paymentId.isSome) ≤ 1 ∧
      t.payments.length ≤ Bulletproof.MAX_COMMITMENTS := by
    simp only [validateOutputs, Results.bind_unit_eq_ok, errIf_eq_ok, Bool.not_eq_true', Bool.not_eq_false, Nat.not_lt,
      HasPayment.iff_any]
  have hdata : t.HasPayment → (t.validateData = .ok () ↔ (∀ part ∈ t.data, part.length ≤ MAX_ARBITRARY_DATA_SIZE) ∧
      t.extraLength ≤ MAX_EXTRA_SIZE_BY_RELAY_RULE) := by
    intro h
    simp only [validateData, Results.bind_unit_eq_ok, errIf_eq_ok, extra_eq h, Results.ok_bind, length_extra h, not_exists, not_and,
      Nat.not_lt]
  have hfee : ∀ chosen, weightAndFeeFor t.feeRate t.baseWeight = .ok chosen → t.necessary = chosen := by
    intro chosen hchosen
    rw [necessary, hchosen]
  simp only [validate, Results.bind_unit_eq_ok, Results.bind_eq_ok (x := t.weightAndNecessaryFee), errIf_eq_ok, hsupported,
    Prod.exists, validateFunds_eq_ok, Nat.not_le]
  constructor
  · intro h
    obtain ⟨hs, hin, hout, hd, weight, fee, hw, hfunds, hlt⟩ := h
    obtain ⟨hne, hnodup, hinput⟩ := (hinputs hs).1 hin
    obtain ⟨hpayment, htwo, hchange, hid, hle⟩ := houtputs.1 hout
    obtain ⟨hpart, hextra⟩ := (hdata hpayment).1 hd
    rw [weightAndNecessaryFee_eq hs hpayment hle] at hw
    have hchosen := hfee _ hw
    exact
      { supported := hs
        inputs_ne_nil := hne
        keys_nodup := hnodup
        torsionFree := fun input hin => (hinput input hin).1
        key_ne_zero := fun input hin => (hinput input hin).2.1
        ring_length := fun input hin => (hinput input hin).2.2
        hasPayment := hpayment
        two_le := htwo
        change_le := hchange
        paymentId_le := hid
        length_le := hle
        data_le := hpart
        extra_le := hextra
        fee_ok := by rw [hw, hchosen]
        inAmount_lt := hfunds.1
        funds := by rw [hchosen]; exact hfunds.2
        weight_lt := by rw [hchosen]; exact hlt }
  · intro h
    refine ⟨h.supported, ?_, ?_, ?_, t.necessary.1, t.necessary.2, ?_, ⟨h.inAmount_lt, h.funds⟩, h.weight_lt⟩
    · exact (hinputs h.supported).2 ⟨h.inputs_ne_nil, h.keys_nodup,
        fun input hin => ⟨h.torsionFree input hin, h.key_ne_zero input hin, h.ring_length input hin⟩⟩
    · exact houtputs.2 ⟨h.hasPayment, h.two_le, h.change_le, h.paymentId_le, h.length_le⟩
    · exact (hdata h.hasPayment).2 ⟨h.data_le, h.extra_le⟩
    · rw [weightAndNecessaryFee_eq h.supported h.hasPayment h.length_le]
      exact h.fee_ok

/-! ## Any order of the inputs and the payments -/

theorem necessary_reorders (h : Reorders t t') : t'.necessary = t.necessary := by
  rw [necessary, necessary, h.feeRate, baseWeight_reorders h]

theorem inAmount_reorders (h : Reorders t t') : t'.inAmount = t.inAmount := (h.inputs.map _).sum_eq

theorem paymentsAmount_reorders (h : Reorders t t') : t'.paymentsAmount = t.paymentsAmount :=
  ((h.payments.filterMap _).map _).sum_eq

/-- What was checked holds in any order. -/
theorem Valid.reorders (hv : t.Valid) (h : Reorders t t') : t'.Valid where
  supported := by
    rw [Supported, h.rctType]
    exact hv.supported
  inputs_ne_nil := by
    intro hnil
    rw [← List.length_eq_zero_iff, h.inputs.length_eq, List.length_eq_zero_iff] at hnil
    exact hv.inputs_ne_nil hnil
  keys_nodup := (h.inputs.map _).nodup_iff.2 hv.keys_nodup
  torsionFree := fun input hin => hv.torsionFree input (h.inputs.mem_iff.1 hin)
  key_ne_zero := fun input hin => hv.key_ne_zero input (h.inputs.mem_iff.1 hin)
  ring_length := fun input hin => by
    rw [plus_reorders h]
    exact hv.ring_length input (h.inputs.mem_iff.1 hin)
  hasPayment := by
    obtain ⟨payment, hin, hpayment⟩ := hv.hasPayment
    exact ⟨payment, h.payments.mem_iff.2 hin, hpayment⟩
  two_le := h.payments.length_eq ▸ hv.two_le
  change_le := h.payments.countP_eq _ ▸ hv.change_le
  paymentId_le := h.payments.countP_eq _ ▸ hv.paymentId_le
  length_le := h.payments.length_eq ▸ hv.length_le
  data_le := h.data ▸ hv.data_le
  extra_le := extraLength_reorders h ▸ hv.extra_le
  fee_ok := by
    rw [necessary_reorders h, h.feeRate, baseWeight_reorders h]
    exact hv.fee_ok
  inAmount_lt := inAmount_reorders h ▸ hv.inAmount_lt
  funds := by
    rw [paymentsAmount_reorders h, necessary_reorders h, inAmount_reorders h]
    exact hv.funds
  weight_lt := necessary_reorders h ▸ hv.weight_lt

theorem Reorders.refl (t : SignableTransaction Γ) : Reorders t t where
  rctType := rfl
  outgoingViewKey := rfl
  inputs := List.Perm.refl _
  payments := List.Perm.refl _
  data := rfl
  feeRate := rfl

theorem shuffle_perm {α : Type} (rng : Rng) (as : List α) : (shuffle (Γ := Γ) rng as).Perm as := by
  have h := Equiv.Perm.ofFn_comp_perm (Γ.shuffle rng as.length) as.get
  rwa [List.ofFn_get] at h

/-- What `new` checks, before it shuffles the payments. -/
def unshuffled (rctType : RctType) (outgoingViewKey : Bytes 32) (inputs : List (OutputWithDecoys Γ))
    (payments : List (Address Γ × UInt64))
    (change : Change Γ) (data : List (List UInt8)) (feeRate : FeeRate) : SignableTransaction Γ where
  rctType := rctType
  outgoingViewKey := outgoingViewKey
  inputs := inputs
  payments := (payments.map fun payment => .Payment payment.1 payment.2) ++ change.toList.map .Change
  data := data
  feeRate := feeRate

/-- `new` returns what it checked, with the payments shuffled. -/
theorem new_eq_ok {rctType : RctType} {outgoingViewKey : Bytes 32} {inputs : List (OutputWithDecoys Γ)}
    {payments : List (Address Γ × UInt64)} {change : Change Γ} {data : List (List UInt8)} {feeRate : FeeRate} :
    SignableTransaction.new rctType outgoingViewKey inputs payments change data feeRate = .ok t ↔
      (unshuffled rctType outgoingViewKey inputs payments change data feeRate).Valid ∧
        t = { unshuffled rctType outgoingViewKey inputs payments change data feeRate with
          payments := shuffle (Γ := Γ)
            ((unshuffled rctType outgoingViewKey inputs payments change data feeRate).seededRng "shuffle_payments")
            (unshuffled rctType outgoingViewKey inputs payments change data feeRate).payments } := by
  simp only [SignableTransaction.new, Results.bind_unit_eq_ok, Results.pure_eq, Except.ok.injEq]
  exact and_congr validate_eq_ok eq_comm

/-- `new` or `read` returned this, so that it was checked. -/
inductive Returned : SignableTransaction Γ → Prop where
  | new {rctType : RctType} {outgoingViewKey : Bytes 32} {inputs : List (OutputWithDecoys Γ)} {payments : List (Address Γ × UInt64)}
      {change : Change Γ} {data : List (List UInt8)} {feeRate : FeeRate} {t : SignableTransaction Γ}
      (h : SignableTransaction.new rctType outgoingViewKey inputs payments change data feeRate = .ok t) : Returned t
  | read {s rest : List UInt8} {t : SignableTransaction Γ} (h : SignableTransaction.read Γ s = .ok (t, rest)) : Returned t

theorem Returned.valid (h : Returned t) : t.Valid := by
  cases h with
  | new h =>
    obtain ⟨hv, rfl⟩ := new_eq_ok.1 h
    exact hv.reorders { Reorders.refl _ with payments := shuffle_perm _ _ }
  | read h =>
    unfold SignableTransaction.read at h
    split at h
    · cases h
    · split at h
      · rename_i hvalidate
        cases h
        exact validate_eq_ok.1 hvalidate
      · cases h
      · cases h

/-! ## The amounts -/

/-- The amount of a payment or of the change. -/
def amountOf (t : SignableTransaction Γ) : InternalPayment Γ → UInt64
  | .Payment _ amount => amount
  | .Change _ => UInt64.ofNat (t.inAmount - (t.paymentsAmount + t.necessary.2))

/-- The fee of the transaction. -/
def feeOf (t : SignableTransaction Γ) : UInt64 :=
  UInt64.ofNat (if t.payments.any InternalPayment.isChange then t.necessary.2 else t.inAmount - t.paymentsAmount)

theorem amountOf_reorders (h : Reorders t t') (payment : InternalPayment Γ) : t'.amountOf payment = t.amountOf payment := by
  cases payment with
  | Payment addr amount => rfl
  | Change change => rw [amountOf, amountOf, inAmount_reorders h, paymentsAmount_reorders h, necessary_reorders h]

theorem feeOf_reorders (h : Reorders t t') : t'.feeOf = t.feeOf := by
  rw [feeOf, feeOf, h.payments.any_eq, necessary_reorders h, inAmount_reorders h, paymentsAmount_reorders h]

theorem Valid.weightAndNecessaryFee_eq (h : t.Valid) : t.weightAndNecessaryFee = .ok t.necessary :=
  (SignableTransaction.weightAndNecessaryFee_eq h.supported h.hasPayment h.length_le).trans h.fee_ok

theorem Valid.chosen (hv : t.Valid) : ∃ k, ChosenLength t.feeRate t.baseWeight k ∧
    t.necessary = (t.baseWeight + k, t.feeRate.calculateFeeFromWeight (t.baseWeight + k)) := by
  obtain ⟨k, hchosen, hfee⟩ := weightAndFeeFor_eq t.feeRate (lt_of_weightAndFeeFor hv.fee_ok)
  exact ⟨k, hchosen, Except.ok.inj (hv.fee_ok.symm.trans hfee)⟩

theorem Valid.necessaryFee_eq (h : t.Valid) : t.necessaryFee = .ok (UInt64.ofNat t.necessary.2) := by
  have hlt : t.necessary.2 < 2 ^ 64 := by
    have hlt := h.inAmount_lt
    have hfunds := h.funds
    omega
  rw [necessaryFee, h.weightAndNecessaryFee_eq, Results.ok_bind]
  exact unwrapU64_eq hlt

theorem Valid.sum_inputs (h : t.Valid) {ε : Type} :
    (sumU64 (t.inputs.map fun input => input.commitment.amount) : Except (Failure ε) UInt64) = .ok (UInt64.ofNat t.inAmount) := by
  have hsum : ((t.inputs.map fun input => input.commitment.amount).map UInt64.toNat).sum = t.inAmount := by
    rw [List.map_map]
    rfl
  rw [sumU64_eq (by rw [hsum]; exact h.inAmount_lt), hsum]

theorem Valid.sum_payments (h : t.Valid) {ε : Type} :
    (sumU64 (t.payments.filterMap InternalPayment.amount?) : Except (Failure ε) UInt64) = .ok (UInt64.ofNat t.paymentsAmount) := by
  have hlt := h.inAmount_lt
  have hfunds := h.funds
  exact sumU64_eq (by rw [paymentsAmount] at hfunds; omega)

theorem Valid.amount_eq (h : t.Valid) (payment : InternalPayment Γ) : t.amount payment = .ok (t.amountOf payment) := by
  have hlt := h.inAmount_lt
  have hfunds := h.funds
  cases payment with
  | Payment addr amount => rfl
  | Change change =>
    simp only [amount, h.sum_inputs, h.sum_payments, h.weightAndNecessaryFee_eq, Results.ok_bind]
    rw [unwrapU64_eq (by omega), Results.ok_bind, addU64_eq (by omega), Results.ok_bind]
    exact subU64_eq hlt hfunds

theorem Valid.fee_eq (h : t.Valid) : t.fee = .ok t.feeOf := by
  have hfunds := h.funds
  rw [fee, feeOf]
  split
  · exact h.necessaryFee_eq
  · rw [h.sum_inputs, Results.ok_bind, h.sum_payments, Results.ok_bind]
    exact subU64_eq h.inAmount_lt (by omega)

/-- The sum of what the outputs get: the payments, and what is left of the inputs for each change output. -/
theorem sum_amountOf (t : SignableTransaction Γ) (payments : List (InternalPayment Γ)) :
    (payments.map fun payment => (t.amountOf payment).toNat).sum =
      ((payments.filterMap InternalPayment.amount?).map UInt64.toNat).sum +
        payments.countP InternalPayment.isChange * (UInt64.ofNat (t.inAmount - (t.paymentsAmount + t.necessary.2))).toNat := by
  induction payments with
  | nil => simp
  | cons payment payments ih =>
    rw [List.map_cons, List.sum_cons, ih]
    cases payment with
    | Payment addr amount =>
      rw [List.filterMap_cons_some (by rfl), List.map_cons, List.sum_cons,
        List.countP_cons_of_neg (by simp [InternalPayment.isChange])]
      simp only [amountOf]
      omega
    | Change change =>
      rw [List.filterMap_cons_none (by rfl), List.countP_cons_of_pos (by simp [InternalPayment.isChange]), Nat.add_mul, Nat.one_mul]
      simp only [amountOf]
      omega

/-- Nothing is created or lost. -/
theorem Valid.conserved (h : t.Valid) :
    (t.payments.map fun payment => (t.amountOf payment).toNat).sum + t.feeOf.toNat = t.inAmount := by
  have hlt := h.inAmount_lt
  have hfunds := h.funds
  have hcount := h.change_le
  rw [sum_amountOf, feeOf, UInt64.toNat_ofNat', UInt64.toNat_ofNat']
  change t.paymentsAmount + _ + _ = _
  by_cases hany : t.payments.any InternalPayment.isChange = true
  · have hpos : 0 < t.payments.countP InternalPayment.isChange := by
      rw [List.countP_pos_iff]
      exact List.any_eq_true.1 hany
    rw [show t.payments.countP InternalPayment.isChange = 1 by omega, if_pos hany, Nat.one_mul, Nat.mod_eq_of_lt (by omega),
      Nat.mod_eq_of_lt (by omega)]
    omega
  · have hzero : t.payments.countP InternalPayment.isChange = 0 := by
      rw [List.countP_eq_zero]
      intro payment hin hchange
      exact hany (List.any_eq_true.2 ⟨payment, hin, hchange⟩)
    rw [hzero, Nat.zero_mul, if_neg hany, Nat.mod_eq_of_lt (by omega)]
    omega

/-! ## The transaction without signatures -/

/-- The openings of the output commitments, and the encrypted amounts. -/
def openings (t : SignableTransaction Γ) (keyImages : List CompressedPoint) : List (Commitment × EncryptedAmount) :=
  (t.payments.zip (t.derivations keyImages)).map fun pair =>
    ({ mask := pair.2.commitmentMask Γ, amount := t.amountOf pair.1 },
      .compact (pair.2.compactAmountEncryption Γ (t.amountOf pair.1)))

@[simp]
theorem length_openings (t : SignableTransaction Γ) (keyImages : List CompressedPoint) :
    (t.openings keyImages).length = t.payments.length := by
  rw [openings, List.length_map, List.length_zip, length_derivations, Nat.min_self]

theorem Valid.commitmentsAndEncryptedAmounts_eq (h : t.Valid) (keyImages : List CompressedPoint) :
    t.commitmentsAndEncryptedAmounts keyImages = .ok (t.openings keyImages) := by
  rw [commitmentsAndEncryptedAmounts, sharedKeyDerivations_eq h.hasPayment, Results.ok_bind]
  refine Results.mapM_ok fun pair _ => ?_
  rw [h.amount_eq, Results.ok_bind]
  rfl

/-- The sum of the masks of the outputs. -/
def maskSum (t : SignableTransaction Γ) (keyImages : List CompressedPoint) : Scalar :=
  ((t.openings keyImages).map fun pair => pair.1.mask).sum

theorem Valid.sumOutputMasks_eq (h : t.Valid) (keyImages : List CompressedPoint) :
    t.sumOutputMasks keyImages = .ok (t.maskSum keyImages) := by
  rw [sumOutputMasks, h.commitmentsAndEncryptedAmounts_eq]
  rfl

/-- The range proof of the outputs is one of the kind and the lengths it was taken to be of. -/
theorem Valid.proveOutputs_eq (h : t.Valid) (keyImages : List CompressedPoint) :
    ∃ bp, t.proveOutputs ((t.openings keyImages).map Prod.fst) = .ok bp ∧ bp.isOriginal = !t.plus ∧
      bp.LR.1.length = Lengths.lrLen t.payments.length ∧ bp.LR.2.length = Lengths.lrLen t.payments.length := by
  set commitments := (t.openings keyImages).map Prod.fst with hcommitments
  have hlen : commitments.length = t.payments.length := by rw [hcommitments, List.length_map, length_openings]
  have hne : commitments ≠ [] := by
    have htwo := h.two_le
    intro hnil
    rw [hnil, List.length_nil] at hlen
    omega
  have hle : commitments.length ≤ Bulletproof.MAX_COMMITMENTS := hlen ▸ h.length_le
  rcases h.supported with hs | hs
  · obtain ⟨proof, rng', statement, hprove, ⟨hL, hR⟩, -⟩ := Bulletproof.prove_spec (Γ := Γ) hne hle (t.seededRng "bulletproof")
    refine ⟨.original proof, ?_, by simp [plus, hs, Bulletproof.isOriginal], ?_, ?_⟩
    · simp only [proveOutputs, hs, hprove]
    · rw [Lengths.lrLen, ← hlen, Nat.add_comm]
      exact hL
    · rw [Lengths.lrLen, ← hlen, Nat.add_comm]
      exact hR
  · obtain ⟨proof, rng', statement, hprove, ⟨hL, hR⟩, -⟩ := Bulletproof.provePlus_spec (Γ := Γ) hne hle (t.seededRng "bulletproof")
    refine ⟨.plus proof, ?_, by simp [plus, hs, Bulletproof.isOriginal], ?_, ?_⟩
    · simp only [proveOutputs, hs, hprove]
    · rw [Lengths.lrLen, ← hlen, Nat.add_comm]
      exact hL
    · rw [Lengths.lrLen, ← hlen, Nat.add_comm]
      exact hR

/-- The prefix of the transaction. -/
def prefixOf (t : SignableTransaction Γ) (keyImages : List CompressedPoint) : TransactionPrefix where
  additionalTimelock := .None
  inputs := t.txInputs keyImages
  outputs := t.outputList keyImages
  extra := t.extraFields.write

/-- The base of the proofs of the transaction. -/
def baseOf (t : SignableTransaction Γ) (keyImages : List CompressedPoint) : RctBase where
  fee := t.feeOf
  pseudoOuts := []
  encryptedAmounts := (t.openings keyImages).map Prod.snd
  commitments := (t.openings keyImages).map fun pair => Γ.compress (pair.1.commit Γ)

/-- The transaction, with CLSAGs and pseudo-outs. -/
def txWith (t : SignableTransaction Γ) (keyImages : List CompressedPoint) (bulletproof : Bulletproof) (clsags : List Clsag)
    (pseudoOuts : List CompressedPoint) : Transaction NotPruned :=
  .V2 (t.prefixOf keyImages)
    (some { base := t.baseOf keyImages, prunable := .Clsag clsags pseudoOuts bulletproof : RctProofs })

/-- Making the transaction does not panic. -/
theorem Valid.transactionWithoutSignatures_eq (h : t.Valid) (keyImages : List CompressedPoint) :
    ∃ bp, SignableTransactionWithKeyImages.transactionWithoutSignatures { intent := t, keyImages } =
        .ok (t.txWith keyImages bp [] []) ∧
      bp.isOriginal = !t.plus ∧ bp.LR.1.length = Lengths.lrLen t.payments.length ∧
      bp.LR.2.length = Lengths.lrLen t.payments.length := by
  obtain ⟨bp, hbp, hkind, hL, hR⟩ := h.proveOutputs_eq keyImages
  refine ⟨bp, ?_, hkind, hL, hR⟩
  simp only [SignableTransactionWithKeyImages.transactionWithoutSignatures, h.commitmentsAndEncryptedAmounts_eq,
    Results.ok_bind, hbp,
    outputs_eq h.supported h.hasPayment, extra_eq h.hasPayment, h.fee_eq, Results.pure_eq]
  rfl

/-- Filling in the signatures changes nothing else. -/
theorem fillIn_txWith (unsupported : String) (keyImages : List CompressedPoint) (bp : Bulletproof)
    (signatures : List (Clsag × CompressedPoint)) :
    fillIn unsupported (t.txWith keyImages bp [] []) signatures =
      .ok (t.txWith keyImages bp (signatures.map Prod.fst) (signatures.map Prod.snd)) := rfl

/-- What is signed. -/
def toSign (t : SignableTransaction Γ) (keyImages : List CompressedPoint) (bulletproof : Bulletproof) : Bytes 32 :=
  ((t.txWith keyImages bulletproof [] []).signatureHash Γ).getD (Bytes.replicate 32 0)

/-- What is signed does not depend on the signatures. -/
theorem signatureHash_txWith (keyImages : List CompressedPoint) (bp : Bulletproof) (clsags : List Clsag)
    (pseudoOuts : List CompressedPoint) :
    (t.txWith keyImages bp clsags pseudoOuts).signatureHash Γ = some (t.toSign keyImages bp) := rfl

/-! ## The inputs in another order -/

section SamePayments

variable (h : Reorders t t') (hpayments : t'.payments = t.payments) (hnodup : t.KeysNodup)

include h hpayments hnodup

theorem extraFields_reorders : t'.extraFields = t.extraFields := by
  have hid : t'.paymentIdField = t.paymentIdField := by
    simp only [paymentIdField, secrets_reorders h hpayments hnodup, hpayments]
  simp only [extraFields, nonces, txKeyPub_reorders h hpayments hnodup, additionalKeysPub_reorders h hpayments hnodup, hid, h.data]

variable {keyImages : List CompressedPoint} (hlen : keyImages.length = t.inputs.length)

include hlen

theorem outputList_reorders : t'.outputList keyImages = t.outputList keyImages := by
  simp only [outputList, outputOf, plus_reorders h, derivations_reorders h hpayments hnodup hlen, hpayments]

theorem openings_reorders : t'.openings keyImages = t.openings keyImages := by
  simp only [openings, derivations_reorders h hpayments hnodup hlen, hpayments, amountOf_reorders h]

end SamePayments

end SignableTransaction

end MoneroOxide
