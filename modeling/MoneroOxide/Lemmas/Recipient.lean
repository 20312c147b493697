import MoneroOxide.Lemmas.Extra
import MoneroOxide.Theorems.Extra
import MoneroOxide.Theorems.Scan

/-!
# The recipient of a payment

Whichever way the transaction key is made, one of the keys in the extra gives the recipient of an output the secret it was made with:
the transaction key, or the additional key of the output. What is encrypted with what is derived from that secret is decrypted with it.
-/

namespace MoneroOxide

variable {Γ : Ctx}

/-! ## Addresses and who they are of -/

/-- An address is one of a pair of keys, for a subaddress or not. -/
structure ViewPair.Derives (pair : ViewPair Γ) (subaddress : Option SubaddressIndex) (addr : Address Γ) : Prop where
  spend : addr.spend = InternalScanner.spendKey pair subaddress
  view : addr.view = pair.view • if addr.isSubaddress then addr.spend else Γ.G
  isSubaddress : addr.isSubaddress = subaddress.isSome

namespace ViewPair

variable (pair : ViewPair Γ) (network : Network)

theorem derives_legacyAddress : pair.Derives none (pair.legacyAddress network) := ⟨rfl, rfl, rfl⟩

theorem derives_legacyIntegratedAddress (paymentId : Bytes 8) :
    pair.Derives none (pair.legacyIntegratedAddress network paymentId) := ⟨rfl, rfl, rfl⟩

theorem derives_subaddress (index : SubaddressIndex) : pair.Derives (some index) (pair.subaddress network index) := ⟨rfl, rfl, rfl⟩

theorem derives_guaranteed (subaddress : Option SubaddressIndex) (paymentId : Option (Bytes 8)) :
    pair.Derives subaddress (({ pair } : GuaranteedViewPair Γ).address network subaddress paymentId) := by
  cases subaddress with
  | none => exact ⟨rfl, rfl, rfl⟩
  | some index => exact ⟨rfl, rfl, rfl⟩

end ViewPair

/-- The pair of keys a payment is received with, for a subaddress or not. The change is to an address of it or, if its view key is
known, to the pair itself. -/
inductive InternalPayment.ReceivedBy (pair : ViewPair Γ) (subaddress : Option SubaddressIndex) : InternalPayment Γ → Prop
  | payment {addr : Address Γ} (amount : UInt64) (h : pair.Derives subaddress addr) : ReceivedBy pair subaddress (.Payment addr amount)
  | addressOnly {addr : Address Γ} (h : pair.Derives subaddress addr) : ReceivedBy pair subaddress (.Change (.AddressOnly addr))
  | standard : ReceivedBy pair subaddress (.Change (.Standard pair subaddress))
  | guaranteed : ReceivedBy pair subaddress (.Change (.Guaranteed { pair } subaddress))

theorem InternalPayment.ReceivedBy.derives {pair : ViewPair Γ} {subaddress : Option SubaddressIndex} {payment : InternalPayment Γ}
    (h : payment.ReceivedBy pair subaddress) : pair.Derives subaddress payment.address := by
  cases h with
  | payment amount h => exact h
  | addressOnly h => exact h
  | standard =>
    cases subaddress with
    | none => exact pair.derives_legacyAddress .Mainnet
    | some index => exact pair.derives_subaddress .Mainnet index
  | guaranteed => exact pair.derives_guaranteed .Mainnet subaddress none

/-! ## What is encrypted -/

theorem toNat_u64Bytes (n : UInt64) : (u64Bytes n).toNat = n.toNat := by
  have := n.toNat_lt
  rw [u64Bytes, Bytes.toNat_leBytes_of_lt (by omega)]

theorem u64Bytes_ofNat (b : Bytes 8) : u64Bytes (UInt64.ofNat b.toNat) = b := by
  have := b.toNat_lt
  rw [u64Bytes, UInt64.toNat_ofNat', Nat.mod_eq_of_lt (by omega), Bytes.leBytes_toNat]

/-- What is encrypted twice with one key is what it was. -/
theorem xorBytes_xorBytes (a b : Bytes 8) : xorBytes (xorBytes a b) b = a := by
  rw [xorBytes, xorBytes, toNat_u64Bytes, UInt64.ofNat_toNat, UInt64.xor_assoc, UInt64.xor_self, UInt64.xor_zero, u64Bytes_ofNat]

/-- The amount is decrypted to what was encrypted, with the mask of the commitment. -/
theorem SharedKeyDerivations.decrypt_compactAmountEncryption (derivations : SharedKeyDerivations) (amount : UInt64) :
    derivations.decrypt Γ (.compact (derivations.compactAmountEncryption Γ amount)) =
      { mask := derivations.commitmentMask Γ, amount } := by
  rw [decrypt, compactAmountEncryption, compactAmountEncryption, u64Bytes_ofNat, xorBytes_xorBytes, toNat_u64Bytes,
    UInt64.ofNat_toNat]

namespace SignableTransaction

variable {t : SignableTransaction Γ}

/-! ## The keys in the extra -/

/-- A key for the output of a position: the transaction key, or the additional key of the output. -/
def KeyFor (t : SignableTransaction Γ) (i : ℕ) (key : Γ.Point) : Prop := key = t.txKeyPub ∨ t.additionalPoints[i]? = some key

theorem toSubaddress_of_hasChangeView {payment : InternalPayment Γ} (h : payment.hasChangeView = true) :
    payment.toSubaddress = false := by
  cases payment with
  | Payment addr amount => cases h
  | Change change =>
    cases change with
    | AddressOnly addr => cases h
    | Standard viewPair subaddress => rfl
    | Guaranteed viewPair subaddress => rfl

theorem toSubaddress_of_not_hasChangeView {payment : InternalPayment Γ} (h : payment.hasChangeView = false) :
    payment.toSubaddress = payment.address.isSubaddress := by
  cases payment with
  | Payment addr amount => rfl
  | Change change =>
    cases change with
    | AddressOnly addr => rfl
    | Standard viewPair subaddress => cases h
    | Guaranteed viewPair subaddress => cases h

/-- Where there are payments to subaddresses and no additional keys, there are one payment, to a subaddress, and the change. -/
theorem Valid.payment_and_change (hv : t.Valid) (hsub : t.hasPaymentsToSubaddresses = true)
    (hkeys : t.shouldUseAdditionalKeys = false) : ∃ addr amount change, addr.isSubaddress = true ∧
      (InternalPayment.Change change).hasChangeView = true ∧
      (t.payments = [.Payment addr amount, .Change change] ∨ t.payments = [.Change change, .Payment addr amount]) := by
  have hpair : t.payments.length = 2 ∧ t.payments.any InternalPayment.hasChangeView = true := by
    simpa [shouldUseAdditionalKeys, hsub] using hkeys
  obtain ⟨first, second, hpayments⟩ := List.length_eq_two.1 hpair.1
  have hview := hpair.2
  have hchange := hv.change_le
  rw [hasPaymentsToSubaddresses] at hsub
  rw [hpayments] at hsub hview hchange ⊢
  cases first with
  | Payment addr amount =>
    cases second with
    | Payment addr' amount' => simp [InternalPayment.hasChangeView] at hview
    | Change change =>
      have hview' : (InternalPayment.Change change).hasChangeView = true := by simpa [InternalPayment.hasChangeView] using hview
      refine ⟨addr, amount, change, ?_, hview', Or.inl rfl⟩
      change (InternalPayment.Payment addr amount).toSubaddress = true
      simpa [toSubaddress_of_hasChangeView hview'] using hsub
  | Change change =>
    cases second with
    | Payment addr amount =>
      have hview' : (InternalPayment.Change change).hasChangeView = true := by simpa [InternalPayment.hasChangeView] using hview
      refine ⟨addr, amount, change, ?_, hview', Or.inr rfl⟩
      change (InternalPayment.Payment addr amount).toSubaddress = true
      simpa [toSubaddress_of_hasChangeView hview'] using hsub
    | Change change' =>
      change 2 ≤ 1 at hchange
      omega

/-- The transaction key has the generator unless one payment, to a subaddress, and the change are all there is. -/
theorem txKeyGenerator_of_not (h : ¬(t.hasPaymentsToSubaddresses = true ∧ t.shouldUseAdditionalKeys = false)) :
    t.txKeyGenerator = Γ.G := by
  rw [txKeyGenerator, if_neg]
  simpa using h

theorem txKeyGenerator_of_pair {addr : Address Γ} {amount : UInt64} {change : ChangeEnum Γ}
    (hsub : t.hasPaymentsToSubaddresses = true) (hkeys : t.shouldUseAdditionalKeys = false)
    (h : t.payments = [.Payment addr amount, .Change change] ∨ t.payments = [.Change change, .Payment addr amount]) :
    t.txKeyGenerator = addr.spend := by
  rw [txKeyGenerator, hsub, hkeys]
  rcases h with h | h
  · rw [h]
    rfl
  · rw [h]
    rfl

/-- The key an output to an address is sent with. -/
def sentKey (t : SignableTransaction Γ) (i : ℕ) (addr : Address Γ) : Scalar :=
  if addr.isSubaddress then t.transactionKeys.2.getD i t.transactionKeys.1 else t.transactionKeys.1

theorem additionalPoints_get {i : ℕ} {payment : InternalPayment Γ} (hi : t.payments[i]? = some payment)
    (hsub : payment.address.isSubaddress = true) (hkeys : t.shouldUseAdditionalKeys = true) :
    t.additionalPoints[i]? = some (t.sentKey i payment.address • payment.address.spend) := by
  have hlt : i < t.transactionKeys.2.length := by
    rw [length_transactionKeys_snd, if_pos hkeys]
    exact (List.getElem?_eq_some_iff.1 hi).1
  have hget : t.transactionKeys.2[i]? = some (t.sentKey i payment.address) := by
    rw [sentKey, if_pos hsub, List.getD_eq_getElem?_getD, List.getElem?_eq_getElem hlt, Option.getD_some]
  have hzip : (t.transactionKeys.2.zip t.payments)[i]? = some (t.sentKey i payment.address, payment) :=
    List.getElem?_zip_eq_some.2 ⟨hget, hi⟩
  rw [additionalPoints, List.getElem?_map, hzip, Option.map_some, if_pos hsub]

/-- The secret of what is sent to an address is that of its recipient for one of the keys. -/
theorem Valid.sentKey_smul_view (hv : t.Valid) {i : ℕ} {payment : InternalPayment Γ} (hi : t.payments[i]? = some payment)
    (hview : payment.hasChangeView = false) {pair : ViewPair Γ} {subaddress : Option SubaddressIndex}
    (hderives : pair.Derives subaddress payment.address) :
    ∃ key, t.KeyFor i key ∧ t.sentKey i payment.address • payment.address.view = pair.view • key := by
  have hmem : payment ∈ t.payments := List.mem_of_getElem? hi
  by_cases hone : t.hasPaymentsToSubaddresses = true ∧ t.shouldUseAdditionalKeys = false
  · -- The one payment, with its spend key for the generator of the transaction key.
    obtain ⟨addr, amount, change, hsub, hchange, hpayments⟩ := hv.payment_and_change hone.1 hone.2
    have hpayment : payment = .Payment addr amount := by
      have hcases : payment = .Payment addr amount ∨ payment = .Change change := by
        rcases hpayments with h | h
        · simpa [h] using hmem
        · simpa [h, or_comm] using hmem
      rcases hcases with h | h
      · exact h
      · rw [h, hchange] at hview
        cases hview
    subst hpayment
    refine ⟨t.txKeyPub, Or.inl rfl, ?_⟩
    rw [hderives.view, sentKey, transactionKeys_snd_of_not hone.2, txKeyPub, txKeyGenerator_of_pair hone.1 hone.2 hpayments,
      Scalar.smul_comm]
    change addr.isSubaddress = true at hsub
    simp [InternalPayment.address, hsub]
  · have hgenerator := txKeyGenerator_of_not hone
    cases hsub : payment.address.isSubaddress with
    | false =>
      refine ⟨t.txKeyPub, Or.inl rfl, ?_⟩
      rw [hderives.view, sentKey, hsub, txKeyPub, hgenerator, Scalar.smul_comm]
      simp
    | true =>
      have hhas : t.hasPaymentsToSubaddresses = true := by
        refine List.any_eq_true.2 ⟨payment, hmem, ?_⟩
        rw [toSubaddress_of_not_hasChangeView hview, hsub]
      have hkeys : t.shouldUseAdditionalKeys = true := by simpa [hhas] using hone
      refine ⟨_, Or.inr (additionalPoints_get hi hsub hkeys), ?_⟩
      rw [hderives.view, if_pos hsub, Scalar.smul_comm]

/-- One of the keys in the extra gives the recipient of an output the secret it was made with. -/
theorem Valid.exists_keyFor (hv : t.Valid) {i : ℕ} {payment : InternalPayment Γ} (hi : t.payments[i]? = some payment)
    {pair : ViewPair Γ} {subaddress : Option SubaddressIndex} (hreceived : payment.ReceivedBy pair subaddress) :
    ∃ key, t.KeyFor i key ∧ t.secrets[i]? = some (pair.view • key) := by
  have hsecret : t.secrets[i]? = some (ecdh t.transactionKeys.1 t.transactionKeys.2 t.txKeyPub i payment) := by
    rw [secrets, List.getElem?_mapIdx, hi, Option.map_some]
  rw [hsecret]
  cases hreceived with
  | payment amount h =>
    obtain ⟨key, hkey, hview⟩ := hv.sentKey_smul_view hi rfl h
    exact ⟨key, hkey, congrArg some hview⟩
  | addressOnly h =>
    obtain ⟨key, hkey, hview⟩ := hv.sentKey_smul_view hi rfl h
    exact ⟨key, hkey, congrArg some hview⟩
  | standard => exact ⟨t.txKeyPub, Or.inl rfl, rfl⟩
  | guaranteed => exact ⟨t.txKeyPub, Or.inl rfl, rfl⟩

/-! ## What is on the blockchain -/

section Get

variable {i : ℕ} {payment : InternalPayment Γ} {secret : Γ.Point} (hi : t.payments[i]? = some payment)
  (hsecret : t.secrets[i]? = some secret) (keyImages : List CompressedPoint)

include hi hsecret

theorem derivations_get : (t.derivations keyImages)[i]? = some (t.derivationsOf keyImages i payment secret) := by
  have hzip : (t.payments.zip t.secrets)[i]? = some (payment, secret) := List.getElem?_zip_eq_some.2 ⟨hi, hsecret⟩
  rw [derivations, List.getElem?_mapIdx, hzip, Option.map_some]

theorem zip_derivations_get :
    (t.payments.zip (t.derivations keyImages))[i]? = some (payment, t.derivationsOf keyImages i payment secret) :=
  List.getElem?_zip_eq_some.2 ⟨hi, derivations_get hi hsecret keyImages⟩

theorem outputList_get :
    (t.outputList keyImages)[i]? = some (t.outputOf payment (t.derivationsOf keyImages i payment secret)) := by
  rw [outputList, List.getElem?_map, zip_derivations_get hi hsecret, Option.map_some]

theorem openings_get : (t.openings keyImages)[i]? =
    some ({ mask := (t.derivationsOf keyImages i payment secret).commitmentMask Γ, amount := t.amountOf payment },
      .compact ((t.derivationsOf keyImages i payment secret).compactAmountEncryption Γ (t.amountOf payment))) := by
  rw [openings, List.getElem?_map, zip_derivations_get hi hsecret, Option.map_some]

/-- The payment ID of the extra is that of the one address which has one. -/
theorem Valid.paymentIdField_eq (hv : t.Valid) {id : Bytes 8} (hid : payment.address.paymentId = some id) :
    t.paymentIdField = some (.Encrypted (xorBytes id (SharedKeyDerivations.paymentIdXor Γ secret))) := by
  have hxor : (t.secrets.map (SharedKeyDerivations.paymentIdXor Γ))[i]? = some (SharedKeyDerivations.paymentIdXor Γ secret) := by
    rw [List.getElem?_map, hsecret, Option.map_some]
  have hmem : (payment, SharedKeyDerivations.paymentIdXor Γ secret) ∈
      t.payments.zip (t.secrets.map (SharedKeyDerivations.paymentIdXor Γ)) :=
    List.mem_of_getElem? (List.getElem?_zip_eq_some.2 ⟨hi, hxor⟩)
  have hcount : (t.payments.zip (t.secrets.map (SharedKeyDerivations.paymentIdXor Γ))).countP
      (fun pair => (pair.1.address.paymentId.map fun id => (id, pair.2)).isSome) ≤ 1 := by
    have hfst : (t.payments.zip (t.secrets.map (SharedKeyDerivations.paymentIdXor Γ))).map Prod.fst = t.payments :=
      List.map_fst_zip (by simp)
    have hle := hv.paymentId_le
    rw [← hfst, List.countP_map] at hle
    simpa [Function.comp_def] using hle
  rw [paymentIdField, Lists.findSome?_of_countP_le_one hcount hmem (by rw [hid]; rfl)]

end Get

end SignableTransaction

end MoneroOxide
