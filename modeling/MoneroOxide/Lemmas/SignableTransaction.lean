import MoneroOxide.Lib.Lists
import MoneroOxide.Lib.Results
import MoneroOxide.SignableTransaction

/-!
# The keys of a transaction

What is drawn for a transaction depends on the inputs but not on their order, as their keys are distinct. With a payment among the
outputs nothing here panics, and each function returns the list of the name given to it here.
-/

namespace MoneroOxide

theorem keyImageSort_linear : Sorting.Linear keyImageSort where
  trans := by
    intro a b c hab hbc
    rw [keyImageSort, decide_eq_true_eq] at hab hbc ⊢
    exact List.le_trans hbc hab
  total := by
    intro a b
    rw [Bool.or_eq_true, keyImageSort, keyImageSort, decide_eq_true_eq, decide_eq_true_eq]
    exact List.le_total b.toList a.toList
  antisymm := by
    intro a b hab hba
    rw [keyImageSort, decide_eq_true_eq] at hab hba
    exact Bytes.ext (List.le_antisymm hba hab)

/-- Inputs of distinct keys seed the generator with one seed, in whatever order they are. -/
theorem seededRng_eq_of_perm {Γ : Ctx} {dst : List UInt8} {outgoingViewKey : Bytes 32} {pairs pairs' : List (Γ.Point × Γ.Point)}
    (hperm : pairs.Perm pairs') (hnodup : (pairs.map fun pair => Γ.compress pair.1).Nodup) :
    seededRng Γ dst outgoingViewKey pairs = seededRng Γ dst outgoingViewKey pairs' := by
  have hsort : Sorting.sortBy keyImageSort Prod.fst (pairs.map fun pair => (Γ.compress pair.1, Γ.compress pair.2)) =
      Sorting.sortBy keyImageSort Prod.fst (pairs'.map fun pair => (Γ.compress pair.1, Γ.compress pair.2)) :=
    Sorting.sortBy_eq_of_perm keyImageSort_linear (hperm.map _) (by rwa [List.map_map])
  simp only [seededRng, hsort]

namespace SignableTransaction

variable {Γ : Ctx} {t t' : SignableTransaction Γ}

/-- Two transactions to be signed differ in the order of the inputs and the payments only. -/
structure Reorders (t t' : SignableTransaction Γ) : Prop where
  rctType : t'.rctType = t.rctType
  outgoingViewKey : t'.outgoingViewKey = t.outgoingViewKey
  inputs : t'.inputs.Perm t.inputs
  payments : t'.payments.Perm t.payments
  data : t'.data = t.data
  feeRate : t'.feeRate = t.feeRate

/-- The keys of the inputs are distinct. -/
def KeysNodup (t : SignableTransaction Γ) : Prop := (t.inputs.map fun input => Γ.compress input.key).Nodup

theorem seededRng_reorders (h : Reorders t t') (hnodup : t.KeysNodup) (dst : String) : t'.seededRng dst = t.seededRng dst := by
  rw [seededRng, seededRng, h.outgoingViewKey]
  refine (seededRng_eq_of_perm (h.inputs.symm.map _) ?_).symm
  rw [List.map_map]
  exact hnodup

theorem hasPaymentsToSubaddresses_reorders (h : Reorders t t') : t'.hasPaymentsToSubaddresses = t.hasPaymentsToSubaddresses :=
  h.payments.any_eq

theorem shouldUseAdditionalKeys_reorders (h : Reorders t t') : t'.shouldUseAdditionalKeys = t.shouldUseAdditionalKeys := by
  simp only [shouldUseAdditionalKeys, hasPaymentsToSubaddresses_reorders h, h.payments.length_eq, h.payments.any_eq]

/-- The keys drawn are for the same outputs the same. -/
theorem transactionKeys_reorders (h : Reorders t t') (hnodup : t.KeysNodup) : t'.transactionKeys = t.transactionKeys := by
  have hrng := seededRng_reorders h hnodup "transaction_keys"
  rw [seededRng, seededRng] at hrng
  simp only [transactionKeys, TransactionKeys.new, hrng, shouldUseAdditionalKeys_reorders h, h.payments.length_eq]

/-! ## What the functions return -/

/-- There is a payment, which `validate` checks. -/
def HasPayment (t : SignableTransaction Γ) : Prop := ∃ payment ∈ t.payments, payment.isPayment = true

theorem HasPayment.find (h : t.HasPayment) : ∃ addr amount,
    t.payments.find? InternalPayment.isPayment = some (.Payment addr amount) := by
  obtain ⟨payment, hin, hpayment⟩ := h
  cases hfind : t.payments.find? InternalPayment.isPayment with
  | none => exact absurd hpayment (by simpa using List.find?_eq_none.1 hfind payment hin)
  | some found =>
    have hfound := List.find?_some hfind
    cases found with
    | Payment addr amount => exact ⟨addr, amount, rfl⟩
    | Change change => exact absurd hfound Bool.false_ne_true

/-- The generator of the commitment to the transaction key. -/
def txKeyGenerator (t : SignableTransaction Γ) : Γ.Point :=
  if t.hasPaymentsToSubaddresses && !t.shouldUseAdditionalKeys then
    ((t.payments.find? InternalPayment.isPayment).map fun payment => payment.address.spend).getD Γ.G
  else Γ.G

/-- The commitment to the transaction key. -/
def txKeyPub (t : SignableTransaction Γ) : Γ.Point := t.transactionKeys.1 • t.txKeyGenerator

/-- The commitments to the additional keys. -/
def additionalKeysPub (t : SignableTransaction Γ) : List CompressedPoint :=
  (t.transactionKeys.2.zip t.payments).map fun pair => additionalKeyPub pair.1 pair.2

theorem transactionKeys_snd_of_not (h : t.shouldUseAdditionalKeys = false) : t.transactionKeys.2 = [] := by
  simp only [transactionKeys, h, Bool.false_eq_true, if_false]

theorem length_randomScalars (n : ℕ) (rng : Rng) : (Clsag.randomScalars n rng).1.length = n := by
  induction n generalizing rng with
  | zero => rfl
  | succ n ih => exact congrArg (· + 1) (ih _)

theorem length_transactionKeys_snd (t : SignableTransaction Γ) :
    t.transactionKeys.2.length = if t.shouldUseAdditionalKeys then t.payments.length else 0 := by
  cases h : t.shouldUseAdditionalKeys with
  | false => rw [transactionKeys_snd_of_not h, List.length_nil, if_neg Bool.false_ne_true]
  | true =>
    simp only [transactionKeys, h, if_true]
    exact length_randomScalars _ _

theorem length_additionalKeysPub (t : SignableTransaction Γ) :
    t.additionalKeysPub.length = if t.shouldUseAdditionalKeys then t.payments.length else 0 := by
  rw [additionalKeysPub, List.length_map, List.length_zip, length_transactionKeys_snd]
  split
  · exact Nat.min_self _
  · exact Nat.zero_min _

theorem transactionKeysPub_eq (h : t.HasPayment) : t.transactionKeysPub = .ok (t.txKeyPub, t.additionalKeysPub) := by
  obtain ⟨addr, amount, hfind⟩ := h.find
  have hadditional : t.shouldUseAdditionalKeys = false → t.additionalKeysPub = [] := by
    intro hnot
    rw [additionalKeysPub, transactionKeys_snd_of_not hnot]
    rfl
  cases hsub : t.hasPaymentsToSubaddresses with
  | false =>
    have hnot : t.shouldUseAdditionalKeys = false := by simp only [shouldUseAdditionalKeys, hsub, Bool.false_and]
    simp only [transactionKeysPub, hsub, hnot, txKeyPub, txKeyGenerator, hadditional hnot, Bool.false_and, Bool.false_eq_true,
      if_false]
  | true =>
    cases hkeys : t.shouldUseAdditionalKeys with
    | false =>
      simp only [transactionKeysPub, hsub, hkeys, hfind, txKeyPub, txKeyGenerator, hadditional hkeys, Bool.not_false, Bool.and_true,
        if_true]
      rfl
    | true =>
      simp only [transactionKeysPub, hsub, hkeys, txKeyPub, txKeyGenerator, additionalKeysPub, Bool.not_true, Bool.and_false,
        Bool.false_eq_true, if_false, if_true]

/-- The shared secrets of the outputs. -/
def secrets (t : SignableTransaction Γ) : List Γ.Point :=
    t.payments.mapIdx (ecdh t.transactionKeys.1 t.transactionKeys.2 t.txKeyPub)

@[simp]
theorem length_secrets (t : SignableTransaction Γ) : t.secrets.length = t.payments.length := List.length_mapIdx

theorem ecdhs_eq (h : t.HasPayment) : t.ecdhs = .ok t.secrets := by
  rw [ecdhs, transactionKeysPub_eq h]
  rfl

/-- What the `i`-th output is derived with. -/
def derivationsOf (t : SignableTransaction Γ) (keyImages : List CompressedPoint) (i : ℕ) (payment : InternalPayment Γ)
    (secret : Γ.Point) : SharedKeyDerivations :=
  SharedKeyDerivations.outputDerivations Γ
    (if payment.address.isGuaranteed then some (SharedKeyDerivations.uniqueness Γ (t.txInputs keyImages)) else none) secret i

/-- What the outputs are derived with. -/
def derivations (t : SignableTransaction Γ) (keyImages : List CompressedPoint) : List SharedKeyDerivations :=
  (t.payments.zip t.secrets).mapIdx fun i pair => t.derivationsOf keyImages i pair.1 pair.2

@[simp]
theorem length_derivations (t : SignableTransaction Γ) (keyImages : List CompressedPoint) :
    (t.derivations keyImages).length = t.payments.length := by
  rw [derivations, List.length_mapIdx, List.length_zip, length_secrets, Nat.min_self]

theorem sharedKeyDerivations_eq (h : t.HasPayment) (keyImages : List CompressedPoint) :
    t.sharedKeyDerivations keyImages = .ok (t.derivations keyImages) := by
  rw [sharedKeyDerivations, ecdhs_eq h]
  rfl

theorem paymentIdXors_eq (h : t.HasPayment) : t.paymentIdXors = .ok (t.secrets.map (SharedKeyDerivations.paymentIdXor Γ)) := by
  rw [paymentIdXors, ecdhs_eq h]
  rfl

/-! ## The inputs in another order -/

/-- The key images are all that is taken of the inputs for what makes a key unique to them. -/
theorem uniqueness_txInputs {keyImages : List CompressedPoint} (h : keyImages.length = t.inputs.length) :
    SharedKeyDerivations.uniqueness Γ (t.txInputs keyImages) =
      Γ.keccak256 (ascii "uniqueness" ++ keyImages.flatMap Bytes.toList) := by
  have hsnd : keyImages = (t.inputs.zip keyImages).map Prod.snd := (List.map_snd_zip h.le).symm
  rw [SharedKeyDerivations.uniqueness, txInputs, List.flatMap_map]
  conv_rhs => rw [hsnd, List.flatMap_map]

section SamePayments

variable (h : Reorders t t') (hpayments : t'.payments = t.payments) (hnodup : t.KeysNodup)

include h hpayments hnodup

theorem txKeyPub_reorders : t'.txKeyPub = t.txKeyPub := by
  simp only [txKeyPub, txKeyGenerator, transactionKeys_reorders h hnodup, hasPaymentsToSubaddresses_reorders h,
    shouldUseAdditionalKeys_reorders h, hpayments]

theorem additionalKeysPub_reorders : t'.additionalKeysPub = t.additionalKeysPub := by
  simp only [additionalKeysPub, transactionKeys_reorders h hnodup, hpayments]

theorem secrets_reorders : t'.secrets = t.secrets := by
  simp only [secrets, transactionKeys_reorders h hnodup, txKeyPub_reorders h hpayments hnodup, hpayments]

theorem derivations_reorders {keyImages : List CompressedPoint} (hlen : keyImages.length = t.inputs.length) :
    t'.derivations keyImages = t.derivations keyImages := by
  have hlen' : keyImages.length = t'.inputs.length := hlen.trans h.inputs.length_eq.symm
  simp only [derivations, derivationsOf, secrets_reorders h hpayments hnodup, hpayments, uniqueness_txInputs hlen,
    uniqueness_txInputs hlen']

end SamePayments

end SignableTransaction

end MoneroOxide
