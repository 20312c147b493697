import MoneroOxide.Lib.Binding
import MoneroOxide.Theorems.Block
import MoneroOxide.Theorems.Codec

/-!
# What is hashed for a transaction and for a block

For each hash of the repository, the strings which are given to the hash function on the way to it, and what the hash binds by
them. The prefix, the base and the prunable part of a transaction are read back from the strings they are hashed as, each with the
lengths that the one before it gives.
-/

namespace MoneroOxide

open Digest PerfectTree

/-- Different numbers are written differently, as the start of any string. -/
theorem VarInt.append_inj {m n : ℕ} {s t : List UInt8} (h : VarInt.write m ++ s = VarInt.write n ++ t) : m = n ∧ s = t := by
  have hm : m < 2 ^ (m + n + 1) := lt_of_lt_of_le Nat.lt_two_pow_self (Nat.pow_le_pow_right (by omega) (by omega))
  have hn : n < 2 ^ (m + n + 1) := lt_of_lt_of_le Nat.lt_two_pow_self (Nat.pow_le_pow_right (by omega) (by omega))
  exact (VarInt.reads_read (by omega)).append_inj hm hn h

/-! ## Merkle trees -/

/-- The strings hashed for a Merkle tree: its pairs of branches, those of the unbalanced level first. -/
def merkleHashed (Γ : Ctx) (leaves : List (Bytes 32)) : List (List UInt8) :=
  let pair := fun left right : Bytes 32 => Γ.keccak256 (left.toList ++ right.toList)
  let k := (leaves.length - 1).log2
  (neighbours (leaves.drop (2 * 2 ^ k - leaves.length)) ++ branches pair k (merkleRound pair k leaves)).map
    fun p => p.1.toList ++ p.2.toList

/-- The root is that of the perfect tree over the branches of the unbalanced level. -/
theorem merkleRoot_eq_root (Γ : Ctx) {leaves : List (Bytes 32)} (h : leaves ≠ []) :
    let pair := fun left right : Bytes 32 => Γ.keccak256 (left.toList ++ right.toList)
    let k := (leaves.length - 1).log2
    merkleRoot Γ leaves = root pair k (merkleRound pair k leaves) ∧ (merkleRound pair k leaves).length = 2 ^ k := by
  intro pair k
  rcases leaves with _ | ⟨first, _ | ⟨second, _ | ⟨third, leaves⟩⟩⟩
  · exact absurd rfl h
  · exact ⟨rfl, rfl⟩
  · exact ⟨rfl, rfl⟩
  · obtain ⟨hlow, hhigh⟩ := log2_pred_spec (show 1 < (first :: second :: third :: leaves).length by simp)
    obtain ⟨node, hloop, hroot⟩ := merkleLoop_log2 pair hlow hhigh
    refine ⟨?_, length_merkleRound pair hlow.le hhigh⟩
    change (merkleLoop pair _ _ _).bind (fun leaves => leaves[0]?) = root pair _ (merkleRound pair _ _)
    rw [hloop, hroot]
    rfl

theorem append_toList_injective : Function.Injective fun p : Bytes 32 × Bytes 32 => p.1.toList ++ p.2.toList := by
  intro p q h
  obtain ⟨h1, h2⟩ := Bytes.append_inj h
  exact Prod.ext h1 (Bytes.ext h2)

/-- A Merkle root binds the leaves, of which there are as many. -/
theorem binding_merkleRoot (Γ : Ctx) (n : ℕ) :
    Binding Γ.keccak256 (fun leaves => leaves.length = n) Eq (merkleRoot Γ) (merkleHashed Γ) := by
  intro as bs ha hb h
  by_cases hn : n = 0
  · rw [hn, List.length_eq_zero_iff] at ha hb
    exact Or.inl (ha.trans hb.symm)
  set pair := fun left right : Bytes 32 => Γ.keccak256 (left.toList ++ right.toList) with hpair
  set k := (n - 1).log2 with hk
  -- A collision of branches is one of the strings they are hashed as.
  have hcollide : ∀ ps qs : List (Bytes 32 × Bytes 32), Collide (fun p => pair p.1 p.2) ps qs →
      ps ⊆ neighbours (as.drop (2 * 2 ^ k - n)) ++ branches pair k (merkleRound pair k as) →
      qs ⊆ neighbours (bs.drop (2 * 2 ^ k - n)) ++ branches pair k (merkleRound pair k bs) →
      Collide Γ.keccak256 (merkleHashed Γ as) (merkleHashed Γ bs) := by
    intro ps qs hc hp hq
    have := Collide.map append_toList_injective (hc.mono hp hq)
    simp only [merkleHashed, ha, hb]
    exact this
  obtain ⟨hroot, hlen⟩ := merkleRoot_eq_root Γ (show as ≠ [] by rintro rfl; exact hn ha.symm)
  obtain ⟨hroot', hlen'⟩ := merkleRoot_eq_root Γ (show bs ≠ [] by rintro rfl; exact hn hb.symm)
  rw [ha] at hroot hlen
  rw [hb] at hroot' hlen'
  rw [hroot, hroot'] at h
  rcases binding_root pair k _ _ hlen hlen' h with he | hc
  · simp only [merkleRound, ha, hb] at he
    obtain ⟨hunchanged, hpaired⟩ := List.append_inj he (by simp only [List.length_take, ha, hb])
    obtain ⟨hlow, hhigh⟩ : n ≤ 2 * 2 ^ k ∧ 2 ^ k ≤ n := by
      rcases Nat.lt_or_ge 1 n with h1 | h1
      · have := log2_pred_spec h1
        exact ⟨this.2, this.1.le⟩
      · obtain rfl : n = 1 := by omega
        exact ⟨by decide, by decide⟩
    have hdrop : ∀ cs : List (Bytes 32), cs.length = n → (cs.drop (2 * 2 ^ k - n)).length = 2 * (n - 2 ^ k) := by
      intro cs hc
      rw [List.length_drop, hc]
      omega
    rcases binding_pairUp pair (n - 2 ^ k) _ _ (hdrop as ha) (hdrop bs hb) hpaired with hrest | hc
    · left
      rw [← List.take_append_drop (2 * 2 ^ k - n) as, hunchanged, hrest, List.take_append_drop]
    · exact Or.inr (hcollide _ _ hc (List.subset_append_left _ _) (List.subset_append_left _ _))
  · exact Or.inr (hcollide _ _ hc (List.subset_append_right _ _) (List.subset_append_right _ _))

/-! ## Transactions -/

/-- Three hashes in a row determine each of them. -/
theorem append_three_injective :
    Function.Injective fun hashes : (Bytes 32 × Bytes 32) × Bytes 32 => hashes.1.1.toList ++ hashes.1.2.toList ++ hashes.2.toList := by
  rintro ⟨⟨a, b⟩, c⟩ ⟨⟨a', b'⟩, c'⟩ h
  simp only [List.append_assoc] at h
  obtain ⟨ha, h⟩ := Bytes.append_inj h
  obtain ⟨hb, h⟩ := Bytes.append_inj h
  rw [ha, hb, Bytes.ext h]

namespace Transaction

/-- What `RctBase::write` writes for the proofs of a version 2 transaction, or for their absence. -/
def baseWrite (proofs : Option PrunedRctProofs) : List UInt8 := proofs.elim [0] fun proofs => proofs.base.write proofs.rctType

/-- The string whose hash is that of a version 2 transaction: the hashes of its prefix, of its base and of what may be pruned. -/
def hashInputV2 (Γ : Ctx) (txPrefix : TransactionPrefix) (base : List UInt8) (prunableHash : Bytes 32) : List UInt8 :=
  (txPrefix.hash Γ 2).toList ++ (Γ.keccak256 base).toList ++ prunableHash.toList

/-- The strings hashed for a version 2 transaction, given the hash of what may be pruned. -/
def hashedV2 (Γ : Ctx) (txPrefix : TransactionPrefix) (base : List UInt8) (prunableHash : Bytes 32) : List (List UInt8) :=
  [hashInputV2 Γ txPrefix base prunableHash, VarInt.write 2 ++ txPrefix.write, base]

/-- The hash of a version 2 transaction binds its prefix, the encoding of its base and the hash of what may be pruned. -/
theorem binding_hashInputV2 (Γ : Ctx) :
    Binding Γ.keccak256 (fun x : (TransactionPrefix × List UInt8) × Bytes 32 => x.1.1.Readable 2) Eq
      (fun x => Γ.keccak256 (hashInputV2 Γ x.1.1 x.1.2 x.2)) (fun x => hashedV2 Γ x.1.1 x.1.2 x.2) := by
  have htxPre : Binding Γ.keccak256 (fun p : TransactionPrefix => p.Readable 2) Eq (fun p => p.hash Γ 2)
      fun p => [VarInt.write 2 ++ p.write] :=
    .of_encoding fun p q hp hq h =>
      (TransactionPrefix.reads_read 2).write_inj hp hq (List.append_cancel_left h)
  have hbase : Binding Γ.keccak256 (fun _ : List UInt8 => True) Eq Γ.keccak256 fun base => [base] :=
    .of_encoding (w := id) fun _ _ _ _ h => h
  have hparts : Binding Γ.keccak256 (fun x : (TransactionPrefix × List UInt8) × Bytes 32 => x.1.1.Readable 2)
      (fun x y => (x.1.1 = y.1.1 ∧ x.1.2 = y.1.2) ∧ x.2 = y.2)
      (fun x => ((x.1.1.hash Γ 2, Γ.keccak256 x.1.2), x.2)) fun x => ([VarInt.write 2 ++ x.1.1.write] ++ [x.1.2]) ++ [] := by
    refine Binding.and (Binding.and (htxPre.comap fun x : (TransactionPrefix × List UInt8) × Bytes 32 => x.1.1) ?_) ?_
    · exact fun x y _ _ _ h => hbase x.1.2 y.1.2 trivial trivial h
    · exact fun x y _ _ _ h => Or.inl h
  rintro ⟨⟨p, base⟩, h⟩ ⟨⟨p', base'⟩, h'⟩ hx hy heq
  rcases hparts.hash append_three_injective _ _ hx hy heq with ⟨⟨hp, hb⟩, hh⟩ | hc
  · obtain rfl : p = p' := hp
    obtain rfl : base = base' := hb
    obtain rfl : h = h' := hh
    exact Or.inl rfl
  · exact Or.inr hc

/-- The proofs of a version 2 transaction without what may be pruned. -/
def prunedProofs (proofs : Option RctProofs) : Option PrunedRctProofs :=
  proofs.map fun proofs : RctProofs => { rctType := proofs.rctType, base := proofs.base }

/-- Within a transaction of given lengths, the encoding of the base determines it and the type of the proofs. -/
theorem baseWrite_inj {inputs outputs : ℕ} {proofs proofs' : Option PrunedRctProofs} (h : ∀ p ∈ proofs, p.Readable inputs outputs)
    (h' : ∀ p ∈ proofs', p.Readable inputs outputs) (heq : baseWrite proofs = baseWrite proofs') : proofs = proofs' :=
  (PrunedRctProofs.reads_read inputs outputs).write_inj h h' heq

/-- The hash of a version 2 transaction with the hash of what may be pruned binds the pruned transaction and that hash. -/
theorem binding_prunedHash (Γ : Ctx) :
    Binding Γ.keccak256
      (fun x : (TransactionPrefix × Option PrunedRctProofs) × Bytes 32 => (V2 x.1.1 x.1.2 : Transaction Pruned).Readable Pruned.codec) Eq
      (fun x => Γ.keccak256 (hashInputV2 Γ x.1.1 (baseWrite x.1.2) x.2)) (fun x => hashedV2 Γ x.1.1 (baseWrite x.1.2) x.2) := by
  rintro ⟨⟨p, proofs⟩, h⟩ ⟨⟨p', proofs'⟩, h'⟩ hx hy heq
  rcases binding_hashInputV2 Γ ((p, baseWrite proofs), h) ((p', baseWrite proofs'), h') hx.1 hy.1 heq with he | hc
  · simp only [Prod.mk.injEq] at he
    obtain ⟨⟨rfl, hbase⟩, rfl⟩ := he
    exact Or.inl (congrArg (fun q => ((p, q), h)) (baseWrite_inj hx.2 hy.2 hbase))
  · exact Or.inr hc

theorem hashWithPrunableHash_V2 (Γ : Ctx) (txPrefix : TransactionPrefix) (proofs : Option PrunedRctProofs) (prunableHash : Bytes 32) :
    (V2 txPrefix proofs : Transaction Pruned).hashWithPrunableHash Γ prunableHash =
      some (Γ.keccak256 (hashInputV2 Γ txPrefix (baseWrite proofs) prunableHash)) := by cases proofs <;> rfl

/-- What may be pruned of a version 2 transaction, as it is hashed. -/
def prunableHashed (proofs : Option RctProofs) : List (List UInt8) :=
  proofs.toList.map fun proofs : RctProofs => proofs.prunable.write proofs.rctType

/-- The hash of what may be pruned of a version 2 transaction. -/
def prunableHashV2 (Γ : Ctx) (proofs : Option RctProofs) : Bytes 32 :=
  proofs.elim (Bytes.replicate 32 0) fun proofs : RctProofs => Γ.keccak256 (proofs.prunable.write proofs.rctType)

/-- The string whose hash is that of a transaction. -/
def hashInput (Γ : Ctx) (tx : Transaction NotPruned) : List UInt8 :=
  match tx with
  | V1 .. => tx.write
  | V2 txPrefix proofs => hashInputV2 Γ txPrefix (baseWrite (prunedProofs proofs)) (prunableHashV2 Γ proofs)

/-- The strings hashed for a transaction. -/
def hashed (Γ : Ctx) (tx : Transaction NotPruned) : List (List UInt8) :=
  match tx with
  | V1 .. => [tx.write]
  | V2 txPrefix (proofs : Option RctProofs) =>
    hashedV2 Γ txPrefix (baseWrite (prunedProofs proofs)) (prunableHashV2 Γ proofs) ++ prunableHashed proofs

theorem hash_eq (Γ : Ctx) (tx : Transaction NotPruned) : tx.hash Γ = Γ.keccak256 (tx.hashInput Γ) := by
  cases tx with
  | V1 txPrefix signatures =>
    show Γ.keccak256 (VarInt.write 1 ++ txPrefix.write ++ writeRawVec RingSignature.write signatures) =
      Γ.keccak256 (VarInt.write 1 ++ (txPrefix.write ++ writeRawVec RingSignature.write signatures))
    rw [List.append_assoc]
  | V2 txPrefix proofs => cases proofs <;> rfl

theorem hashInput_mem_hashed (Γ : Ctx) (tx : Transaction NotPruned) : tx.hashInput Γ ∈ tx.hashed Γ := by
  cases tx with
  | V1 txPrefix signatures => exact List.mem_singleton_self _
  | V2 txPrefix proofs => exact List.mem_cons_self

/-- A transaction of version 1 and one of version 2 are hashed as one string: the three hashes of the one are the encoding of the
other. -/
def Confused (Γ : Ctx) (tx tx' : Transaction NotPruned) : Prop :=
  tx.version ≠ tx'.version ∧ tx.hashInput Γ = tx'.hashInput Γ

/-- The hash of a version 2 transaction binds it. -/
theorem binding_hashV2 (Γ : Ctx) {p p' : TransactionPrefix} {proofs proofs' : Option RctProofs}
    (hx : (V2 p proofs : Transaction NotPruned).Readable NotPruned.codec)
    (hy : (V2 p' proofs' : Transaction NotPruned).Readable NotPruned.codec)
    (h : (V2 p proofs : Transaction NotPruned).hash Γ = (V2 p' proofs' : Transaction NotPruned).hash Γ) :
    (p = p' ∧ proofs = proofs') ∨
      Collide Γ.keccak256 ((V2 p proofs : Transaction NotPruned).hashed Γ) ((V2 p' proofs' : Transaction NotPruned).hashed Γ) := by
  rw [hash_eq, hash_eq] at h
  rcases binding_prunedHash Γ ((p, prunedProofs proofs), prunableHashV2 Γ proofs)
      ((p', prunedProofs proofs'), prunableHashV2 Γ proofs') (PruningAux.readable_toPruned hx) (PruningAux.readable_toPruned hy) h
    with he | hc
  · simp only [Prod.mk.injEq] at he
    obtain ⟨⟨rfl, hpruned⟩, hprunable⟩ := he
    -- The type of the proofs is bound with the base, and gives the layout of what may be pruned.
    cases proofs with
    | none =>
      cases proofs' with
      | none => exact Or.inl ⟨rfl, rfl⟩
      | some q' => cases hpruned
    | some q =>
      cases proofs' with
      | none => cases hpruned
      | some q' =>
        obtain ⟨base, prunable⟩ := q
        obtain ⟨base', prunable'⟩ := q'
        simp only [prunedProofs, Option.map_some, Option.some.injEq, PrunedRctProofs.mk.injEq] at hpruned
        obtain ⟨htype, rfl⟩ := hpruned
        rcases eq_or_collide (H := Γ.keccak256) (List.mem_append_right _ (List.mem_singleton_self _))
          (List.mem_append_right _ (List.mem_singleton_self _)) hprunable with he | hc
        · have hr := (hx.2 _ rfl).2
          have hr' := (hy.2 _ rfl).2
          rw [← htype] at he hr'
          obtain rfl : prunable = prunable' := (RctPrunable.reads_read _ _ _ _).write_inj hr hr' he
          exact Or.inl ⟨rfl, rfl⟩
        · exact Or.inr hc
  · exact Or.inr (hc.mono (List.subset_append_left _ _) (List.subset_append_left _ _))

/-- The hash of a transaction binds it, up to the version. -/
theorem binding_hash (Γ : Ctx) :
    Binding Γ.keccak256 (fun tx => tx.Readable NotPruned.codec) (fun tx tx' => tx = tx' ∨ Confused Γ tx tx') (hash Γ) (hashed Γ) := by
  intro tx tx' hx hy h
  have hinput : tx.hashInput Γ = tx'.hashInput Γ ∨ Collide Γ.keccak256 (tx.hashed Γ) (tx'.hashed Γ) := by
    rw [hash_eq, hash_eq] at h
    exact eq_or_collide (hashInput_mem_hashed Γ tx) (hashInput_mem_hashed Γ tx') h
  rcases hinput with hinput | hc
  · cases tx with
    | V1 p signatures =>
      cases tx' with
      | V1 p' signatures' => exact Or.inl (Or.inl ((Transaction.reads_read NotPruned.codec).write_inj hx hy hinput))
      | V2 p' proofs' => exact Or.inl (Or.inr ⟨(by decide : (1 : UInt8) ≠ 2), hinput⟩)
    | V2 p proofs =>
      cases tx' with
      | V1 p' signatures' => exact Or.inl (Or.inr ⟨(by decide : (2 : UInt8) ≠ 1), hinput⟩)
      | V2 p' proofs' =>
        rcases binding_hashV2 Γ hx hy h with ⟨rfl, rfl⟩ | hc
        · exact Or.inl (Or.inl rfl)
        · exact Or.inr hc
  · exact Or.inr hc

end Transaction

/-! ## What is signed -/

theorem length_writeRawVec_points (points : List CompressedPoint) :
    (writeRawVec CompressedPoint.write points).length = 32 * points.length := by
  induction points with
  | nil => rfl
  | cons point points ih =>
    rw [writeRawVec, List.flatMap_cons, List.length_append, ← writeRawVec, ih, CompressedPoint.write, Bytes.length_toList,
      List.length_cons]
    ring

/-- Two lists of points of one length, written one after the other and followed by as many bytes, are read back. -/
theorem writeRawVec_points_inj {L R L' R' : List CompressedPoint} {s s' : List UInt8} (hLR : L.length = R.length)
    (hLR' : L'.length = R'.length) (hs : s.length = s'.length)
    (h : writeRawVec CompressedPoint.write L ++ (writeRawVec CompressedPoint.write R ++ s) =
      writeRawVec CompressedPoint.write L' ++ (writeRawVec CompressedPoint.write R' ++ s')) : L = L' ∧ R = R' ∧ s = s' := by
  have hlen := congrArg List.length h
  simp only [List.length_append, length_writeRawVec_points] at hlen
  have hread := reads_readRawVec CompressedPoint.reads_read L.length
  obtain ⟨hL, h⟩ := hread.append_inj ⟨rfl, by simp⟩ ⟨by omega, by simp⟩ h
  obtain ⟨hR, h⟩ := hread.append_inj ⟨by omega, by simp⟩ ⟨by omega, by simp⟩ h
  exact ⟨hL, hR, h⟩

/-- A Bulletproof is bound by what is signed of it, as its lists are of one length. -/
theorem Bulletproof.signatureWrite_inj {bp bp' : Bulletproof} (hkind : bp.isOriginal = bp'.isOriginal)
    (hLR : bp.LR.1.length = bp.LR.2.length) (hLR' : bp'.LR.1.length = bp'.LR.2.length)
    (h : bp.signatureWrite = bp'.signatureWrite) : bp = bp' := by
  have hpoint := fun {P Q : CompressedPoint} {s t : List UInt8} => CompressedPoint.reads_read.append_inj (a := P) (b := Q)
    (s := s) (t := t) trivial trivial
  have hscalar := fun {a b : Scalar} {s t : List UInt8} => Scalar.reads_read.append_inj (a := a) (b := b)
    (s := s) (t := t) trivial trivial
  rcases bp with ⟨A, S, T1, T2, tauX, mu, tHat, L, R, a, b⟩ | ⟨A, L, R, wipA, B, rAnswer, sAnswer, deltaAnswer⟩ <;>
    rcases bp' with ⟨A', S', T1', T2', tauX', mu', tHat', L', R', a', b'⟩ | ⟨A', L', R', wipA', B', rAnswer', sAnswer', deltaAnswer'⟩
  · simp only [signatureWrite, writeCore, List.append_assoc] at h
    obtain ⟨hA, h⟩ := hpoint h
    obtain ⟨hS, h⟩ := hpoint h
    obtain ⟨hT1, h⟩ := hpoint h
    obtain ⟨hT2, h⟩ := hpoint h
    obtain ⟨htauX, h⟩ := hscalar h
    obtain ⟨hmu, h⟩ := hscalar h
    obtain ⟨hL, hR, h⟩ := writeRawVec_points_inj hLR hLR' (by simp [Scalar.write]) h
    obtain ⟨ha, h⟩ := hscalar h
    obtain ⟨hb, h⟩ := hscalar h
    have htHat := Scalar.reads_read.write_inj trivial trivial h
    simp only [Bulletproof.original.injEq, Original.AggregateRangeProof.mk.injEq, IpProof.mk.injEq]
    exact ⟨hA, hS, hT1, hT2, htauX, hmu, htHat, hL, hR, ha, hb⟩
  · cases hkind
  · cases hkind
  · simp only [signatureWrite, writeCore, List.append_assoc] at h
    obtain ⟨hA, h⟩ := hpoint h
    obtain ⟨hwipA, h⟩ := hpoint h
    obtain ⟨hB, h⟩ := hpoint h
    obtain ⟨hr, h⟩ := hscalar h
    obtain ⟨hs, h⟩ := hscalar h
    obtain ⟨hdelta, h⟩ := hscalar h
    rw [← List.append_nil (writeRawVec CompressedPoint.write R), ← List.append_nil (writeRawVec CompressedPoint.write R')] at h
    obtain ⟨hL, hR, -⟩ := writeRawVec_points_inj hLR hLR' rfl h
    simp only [Bulletproof.plus.injEq, Plus.AggregateRangeProof.mk.injEq, WipProof.mk.injEq]
    exact ⟨hA, hL, hR, hwipA, hB, hr, hs, hdelta⟩

namespace RctPrunable

/-- The range proofs of the prunable part. -/
def rangeProofs : RctPrunable → List BorromeanRange ⊕ Bulletproof
  | AggregateMlsagBorromean _ borromean | MlsagBorromean _ borromean => .inl borromean
  | MlsagBulletproofs _ _ bulletproof | MlsagBulletproofsCompactAmount _ _ bulletproof | Clsag _ _ bulletproof => .inr bulletproof

/-- The lists of a Bulletproof are of one length. -/
def LRBalanced (prunable : RctPrunable) : Prop := ∀ bp, prunable.rangeProofs = .inr bp → bp.LR.1.length = bp.LR.2.length

/-- What is signed of the prunable part are its range proofs. -/
theorem signatureWrite_eq (prunable : RctPrunable) :
    prunable.signatureWrite = prunable.rangeProofs.elim (writeRawVec BorromeanRange.write) Bulletproof.signatureWrite := by
  cases prunable <;> rfl

/-- The type of the proofs gives the kind of the range proofs, and the amount of outputs how many there are without Bulletproofs. -/
theorem Readable.rangeProofs {rctType : RctType} {ringLength inputs outputs : ℕ} {prunable : RctPrunable}
    (h : prunable.Readable rctType ringLength inputs outputs) :
    (∃ bs, prunable.rangeProofs = .inl bs ∧ bs.length = outputs ∧ rctType.bulletproof = rctType.bulletproofPlus) ∨
      ∃ bp, prunable.rangeProofs = .inr bp ∧ bp.isOriginal = rctType.bulletproof ∧ rctType.bulletproofPlus = !rctType.bulletproof := by
  cases prunable with
  | AggregateMlsagBorromean mlsag borromean =>
    obtain ⟨rfl, hlen, -⟩ := h
    exact Or.inl ⟨borromean, rfl, hlen, rfl⟩
  | MlsagBorromean mlsags borromean =>
    obtain ⟨rfl, hlen, -⟩ := h
    exact Or.inl ⟨borromean, rfl, hlen, rfl⟩
  | MlsagBulletproofs mlsags pseudoOuts bulletproof =>
    obtain ⟨rfl, ⟨hkind, -⟩, -⟩ := h
    exact Or.inr ⟨bulletproof, rfl, hkind, rfl⟩
  | MlsagBulletproofsCompactAmount mlsags pseudoOuts bulletproof =>
    obtain ⟨rfl, ⟨hkind, -⟩, -⟩ := h
    exact Or.inr ⟨bulletproof, rfl, hkind, rfl⟩
  | Clsag clsags pseudoOuts bulletproof =>
    rcases h.1 with ⟨rfl, hkind⟩ | ⟨rfl, hkind⟩
    · exact Or.inr ⟨bulletproof, rfl, hkind, rfl⟩
    · exact Or.inr ⟨bulletproof, rfl, hkind, rfl⟩

/-- The range proofs are bound by what is signed of the prunable part, given the type of the proofs and the amount of outputs. -/
theorem signatureWrite_inj {rctType : RctType} {ringLength inputs outputs : ℕ} {prunable prunable' : RctPrunable}
    (hr : prunable.Readable rctType ringLength inputs outputs) (hr' : prunable'.Readable rctType ringLength inputs outputs)
    (hb : prunable.LRBalanced) (hb' : prunable'.LRBalanced) (h : prunable.signatureWrite = prunable'.signatureWrite) :
    prunable.rangeProofs = prunable'.rangeProofs := by
  rw [signatureWrite_eq, signatureWrite_eq] at h
  rcases hr.rangeProofs with ⟨bs, he, hlen, htype⟩ | ⟨bp, he, hkind, htype⟩ <;>
    rcases hr'.rangeProofs with ⟨bs', he', hlen', htype'⟩ | ⟨bp', he', hkind', htype'⟩
  · rw [he, he'] at h ⊢
    rw [(reads_readRawVec BorromeanRange.reads_read outputs).write_inj ⟨hlen, by simp⟩ ⟨hlen', by simp⟩ h]
  · rw [htype'] at htype
    exact absurd htype (by cases rctType.bulletproof <;> decide)
  · rw [htype] at htype'
    exact absurd htype' (by cases rctType.bulletproof <;> decide)
  · rw [he, he'] at h ⊢
    rw [Bulletproof.signatureWrite_inj (hkind.trans hkind'.symm) (hb bp he) (hb' bp' he') h]

end RctPrunable

namespace Transaction

/-- The string whose hash is signed, if there is one. -/
def signatureInput (Γ : Ctx) : Transaction NotPruned → Option (List UInt8)
  | V1 txPrefix _ => if txPrefix.isMiner then none else some (VarInt.write 1 ++ txPrefix.write)
  | V2 _ none => none
  | V2 txPrefix (some (proofs : RctProofs)) =>
    some (hashInputV2 Γ txPrefix (proofs.base.write proofs.rctType) (Γ.keccak256 proofs.prunable.signatureWrite))

/-- The strings hashed for the hash which is signed. -/
def signatureHashed (Γ : Ctx) : Transaction NotPruned → List (List UInt8)
  | V1 txPrefix _ => [VarInt.write 1 ++ txPrefix.write]
  | V2 _ none => []
  | V2 txPrefix (some (proofs : RctProofs)) =>
    hashedV2 Γ txPrefix (proofs.base.write proofs.rctType) (Γ.keccak256 proofs.prunable.signatureWrite) ++
      [proofs.prunable.signatureWrite]

theorem signatureHash_eq (Γ : Ctx) (tx : Transaction NotPruned) : tx.signatureHash Γ = (tx.signatureInput Γ).map Γ.keccak256 := by
  cases tx with
  | V1 txPrefix signatures =>
    simp only [signatureHash, signatureInput]
    split
    · rfl
    · rw [Option.map_some, ← List.append_nil (_ ++ _)]
      rfl
  | V2 txPrefix proofs => cases proofs <;> rfl

theorem mem_signatureHashed {Γ : Ctx} {tx : Transaction NotPruned} {input : List UInt8} (h : tx.signatureInput Γ = some input) :
    input ∈ tx.signatureHashed Γ := by
  cases tx with
  | V1 txPrefix signatures =>
    simp only [signatureInput] at h
    split at h
    · cases h
    · rw [← Option.some.inj h]
      exact List.mem_singleton_self _
  | V2 txPrefix proofs =>
    cases proofs with
    | none => cases h
    | some proofs =>
      rw [← Option.some.inj h]
      exact List.mem_append_left _ List.mem_cons_self

/-- The range proofs of a transaction. -/
def rangeProofs : Transaction NotPruned → Option (List BorromeanRange ⊕ Bulletproof)
  | V1 .. => none
  | V2 _ (proofs : Option RctProofs) => proofs.map fun proofs => proofs.prunable.rangeProofs

/-- The Bulletproof of a transaction, if it has one, has lists of one length. -/
def LRBalanced (tx : Transaction NotPruned) : Prop :=
  ∀ bp, tx.rangeProofs = some (.inr bp) → bp.LR.1.length = bp.LR.2.length

/-- A transaction of version 1 and one of version 2 are signed as one string. -/
def SignatureConfused (Γ : Ctx) (tx tx' : Transaction NotPruned) : Prop :=
  tx.version ≠ tx'.version ∧ tx.signatureInput Γ = tx'.signatureInput Γ

/-- What is signed of version 2 transactions is bound by the hash which is signed. -/
theorem binding_signatureHashV2 (Γ : Ctx) {p p' : TransactionPrefix} {q q' : RctProofs}
    (hx : (V2 p (some q) : Transaction NotPruned).Readable NotPruned.codec)
    (hy : (V2 p' (some q') : Transaction NotPruned).Readable NotPruned.codec)
    (hb : q.prunable.LRBalanced) (hb' : q'.prunable.LRBalanced)
    (h : Γ.keccak256 (hashInputV2 Γ p (q.base.write q.rctType) (Γ.keccak256 q.prunable.signatureWrite)) =
      Γ.keccak256 (hashInputV2 Γ p' (q'.base.write q'.rctType) (Γ.keccak256 q'.prunable.signatureWrite))) :
    (p = p' ∧ q.rctType = q'.rctType ∧ q.base = q'.base ∧ q.prunable.rangeProofs = q'.prunable.rangeProofs) ∨
      Collide Γ.keccak256 ((V2 p (some q) : Transaction NotPruned).signatureHashed Γ)
        ((V2 p' (some q') : Transaction NotPruned).signatureHashed Γ) := by
  rcases binding_prunedHash Γ ((p, prunedProofs (some q)), Γ.keccak256 q.prunable.signatureWrite)
      ((p', prunedProofs (some q')), Γ.keccak256 q'.prunable.signatureWrite) (PruningAux.readable_toPruned hx)
      (PruningAux.readable_toPruned hy) h with he | hc
  · simp only [prunedProofs, Option.map_some, Prod.mk.injEq, Option.some.injEq, PrunedRctProofs.mk.injEq] at he
    obtain ⟨⟨rfl, htype, hbase⟩, hsigned⟩ := he
    rcases eq_or_collide (H := Γ.keccak256) (List.mem_append_right _ (List.mem_singleton_self _))
      (List.mem_append_right _ (List.mem_singleton_self _)) hsigned with he | hc
    · have hr := (hx.2 q rfl).2
      have hr' := (hy.2 q' rfl).2
      rw [← htype] at hr'
      exact Or.inl ⟨rfl, htype, hbase, RctPrunable.signatureWrite_inj hr hr' hb hb' he⟩
    · exact Or.inr hc
  · exact Or.inr (hc.mono (List.subset_append_left _ _) (List.subset_append_left _ _))

/-- The hash which is signed binds the transaction without its signatures, which is its prefix in version 1. -/
theorem binding_signatureHash (Γ : Ctx) :
    Binding Γ.keccak256 (fun tx => tx.Readable NotPruned.codec ∧ tx.LRBalanced ∧ tx.signatureInput Γ ≠ none)
      (fun tx tx' => (tx.toPruned = tx'.toPruned ∧ tx.rangeProofs = tx'.rangeProofs) ∨ SignatureConfused Γ tx tx')
      (signatureHash Γ) (signatureHashed Γ) := by
  rintro tx tx' ⟨hx, hb, hsome⟩ ⟨hy, hb', hsome'⟩ h
  obtain ⟨input, hinput⟩ := Option.ne_none_iff_exists'.1 hsome
  obtain ⟨input', hinput'⟩ := Option.ne_none_iff_exists'.1 hsome'
  rw [signatureHash_eq, signatureHash_eq, hinput, hinput', Option.map_some, Option.map_some, Option.some.injEq] at h
  rcases eq_or_collide (mem_signatureHashed hinput) (mem_signatureHashed hinput') h with rfl | hc
  · cases tx with
    | V1 p signatures =>
      cases tx' with
      | V1 p' signatures' =>
        simp only [signatureInput, Option.ite_none_left_eq_some, Option.some.injEq] at hinput hinput'
        have hp := (TransactionPrefix.reads_read 1).write_inj hx.1 hy.1
          (List.append_cancel_left (hinput.2.trans hinput'.2.symm))
        exact Or.inl (Or.inl ⟨by rw [toPruned, hp]; rfl, rfl⟩)
      | V2 p' proofs' => exact Or.inl (Or.inr ⟨(by decide : (1 : UInt8) ≠ 2), hinput.trans hinput'.symm⟩)
    | V2 p proofs =>
      cases tx' with
      | V1 p' signatures' => exact Or.inl (Or.inr ⟨(by decide : (2 : UInt8) ≠ 1), hinput.trans hinput'.symm⟩)
      | V2 p' proofs' =>
        rcases proofs with _ | q
        · cases hinput
        rcases proofs' with _ | q'
        · cases hinput'
        rcases binding_signatureHashV2 Γ hx hy (fun bp hbp => hb bp (congrArg some hbp)) (fun bp hbp => hb' bp (congrArg some hbp))
          (congrArg Γ.keccak256 ((Option.some.inj hinput).trans (Option.some.inj hinput').symm)) with ⟨hp, htype, hbase, hproofs⟩ | hc
        · refine Or.inl (Or.inl ⟨?_, congrArg some hproofs⟩)
          show (V2 p (some (PrunedRctProofs.mk (RctProofs.rctType q) (RctProofs.base q))) : Transaction Pruned) =
            V2 p' (some (PrunedRctProofs.mk (RctProofs.rctType q') (RctProofs.base q')))
          rw [hp, htype, hbase]
        · exact Or.inr hc
  · exact Or.inr hc

/-- The hash which is signed depends on the transaction without its signatures only. -/
theorem signatureHash_congr (Γ : Ctx) {tx tx' : Transaction NotPruned} (hpruned : tx.toPruned = tx'.toPruned)
    (hproofs : tx.rangeProofs = tx'.rangeProofs) : tx.signatureHash Γ = tx'.signatureHash Γ := by
  rw [signatureHash_eq, signatureHash_eq]
  congr 1
  cases tx with
  | V1 p signatures =>
    cases tx' with
    | V1 p' signatures' =>
      obtain rfl : p = p' := by injection hpruned
      rfl
    | V2 p' proofs' => cases hpruned
  | V2 p proofs =>
    cases tx' with
    | V1 p' signatures' => cases hpruned
    | V2 p' proofs' =>
      obtain ⟨rfl, hmap⟩ : p = p' ∧ prunedProofs proofs = prunedProofs proofs' := by
        injection hpruned with h1 h2
        exact ⟨h1, h2⟩
      rcases proofs with _ | q <;> rcases proofs' with _ | q'
      · rfl
      · cases hmap
      · cases hmap
      · obtain ⟨htype, hbase⟩ : RctProofs.rctType q = RctProofs.rctType q' ∧ RctProofs.base q = RctProofs.base q' := by
          injection Option.some.inj hmap with h1 h2
          exact ⟨h1, h2⟩
        have hranges : (RctProofs.prunable q).rangeProofs = (RctProofs.prunable q').rangeProofs := Option.some.inj hproofs
        show some (hashInputV2 Γ p ((RctProofs.base q).write (RctProofs.rctType q))
            (Γ.keccak256 (RctProofs.prunable q).signatureWrite)) =
          some (hashInputV2 Γ p ((RctProofs.base q').write (RctProofs.rctType q'))
            (Γ.keccak256 (RctProofs.prunable q').signatureWrite))
        rw [htype, hbase, RctPrunable.signatureWrite_eq, RctPrunable.signatureWrite_eq, hranges]

end Transaction

/-! ## Blocks -/

namespace Block

/-- The string whose hash is that of a block, but for the block which was given another. -/
def hashInput (Γ : Ctx) (block : Block) : List UInt8 :=
  VarInt.write (block.serializePowHash Γ).length ++ block.serializePowHash Γ

/-- The strings hashed for a block. -/
def hashed (Γ : Ctx) (block : Block) : List (List UInt8) :=
  block.hashInput Γ :: merkleHashed Γ (block.minerTransaction.hash Γ :: block.transactions) ++ block.minerTransaction.hashed Γ

/-- Two blocks are the one whose hash is the correct one of block 202612 and one whose hash is the one that block was given. -/
def Swapped202612 (Γ : Ctx) (block block' : Block) : Prop :=
  Γ.keccak256 (block.hashInput Γ) = CORRECT_BLOCK_HASH_202612 ∧ Γ.keccak256 (block'.hashInput Γ) = EXISTING_BLOCK_HASH_202612

theorem hash_eq (Γ : Ctx) (block : Block) :
    block.hash Γ = if Γ.keccak256 (block.hashInput Γ) = CORRECT_BLOCK_HASH_202612 then EXISTING_BLOCK_HASH_202612
      else Γ.keccak256 (block.hashInput Γ) := rfl

/-- A block is its header, its miner transaction and the hashes of its transactions. -/
theorem eq_of_fields {block block' : Block} (hheader : block.header = block'.header)
    (hminer : block.minerTransaction = block'.minerTransaction) (htransactions : block.transactions = block'.transactions) :
    block = block' :=
  Option.some.inj ((new_eq_some_iff.2 ⟨rfl, rfl, rfl⟩).symm.trans
    (new_eq_some_iff.2 ⟨hheader.symm, hminer.symm, htransactions.symm⟩))

/-- What is hashed for a block gives its header, its Merkle root and its amount of transactions. -/
theorem serializePowHash_inj {Γ : Ctx} {block block' : Block} (h : block.serializePowHash Γ = block'.serializePowHash Γ) :
    block.header = block'.header ∧
      merkleRoot Γ (block.minerTransaction.hash Γ :: block.transactions) =
        merkleRoot Γ (block'.minerTransaction.hash Γ :: block'.transactions) ∧
      block.transactions.length = block'.transactions.length := by
  simp only [serializePowHash, List.append_assoc] at h
  obtain ⟨hheader, h⟩ := BlockHeader.reads_read.append_inj trivial trivial h
  obtain ⟨hroot, h⟩ := Bytes.append_inj h
  refine ⟨hheader, ?_, ?_⟩
  · rw [← Option.some_get (isSome_merkleRoot Γ _ block.transactions), hroot, Option.some_get]
  · rw [← List.append_nil (VarInt.write (1 + block.transactions.length)),
      ← List.append_nil (VarInt.write (1 + block'.transactions.length))] at h
    have := (VarInt.append_inj h).1
    omega

/-- The hash of a block, but for the block which was given another, binds it. -/
theorem binding_hashInput (Γ : Ctx) :
    Binding Γ.keccak256 Readable
      (fun block block' => block = block' ∨ Transaction.Confused Γ block.minerTransaction block'.minerTransaction)
      (fun block => Γ.keccak256 (block.hashInput Γ)) (hashed Γ) := by
  intro block block' hx hy h
  have hmono : ∀ {ps qs : List (List UInt8)}, Collide Γ.keccak256 ps qs → ps ⊆ block.hashed Γ → qs ⊆ block'.hashed Γ →
      Collide Γ.keccak256 (block.hashed Γ) (block'.hashed Γ) := fun hc hp hq => hc.mono hp hq
  have hmem : block.hashInput Γ ∈ block.hashed Γ := List.mem_cons_self
  have hmem' : block'.hashInput Γ ∈ block'.hashed Γ := List.mem_cons_self
  rcases eq_or_collide hmem hmem' h with hinput | hc
  · obtain ⟨hheader, hroot, hlen⟩ := serializePowHash_inj (VarInt.append_inj hinput).2
    rcases binding_merkleRoot Γ (block.transactions.length + 1) (block.minerTransaction.hash Γ :: block.transactions)
        (block'.minerTransaction.hash Γ :: block'.transactions) rfl (congrArg (· + 1) hlen.symm) hroot with he | hc
    · obtain ⟨hminer, htransactions⟩ := List.cons.inj he
      rcases Transaction.binding_hash Γ _ _ hx.minerTransaction hy.minerTransaction hminer with (htx | hconfused) | hc
      · exact Or.inl (Or.inl (eq_of_fields hheader htx htransactions))
      · exact Or.inl (Or.inr hconfused)
      · exact Or.inr (hmono hc (fun p hp => List.mem_append_right _ hp) fun p hp => List.mem_append_right _ hp)
    · refine Or.inr (hmono hc ?_ ?_)
      · exact fun p hp => List.mem_append_left _ (List.mem_cons_of_mem _ hp)
      · exact fun p hp => List.mem_append_left _ (List.mem_cons_of_mem _ hp)
  · exact Or.inr hc

/-- The hash of a block binds it. -/
theorem binding_hash (Γ : Ctx) :
    Binding Γ.keccak256 Readable
      (fun block block' => block = block' ∨ Transaction.Confused Γ block.minerTransaction block'.minerTransaction ∨
        Swapped202612 Γ block block' ∨ Swapped202612 Γ block' block) (hash Γ) (hashed Γ) := by
  intro block block' hx hy h
  have hkeccak : Γ.keccak256 (block.hashInput Γ) = Γ.keccak256 (block'.hashInput Γ) ∨
      Swapped202612 Γ block block' ∨ Swapped202612 Γ block' block := by
    rw [hash_eq, hash_eq] at h
    split at h <;> split at h
    · rename_i h1 h2
      exact Or.inl (h1.trans h2.symm)
    · rename_i h1 _
      exact Or.inr (Or.inl ⟨h1, h.symm⟩)
    · rename_i _ h2
      exact Or.inr (Or.inr ⟨h2, h⟩)
    · exact Or.inl h
  rcases hkeccak with hkeccak | hswapped
  · rcases binding_hashInput Γ block block' hx hy hkeccak with (he | hconfused) | hc
    · exact Or.inl (Or.inl he)
    · exact Or.inl (Or.inr (Or.inl hconfused))
    · exact Or.inr hc
  · exact Or.inl (Or.inr (Or.inr hswapped))

end Block

end MoneroOxide
