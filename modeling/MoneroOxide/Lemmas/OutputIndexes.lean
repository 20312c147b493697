import MoneroOxide.OutputIndexes
import MoneroOxide.Lemmas.BinRpc
import MoneroOxide.Theorems.Epee

/-!
# Walks over the answers which hold blocks

`Does` is what a walk does on a well-formed object: from some cursors to others, with a result. A loop over an iterator does what its
body does for each item, in order.
-/

namespace MoneroOxide

namespace BinRpc

open Epee (Item Field Kind Cursor Follows)

/-- From these cursors, whatever follows the object, the walk returns `a` and leaves those cursors. -/
def Does {α : Type} (cursors : List Cursor) (x : Walk α) (a : α) (cursors' : List Cursor) : Prop :=
  ∀ rest s, Follows rest cursors s → ∃ t, x s = .ok a t ∧ Follows rest cursors' t

namespace Does

variable {α β : Type} {cursors cursors₁ cursors' : List Cursor}

theorem pure (a : α) : Does cursors (pure a) a cursors := fun _ s h => ⟨s, rfl, h⟩

theorem bind {x : Walk α} {f : α → Walk β} {a : α} {b : β} (hx : Does cursors x a cursors₁) (hf : Does cursors₁ (f a) b cursors') :
    Does cursors (x >>= f) b cursors' := by
  intro rest s h
  obtain ⟨t, ht, h₁⟩ := hx rest s h
  obtain ⟨u, hu, h'⟩ := hf rest t h₁
  exact ⟨u, (Call.bind_of_ok ht).trans hu, h'⟩

end Does

variable {cursors : List Cursor}

/-! ## Calls -/

theorem does_ask {c : Epee.Call} {r : Epee.Response} {cursors' : List Cursor}
    (hconsume : Epee.consume c cursors = some (r, cursors'))
    (hok : ∀ e, r ≠ .error e) : Does cursors (ask c) r cursors' := by
  intro rest s h
  obtain ⟨t, ht, h'⟩ := Epee.follows_call h hconsume
  refine ⟨t, ?_, h'⟩
  unfold ask
  rw [ht]
  cases r with
  | error e => exact absurd rfl (hok e)
  | _ => rfl

theorem does_nextField_nil : Does (.fields [] :: cursors) nextField none (.fields [] :: cursors) :=
  (does_ask (r := .none) rfl nofun).bind (Does.pure _)

theorem does_nextField_cons (key : List UInt8) (kind : Kind) (array : Option Epee.Width) (items : List Item) (fields : List Field) :
    Does (.fields (.mk key kind array items :: fields) :: cursors) nextField (some key)
    (.entry kind items :: .fields fields :: cursors) :=
  (does_ask (r := .field key kind items.length) rfl nofun).bind (Does.pure _)

theorem does_nextItem_nil (kind : Kind) : Does (.array kind [] :: cursors) nextItem false (.array kind [] :: cursors) :=
  (does_ask (r := .none) rfl nofun).bind (Does.pure _)

theorem does_nextItem_cons (kind : Kind) (item : Item) (items : List Item) :
    Does (.array kind (item :: items) :: cursors) nextItem true (.entry kind [item] :: .array kind items :: cursors) :=
  (does_ask (r := .entry kind 1) rfl nofun).bind (Does.pure _)

theorem does_fields (width : Epee.Width) (inner : List Field) :
    Does (.entry .Object [.object width inner] :: cursors) fields () (.fields inner :: cursors) :=
  (does_ask (r := .iterator) rfl nofun).bind (Does.pure _)

theorem does_iterate (kind : Kind) (items : List Item) :
    Does (.entry kind items :: cursors) iterate () (.array kind items :: cursors) :=
  (does_ask (r := .iterator) rfl nofun).bind (Does.pure _)

theorem does_dropInnermost (cursor : Cursor) : Does (cursor :: cursors) dropInnermost () cursors :=
  (does_ask (r := .dropped) rfl nofun).bind (Does.pure _)

theorem does_toStr (width : Epee.Width) (bytes : List UInt8) :
    Does (.entry .String [.string width bytes] :: cursors) toStr bytes cursors :=
  (does_ask (r := .value (.str bytes)) rfl nofun).bind (Does.pure _)

theorem does_toU64 (n : UInt64) : Does (.entry .Uint64 [.int (n.toNat : ℤ)] :: cursors) toU64 n cursors := by
  refine (does_ask (r := .value (.int n.toNat)) rfl nofun).bind ?_
  dsimp only
  rw [Int.toNat_natCast, UInt64.ofNat_toNat]
  exact Does.pure n

theorem does_epee32 (width : Epee.Width) (bytes : Bytes 32) :
    Does (.entry .String [.string width bytes.toList] :: cursors) epee32 bytes cursors := by
  have hlen : bytes.toList.length = 32 := bytes.2
  have hread : Epee.readItem (.to_fixed_len_str 32) (.string width bytes.toList) = some (.str bytes.toList) := if_pos hlen
  have hconsume : Epee.consume (.access (.to_fixed_len_str 32)) (.entry .String [.string width bytes.toList] :: cursors) =
      some (.value (.str bytes.toList), cursors) := by
    simp only [Epee.consume, Epee.consumeEntry, hread]
    rfl
  refine (does_ask hconsume nofun).bind ?_
  dsimp only
  rw [dif_pos hlen]
  exact Does.pure bytes

/-! ## Loops -/

theorem does_fieldsLoop {β : Type} {body : List UInt8 → β → Walk β} (step : Field → β → β) {fields : List Field}
    (hbody : ∀ key kind array items, .mk key kind array items ∈ fields → ∀ later acc,
      Does (.entry kind items :: .fields later :: cursors) (body key acc) (step (.mk key kind array items) acc)
      (.fields later :: cursors))
    {fuel : ℕ} (hfuel : fields.length < fuel) (acc : β) :
    Does (.fields fields :: cursors) (fieldsLoop body fuel acc) (fields.foldl (fun acc field => step field acc) acc)
      (.fields [] :: cursors) := by
  induction fields generalizing fuel acc with
  | nil =>
    cases fuel with
    | zero => cases hfuel
    | succ fuel => exact does_nextField_nil.bind (Does.pure acc)
  | cons field fields ih =>
    cases fuel with
    | zero => cases hfuel
    | succ fuel =>
      obtain ⟨key, kind, array, items⟩ := field
      refine (does_nextField_cons key kind array items fields).bind ?_
      refine (hbody key kind array items List.mem_cons_self fields acc).bind ?_
      exact ih (fun key kind array items hmem => hbody key kind array items (List.mem_cons_of_mem _ hmem))
        (Nat.lt_of_succ_lt_succ hfuel) _

theorem does_forFields {β : Type} {body : List UInt8 → β → Walk β} (step : Field → β → β) {fields : List Field}
    (hbody : ∀ key kind array items, .mk key kind array items ∈ fields → ∀ later acc,
      Does (.entry kind items :: .fields later :: cursors) (body key acc) (step (.mk key kind array items) acc)
      (.fields later :: cursors))
    (acc : β) :
    Does (.fields fields :: cursors) (forFields body acc) (fields.foldl (fun acc field => step field acc) acc)
      (.fields [] :: cursors) := by
  intro rest s h
  have hleft : itemsLeft s = fields.length := by
    unfold itemsLeft
    rw [h.handles]
    rfl
  exact does_fieldsLoop step hbody (by omega) acc rest s h

/-- A loop over an array adds the values of each item. -/
theorem does_itemsLoop {γ : Type} {body : List γ → Walk (List γ)} {kind : Kind} {items : List Item} {values : List (List γ)}
    (hbody : List.Forall₂ (fun item value => ∀ later acc,
      Does (.entry kind [item] :: .array kind later :: cursors) (body acc) (acc ++ value)
      (.array kind later :: cursors)) items values)
    {fuel : ℕ} (hfuel : items.length < fuel) (acc : List γ) :
    Does (.array kind items :: cursors) (itemsLoop body fuel acc) (acc ++ values.flatten) (.array kind [] :: cursors) := by
  induction hbody generalizing fuel acc with
  | nil =>
    cases fuel with
    | zero => cases hfuel
    | succ fuel =>
      rw [List.flatten_nil, List.append_nil]
      exact (does_nextItem_nil kind).bind (Does.pure acc)
  | @cons item value items values hitem _ ih =>
    cases fuel with
    | zero => cases hfuel
    | succ fuel =>
      rw [List.flatten_cons, ← List.append_assoc]
      refine (does_nextItem_cons kind item items).bind ?_
      exact (hitem items acc).bind (ih (Nat.lt_of_succ_lt_succ hfuel) _)

theorem does_forItems {γ : Type} {body : List γ → Walk (List γ)} {kind : Kind} {items : List Item} {values : List (List γ)}
    (hbody : List.Forall₂ (fun item value => ∀ later acc,
      Does (.entry kind [item] :: .array kind later :: cursors) (body acc) (acc ++ value)
      (.array kind later :: cursors)) items values)
    (acc : List γ) : Does (.array kind items :: cursors) (forItems body acc) (acc ++ values.flatten)
    (.array kind [] :: cursors) := by
  intro rest s h
  have hleft : itemsLeft s = items.length := by
    unfold itemsLeft
    rw [h.handles]
    rfl
  exact does_itemsLoop hbody (by omega) acc rest s h

/-- A loop over an array adds one value for each item. -/
theorem does_forItems_one {γ : Type} {body : List γ → Walk (List γ)} {kind : Kind} {items : List Item} {values : List γ}
    (hbody : List.Forall₂ (fun item value => ∀ later acc,
      Does (.entry kind [item] :: .array kind later :: cursors) (body acc) (acc ++ [value])
      (.array kind later :: cursors)) items values)
    (acc : List γ) : Does (.array kind items :: cursors) (forItems body acc) (acc ++ values) (.array kind [] :: cursors) := by
  have hdoes : Does (.array kind items :: cursors) (forItems body acc) (acc ++ (values.map fun value => [value]).flatten)
      (.array kind [] :: cursors) := does_forItems (List.forall₂_map_right_iff.2 hbody) acc
  rwa [← List.flatMap_def, List.flatMap_singleton'] at hdoes

theorem does_optionalFieldLoop_missing {α : Type} {key : List UInt8} {body : Walk α} {fields : List Field}
    (hmissing : ∀ field ∈ fields, keyOf field ≠ key) {fuel : ℕ} (hfuel : fields.length < fuel) :
    Does (.fields fields :: cursors) (optionalFieldLoop key body fuel) none (.fields [] :: cursors) := by
  induction fields generalizing fuel with
  | nil =>
    cases fuel with
    | zero => cases hfuel
    | succ fuel => exact does_nextField_nil.bind (Does.pure none)
  | cons field fields ih =>
    cases fuel with
    | zero => cases hfuel
    | succ fuel =>
      obtain ⟨key', kind, array, items⟩ := field
      have hne : key' ≠ key := hmissing _ List.mem_cons_self
      refine (does_nextField_cons key' kind array items fields).bind ?_
      dsimp only
      rw [if_neg hne]
      refine (does_dropInnermost _).bind ?_
      exact ih (fun field hmem => hmissing field (List.mem_cons_of_mem _ hmem)) (Nat.lt_of_succ_lt_succ hfuel)

theorem does_optionalFieldLoop_present {α : Type} {key : List UInt8} {body : Walk α} {kind : Kind} {array : Option Epee.Width}
    {items : List Item} {before after : List Field} {a : α} {cursors' : List Cursor} (hbefore : ∀ field ∈ before, keyOf field ≠ key)
    (hbody : Does (.entry kind items :: .fields after :: cursors) body a cursors') {fuel : ℕ}
    (hfuel : (before ++ .mk key kind array items :: after).length < fuel) :
    Does (.fields (before ++ .mk key kind array items :: after) :: cursors) (optionalFieldLoop key body fuel)
    (some a) cursors' := by
  induction before generalizing fuel with
  | nil =>
    cases fuel with
    | zero => cases hfuel
    | succ fuel =>
      refine (does_nextField_cons key kind array items after).bind ?_
      dsimp only
      rw [if_pos rfl]
      exact Does.bind (f := fun a => pure (some a)) hbody (Does.pure _)
  | cons field before ih =>
    cases fuel with
    | zero => cases hfuel
    | succ fuel =>
      obtain ⟨key', kind', array', items'⟩ := field
      have hne : key' ≠ key := hbefore _ List.mem_cons_self
      refine (does_nextField_cons key' kind' array' items' _).bind ?_
      dsimp only
      rw [if_neg hne]
      refine (does_dropInnermost _).bind ?_
      exact ih (fun field hmem => hbefore field (List.mem_cons_of_mem _ hmem)) (Nat.lt_of_succ_lt_succ hfuel)

theorem withKey_eq_nil {key : String} {fields : List Field} (h : withKey key fields = []) :
    ∀ field ∈ fields, keyOf field ≠ ascii key := by
  intro field hmem heq
  have hin : field ∈ withKey key fields := List.mem_filter.2 ⟨hmem, decide_eq_true heq⟩
  rw [h] at hin
  cases hin

theorem itemsLeft_of_follows {rest : List UInt8} {fields : List Field} {s : Epee.State}
    (h : Follows rest (.fields fields :: cursors) s) :
    itemsLeft s = fields.length := by
  unfold itemsLeft
  rw [h.handles]
  rfl

theorem does_optionalField_missing {α : Type} {key : String} {body : Walk α} {fields : List Field} (h : withKey key fields = []) :
    Does (.fields fields :: cursors) (optionalField key body) none (.fields [] :: cursors) := by
  intro rest s hs
  have hleft := itemsLeft_of_follows hs
  exact does_optionalFieldLoop_missing (withKey_eq_nil h) (by omega) rest s hs

theorem does_optionalField_present {α : Type} {key : String} {body : Walk α} {fields : List Field} {kind : Kind} {items : List Item}
    (h : HasField fields key kind items) {a : α} {cursors' : List Cursor} 
    (hbody : ∀ after, Does (.entry kind items :: .fields after :: cursors) body a (cursors' ++ .fields after :: cursors)) :
    ∃ after, Does (.fields fields :: cursors) (optionalField key body) (some a) (cursors' ++ .fields after :: cursors) := by
  obtain ⟨array, hfilter⟩ := h
  obtain ⟨before, after, rfl, hbefore, -⟩ := List.filter_eq_cons_iff.1 hfilter
  refine ⟨after, fun rest s hs => ?_⟩
  have hleft := itemsLeft_of_follows hs
  refine does_optionalFieldLoop_present (fun field hmem heq => ?_) (hbody after) (by omega) rest s hs
  exact absurd (decide_eq_true heq) (hbefore field hmem)

/-! ## Fields by their key -/

/-- What a loop over fields does with two keys: a function for each of them, on its part of what is kept. -/
def byKey {α β : Type} (key₁ key₂ : String) (f : α → α) (g : β → β) (field : Field) (acc : α × β) : α × β :=
  if keyOf field = ascii key₁ then (f acc.1, acc.2) else if keyOf field = ascii key₂ then (acc.1, g acc.2) else acc

/-- The functions are applied as often as there are fields with the keys, in whatever order these come. -/
theorem foldl_byKey {α β : Type} {key₁ key₂ : String} (hne : ascii key₁ ≠ ascii key₂) (f : α → α) (g : β → β) (fields : List Field)
    (acc : α × β) :
    fields.foldl (fun acc field => byKey key₁ key₂ f g field acc) acc =
      (f^[(withKey key₁ fields).length] acc.1, g^[(withKey key₂ fields).length] acc.2) := by
  induction fields generalizing acc with
  | nil => rfl
  | cons field fields ih =>
    rw [List.foldl_cons, ih]
    unfold byKey withKey
    by_cases h₁ : keyOf field = ascii key₁
    · have h₂ : keyOf field ≠ ascii key₂ := fun h₂ => hne (h₁.symm.trans h₂)
      rw [if_pos h₁, List.filter_cons_of_pos (by simpa using h₁), List.filter_cons_of_neg (by simpa using h₂)]
      rfl
    · rw [if_neg h₁, List.filter_cons_of_neg (by simpa using h₁)]
      by_cases h₂ : keyOf field = ascii key₂
      · rw [if_pos h₂, List.filter_cons_of_pos (by simpa using h₂)]
        rfl
      · rw [if_neg h₂, List.filter_cons_of_neg (by simpa using h₂)]

/-- The field with a key is the one there is. -/
theorem HasField.eq {fields : List Field} {key : String} {kind kind' : Kind} {items items' : List Item} {array : Option Epee.Width}
    (h : HasField fields key kind items) (hmem : .mk (ascii key) kind' array items' ∈ fields) : kind' = kind ∧ items' = items := by
  obtain ⟨array', hfilter⟩ := h
  have hin : .mk (ascii key) kind' array items' ∈ withKey key fields := List.mem_filter.2 ⟨hmem, decide_eq_true rfl⟩
  rw [hfilter, List.mem_singleton] at hin
  injection hin with _ hkind _ hitems
  exact ⟨hkind, hitems⟩

theorem HasField.length {fields : List Field} {key : String} {kind : Kind} {items : List Item}
    (h : HasField fields key kind items) :
    (withKey key fields).length = 1 := by
  obtain ⟨array, hfilter⟩ := h
  rw [hfilter]
  rfl

theorem HasArray.eq {fields : List Field} {key : String} {kind kind' : Kind} {items items' : List Item} {array : Option Epee.Width}
    (h : HasArray fields key kind items) (hmem : .mk (ascii key) kind' array items' ∈ fields) : kind' = kind ∧ items' = items := by
  rcases h with h | ⟨-, hnil⟩
  · exact h.eq hmem
  · exact absurd rfl (withKey_eq_nil hnil _ hmem)

/-- What is added for the items of an array is added once, or there is nothing to add. -/
theorem HasArray.iterate {γ : Type} {fields : List Field} {key : String} {kind : Kind} {items : List Item}
    (h : HasArray fields key kind items) {values : List γ} (hvalues : items = [] → values = []) (acc : List γ) :
    (fun acc => acc ++ values)^[(withKey key fields).length] acc = acc ++ values := by
  rcases h with h | ⟨hnil, hfilter⟩
  · rw [h.length]
    rfl
  · rw [hfilter, hvalues hnil, List.append_nil]
    rfl

/-! ## Transactions and blocks -/

theorem does_readWhole {α : Type} {read : Read α} {name : String} {encoding : List UInt8} {a : α} (h : read encoding = .ok a []) :
    Does cursors (readWhole read name encoding) a cursors := by
  unfold readWhole
  rw [h]
  exact Does.pure a

/-- The prunable hash of an answer is the one the transaction has. -/
theorem does_checkPrunableHash {transaction : PrunedTransactionWithPrunableHash} {prunableHash : Option (Bytes 32)}
    (h : PrunableHashFor transaction prunableHash) :
    Does cursors (checkPrunableHash transaction.transaction prunableHash) transaction cursors := by
  obtain ⟨transaction, hash, hok⟩ := transaction
  obtain ⟨hsome, hproofs⟩ := h
  dsimp only at hsome hproofs ⊢
  unfold checkPrunableHash
  cases transaction with
  | V1 txPrefix signatures =>
    obtain rfl : hash = none := hok
    rw [if_neg (fun hc => Bool.false_ne_true hc.1)]
    have hfilter : (prunableHash.filter fun _ => !(Transaction.V1 txPrefix signatures : Transaction Pruned).isV1) = none := by
      cases prunableHash <;> rfl
    simp only [hfilter]
    exact Does.pure _
  | V2 txPrefix proofs =>
    have hfilter : (prunableHash.filter fun _ => !(Transaction.V2 txPrefix proofs : Transaction Pruned).isV1) = prunableHash := by
      cases prunableHash <;> rfl
    simp only [hfilter]
    obtain ⟨given, rfl⟩ := Option.isSome_iff_exists.1 (hsome rfl)
    cases proofs with
    | none =>
      obtain rfl : hash = some (Bytes.replicate 32 0) := hok.2 rfl
      rw [if_neg (fun hc => Bool.false_ne_true hc.1)]
      exact Does.pure _
    | some proofs =>
      obtain ⟨rfl, hne⟩ := hproofs rfl
      rw [if_neg (fun hc => hc.2.elim nofun hne)]
      exact Does.pure _

theorem does_transactionField {fields : List Field} {blobWidth : Epee.Width} {blob : List UInt8} {transaction : Transaction Pruned}
    {prunableHash : Option (Bytes 32)} (hblob : HasField fields "blob" .String [.string blobWidth blob])
    (hread : Transaction.read Pruned blob = .ok transaction []) (hhash : PrunableHashIs fields prunableHash)
    (key : List UInt8) (kind : Kind)
    (array : Option Epee.Width) (items : List Item) (hmem : .mk key kind array items ∈ fields) (later : List Field)
    (acc : Option (Transaction Pruned) × Option (Bytes 32)) :
    Does (.entry kind items :: .fields later :: cursors) (transactionField key acc)
      (byKey "blob" "prunable_hash" (fun _ => some transaction) (fun _ => prunableHash) (.mk key kind array items) acc)
      (.fields later :: cursors) := by
  unfold transactionField byKey keyOf
  by_cases hkey : key = ascii "blob"
  · subst hkey
    obtain ⟨rfl, rfl⟩ := hblob.eq hmem
    rw [if_pos rfl, if_pos rfl]
    exact (does_toStr blobWidth blob).bind ((does_readWhole hread).bind (Does.pure _))
  rw [if_neg hkey, if_neg hkey]
  by_cases hkey' : key = ascii "prunable_hash"
  · subst hkey'
    rw [if_pos rfl, if_pos rfl]
    cases prunableHash with
    | none => exact absurd rfl (withKey_eq_nil hhash _ hmem)
    | some hash =>
      obtain ⟨hashWidth, hhash⟩ := hhash
      obtain ⟨rfl, rfl⟩ := hhash.eq hmem
      exact (does_epee32 hashWidth hash).bind (Does.pure _)
  · rw [if_neg hkey', if_neg hkey']
    exact (does_dropInnermost _).bind (Does.pure _)

theorem does_transactionItem {item : Item} {transaction : PrunedTransactionWithPrunableHash} (h : TransactionIs item transaction)
    (transactions : List PrunedTransactionWithPrunableHash) :
    Does (.entry .Object [item] :: cursors) (transactionItem transactions) (transactions ++ [transaction]) cursors := by
  obtain ⟨width, fields, blob, prunableHash, rfl, ⟨blobWidth, hblob⟩, hread, hhash, hfor⟩ := h
  have hloop : Does (.fields fields :: cursors) (forFields transactionField (none, none)) _ (.fields [] :: cursors) :=
    does_forFields _ (does_transactionField hblob hread hhash) (none, none)
  have hcount : (fun _ => prunableHash)^[(withKey "prunable_hash" fields).length] none = prunableHash := by
    cases prunableHash with
    | none =>
      rw [show withKey "prunable_hash" fields = [] from hhash]
      rfl
    | some hash =>
      obtain ⟨hashWidth, hhash⟩ := hhash
      rw [hhash.length]
      rfl
  rw [foldl_byKey (by decide), hblob.length, hcount] at hloop
  refine (does_fields width fields).bind (hloop.bind ?_)
  refine (does_checkPrunableHash hfor).bind ?_
  exact (does_dropInnermost _).bind (Does.pure _)

theorem does_blockField {fields : List Field} {blobWidth : Epee.Width} {blob : List UInt8} {items : List Item} {b : IndexedBlock}
    (hblob : HasField fields "block" .String [.string blobWidth blob]) (hread : Block.read blob = .ok b.block [])
    (htxs : HasArray fields "txs" .Object items) (hitems : List.Forall₂ TransactionIs items b.transactions)
    (key : List UInt8) (kind : Kind)
    (array : Option Epee.Width) (items' : List Item) (hmem : .mk key kind array items' ∈ fields) (later : List Field)
    (acc : Option Block × List PrunedTransactionWithPrunableHash) :
    Does (.entry kind items' :: .fields later :: cursors) (blockField key acc)
      (byKey "block" "txs" (fun _ => some b.block) (fun acc => acc ++ b.transactions) (.mk key kind array items') acc)
      (.fields later :: cursors) := by
  unfold blockField byKey keyOf
  by_cases hkey : key = ascii "block"
  · subst hkey
    obtain ⟨rfl, rfl⟩ := hblob.eq hmem
    rw [if_pos rfl, if_pos rfl]
    exact (does_toStr blobWidth blob).bind ((does_readWhole hread).bind (Does.pure _))
  rw [if_neg hkey, if_neg hkey]
  by_cases hkey' : key = ascii "txs"
  · subst hkey'
    rw [if_pos rfl, if_pos rfl]
    obtain ⟨rfl, rfl⟩ := htxs.eq hmem
    refine (does_iterate _ _).bind ?_
    refine (does_forItems_one (hitems.imp fun item transaction htransaction later acc => ?_) _).bind ?_
    · exact does_transactionItem htransaction acc
    · exact (does_dropInnermost _).bind (Does.pure _)
  · rw [if_neg hkey', if_neg hkey']
    exact (does_dropInnermost _).bind (Does.pure _)

theorem does_blockItem {item : Item} {b : IndexedBlock} (h : BlockIs item b)
    (res : List (Block × List PrunedTransactionWithPrunableHash)) :
    Does (.entry .Object [item] :: cursors) (blockItem res) (res ++ [(b.block, b.transactions)]) cursors := by
  obtain ⟨width, fields, blob, items, rfl, ⟨blobWidth, hblob⟩, hread, htxs, hitems⟩ := h
  have hnil : items = [] → b.transactions = [] := by
    rintro rfl
    exact List.forall₂_nil_left_iff.1 hitems
  have hloop : Does (.fields fields :: cursors) (forFields blockField (none, [])) _ (.fields [] :: cursors) :=
    does_forFields _ (does_blockField hblob hread htxs hitems) (none, [])
  rw [foldl_byKey (by decide), hblob.length, htxs.iterate hnil] at hloop
  refine (does_fields width fields).bind (hloop.bind ?_)
  exact (does_dropInnermost _).bind (Does.pure _)

/-! ## Indexes -/

/-- The values of an array which may be missing are added. -/
theorem does_indicesItem {body : List UInt64 → Walk (List UInt64)} {width : Epee.Width} {fields : List Field} {kind : Kind}
    {items : List Item} {values : List (List UInt64)} (h : HasArray fields "indices" kind items)
    (hbody : ∀ cursors, List.Forall₂ (fun item value => ∀ later acc,
      Does (.entry kind [item] :: .array kind later :: cursors) (body acc) (acc ++ value)
      (.array kind later :: cursors)) items values)
    (acc : List UInt64) :
    Does (.entry .Object [.object width fields] :: cursors) (indicesItem body acc) (acc ++ values.flatten) cursors := by
  refine (does_fields width fields).bind ?_
  rcases h with h | ⟨rfl, hmissing⟩
  · have hiterate : ∀ after, Does (.entry kind items :: .fields after :: cursors) iterate ()
        ([.array kind items] ++ .fields after :: cursors) := fun after => does_iterate kind items
    obtain ⟨after, hfield⟩ := does_optionalField_present h hiterate
    refine hfield.bind ((does_forItems (hbody _) acc).bind ?_)
    exact (does_dropInnermost _).bind ((does_dropInnermost _).bind (Does.pure _))
  · obtain rfl : values = [] := List.forall₂_nil_left_iff.1 (hbody cursors)
    refine (does_optionalField_missing hmissing).bind ?_
    rw [List.flatten_nil, List.append_nil]
    exact (does_dropInnermost _).bind (Does.pure _)

theorem does_transactionIndexes {item : Item} {indexes : List UInt64} (h : TransactionIndexesAre item indexes) (acc : List UInt64) :
    Does (.entry .Object [item] :: cursors) (indicesItem indexItem acc) (acc ++ indexes) cursors := by
  obtain ⟨width, fields, rfl, harray⟩ := h
  have hdoes : Does (.entry .Object [.object width fields] :: cursors) (indicesItem indexItem acc)
      (acc ++ (indexes.map fun index => [index]).flatten) cursors := by
    refine does_indicesItem harray (fun cursors => ?_) acc
    rw [List.forall₂_map_left_iff, List.forall₂_map_right_iff, List.forall₂_same]
    intro index _ later acc
    exact (does_toU64 index).bind (Does.pure _)
  rwa [← List.flatMap_def, List.flatMap_singleton'] at hdoes

theorem does_blockIndexes {item : Item} {indexes : List (List UInt64)} (h : BlockIndexesAre item indexes) (acc : List UInt64) :
    Does (.entry .Object [item] :: cursors) (indicesItem (indicesItem indexItem) acc) (acc ++ indexes.flatten) cursors := by
  obtain ⟨width, fields, items, rfl, harray, hitems⟩ := h
  exact does_indicesItem harray (fun cursors => hitems.imp fun item indexes hindexes later acc => does_transactionIndexes hindexes acc) acc

/-! ## The whole answer -/

theorem decode_of_does {α : Type} {width : Epee.Width} {fields : List Field}
    (hok : (Item.object width fields).Ok .Object Epee.MAX_LEVEL)
    {walk : Walk α} {a : α} {cursors' : List Cursor} (h : Does [.fields fields] walk a cursors') (rest : List UInt8) :
    decode (Epee.HEADER ++ Epee.VERSION :: ((Item.object width fields).encode .Object ++ rest)) walk = .ok (some a) := by
  have hwalk : Does [.entry .Object [.object width fields]] (BinRpc.fields >>= fun _ => walk) a cursors' :=
    (does_fields width fields).bind h
  obtain ⟨t, ht, -⟩ := hwalk rest _ (Epee.follows_root hok rest)
  have hroot : (root >>= fun _ => walk) ⟨⟨⟨(Item.object width fields).encode .Object ++ rest, Epee.Stack.rootObject⟩, none⟩, []⟩ =
      .ok a t := ht
  unfold decode
  rw [Epee.new_encode]
  dsimp only
  rw [hroot]

/-- What an answer adds for its fields: the blocks, and the indexes of all outputs. -/
theorem does_answerField {fields : List Field} {blockItems indexItems : List Item} {blocks : List IndexedBlock}
    (hblocks : HasArray fields "blocks" .Object blockItems) (hblockItems : List.Forall₂ BlockIs blockItems blocks)
    (hindexes : HasArray fields "output_indices" .Object indexItems)
    (hindexItems : List.Forall₂ (fun item b => BlockIndexesAre item b.indexes) indexItems blocks) (key : List UInt8) (kind : Kind)
    (array : Option Epee.Width) (items : List Item) (hmem : .mk key kind array items ∈ fields) (later : List Field)
    (acc : List (Block × List PrunedTransactionWithPrunableHash) × List UInt64) :
    Does (.entry kind items :: .fields later :: cursors) (answerField key acc)
      (byKey "blocks" "output_indices" (fun acc => acc ++ blocks.map fun b => (b.block, b.transactions))
        (fun acc => acc ++ blocks.flatMap fun b => b.indexes.flatten)
        (.mk key kind array items) acc) (.fields later :: cursors) := by
  unfold answerField byKey keyOf
  by_cases hkey : key = ascii "blocks"
  · subst hkey
    rw [if_pos rfl, if_pos rfl]
    obtain ⟨rfl, rfl⟩ := hblocks.eq hmem
    have hloop : Does (.array .Object items :: .fields later :: cursors) (forItems blockItem acc.1)
        (acc.1 ++ blocks.map fun b => (b.block, b.transactions)) (.array .Object [] :: .fields later :: cursors) := by
      refine does_forItems_one (List.forall₂_map_right_iff.2 (hblockItems.imp fun item b hb later acc => ?_)) _
      exact does_blockItem hb acc
    exact (does_iterate _ _).bind (hloop.bind ((does_dropInnermost _).bind (Does.pure _)))
  rw [if_neg hkey, if_neg hkey]
  by_cases hkey' : key = ascii "output_indices"
  · subst hkey'
    rw [if_pos rfl, if_pos rfl]
    obtain ⟨rfl, rfl⟩ := hindexes.eq hmem
    have hloop : Does (.array .Object items :: .fields later :: cursors) (forItems (indicesItem (indicesItem indexItem)) acc.2)
        (acc.2 ++ (blocks.map fun b => b.indexes.flatten).flatten) (.array .Object [] :: .fields later :: cursors) := by
      refine does_forItems (List.forall₂_map_right_iff.2 (hindexItems.imp fun item b hb later acc => ?_)) _
      exact does_blockIndexes hb acc
    rw [List.flatMap_def]
    exact (does_iterate _ _).bind (hloop.bind ((does_dropInnermost _).bind (Does.pure _)))
  · rw [if_neg hkey', if_neg hkey']
    exact (does_dropInnermost _).bind (Does.pure _)

/-- The blocks of an answer, and the indexes of all outputs in their order. -/
theorem decode_answer {root : Item} {blocks : List IndexedBlock} (hok : root.Ok .Object Epee.MAX_LEVEL) (h : AnswerIs root blocks)
    (rest : List UInt8) :
    decode (Epee.HEADER ++ Epee.VERSION :: (root.encode .Object ++ rest)) (forFields answerField ([], [])) =
      .ok (some (blocks.map fun b => (b.block, b.transactions), blocks.flatMap fun b => b.indexes.flatten)) := by
  obtain ⟨width, fields, blockItems, indexItems, rfl, hblocks, hblockItems, hindexes, hindexItems⟩ := h
  have hnil : blockItems = [] → (blocks.map fun b => (b.block, b.transactions)) = [] := by
    rintro rfl
    rw [List.forall₂_nil_left_iff.1 hblockItems]
    rfl
  have hnil' : indexItems = [] → (blocks.flatMap fun b => b.indexes.flatten) = [] := by
    rintro rfl
    rw [List.forall₂_nil_left_iff.1 hindexItems]
    rfl
  have hloop : Does [.fields fields] (forFields answerField ([], [])) _ [.fields []] :=
    does_forFields _ (does_answerField hblocks hblockItems hindexes hindexItems) ([], [])
  rw [foldl_byKey (by decide), hblocks.iterate hnil, hindexes.iterate hnil'] at hloop
  exact decode_of_does hok hloop rest

/-! ## Other answers -/

theorem checkStatus_eq {width : Epee.Width} {fields : List Field} (hok : (Item.object width fields).Ok .Object Epee.MAX_LEVEL)
    (hstatus : HasString fields "status" (ascii "OK")) (rest : List UInt8) :
    checkStatus (Epee.HEADER ++ Epee.VERSION :: ((Item.object width fields).encode .Object ++ rest)) = .ok () := by
  obtain ⟨stringWidth, hstatus⟩ := hstatus
  have hstr : ∀ after, Does [.entry .String [.string stringWidth (ascii "OK")], .fields after] toStr (ascii "OK")
    ([] ++ [.fields after]) :=
    fun after => does_toStr stringWidth (ascii "OK")
  obtain ⟨after, hfield⟩ := does_optionalField_present hstatus hstr
  have hwalk : Does [.fields fields] (field "status" toStr) (ascii "OK") [.fields after] := hfield.bind (Does.pure _)
  unfold checkStatus
  rw [decode_of_does hok hwalk rest]
  rfl

theorem extractOutputIndexes_eq {width : Epee.Width} {fields : List Field} {indexes : List UInt64}
    (hok : (Item.object width fields).Ok .Object Epee.MAX_LEVEL)
    (hindexes : HasField fields "o_indexes" .Uint64 (indexes.map fun index => .int (index.toNat : ℤ))) (rest : List UInt8) :
    extractOutputIndexes (Epee.HEADER ++ Epee.VERSION :: ((Item.object width fields).encode .Object ++ rest)) = .ok indexes := by
  have hiterate : ∀ after, Does [.entry .Uint64 (indexes.map fun index => .int (index.toNat : ℤ)), .fields after] iterate ()
      ([.array .Uint64 (indexes.map fun index => .int (index.toNat : ℤ))] ++ [.fields after]) := fun after => does_iterate _ _
  obtain ⟨after, hfield⟩ := does_optionalField_present hindexes hiterate
  have hloop : Does [.array .Uint64 (indexes.map fun index => .int (index.toNat : ℤ)), .fields after]
      (forItems indexItem []) ([] ++ indexes) [.array .Uint64 [], .fields after] := by
    refine does_forItems_one ?_ []
    rw [List.forall₂_map_left_iff, List.forall₂_same]
    intro index _ later acc
    exact (does_toU64 index).bind (Does.pure _)
  have hwalk : Does [.fields fields] outputIndexesWalk indexes [.array .Uint64 [], .fields after] := hfield.bind hloop
  unfold extractOutputIndexes
  rw [decode_of_does hok hwalk rest]
  rfl

theorem answers_attempt {σ ε ε' α : Type} {x : EStateM ε σ α} {a : α} (h : Call.Answers x a) :
    Call.Answers (Blocks.attempt x : Call σ ε' (Except ε α)) (.ok a) := by
  intro s
  obtain ⟨t, ht⟩ := h s
  refine ⟨t, ?_⟩
  unfold Blocks.attempt
  rw [ht]

/-- A daemon whose transport answers with the indexes of the outputs of a transaction. -/
theorem answers_outputIndexes {σ : Type} {daemon : MoneroDaemon σ} {width : Epee.Width} {fields : List Field}
    {indexes : List UInt64}
    (hok : (Item.object width fields).Ok .Object Epee.MAX_LEVEL) (hstatus : HasString fields "status" (ascii "OK"))
    (hindexes : HasField fields "o_indexes" .Uint64 (indexes.map fun index => .int (index.toNat : ℤ)))
    (hlen : (Epee.HEADER ++ Epee.VERSION :: ((Item.object width fields).encode .Object ++ [])).length ≤
      MIN_RESPONSE_SIZE_IN_BYTES_ESTIMATE)
    (htransport : ∀ body limit, Call.Answers (daemon.transport "get_o_indexes.bin" body limit)
      (Epee.HEADER ++ Epee.VERSION :: ((Item.object width fields).encode .Object ++ []))) (hash : Bytes 32) :
    Call.Answers (outputIndexes daemon hash) indexes := by
  have hreceived : ∀ limit, received limit
      (.ok (Epee.HEADER ++ Epee.VERSION :: ((Item.object width fields).encode .Object ++ []))) =
        .ok (Epee.HEADER ++ Epee.VERSION :: ((Item.object width fields).encode .Object ++ [])) := by
    intro limit
    have hmin : MIN_RESPONSE_SIZE_IN_BYTES_ESTIMATE ≤ binResponseSizeLimit limit := by
      unfold binResponseSizeLimit
      refine le_min (le_min ?_ (by decide)) (by decide)
      exact (Nat.le_max_right _ _).trans (Nat.le_add_left _ _)
    unfold received
    dsimp only
    rw [List.take_of_length_le (hlen.trans hmin), checkStatus_eq hok hstatus]
    rfl
  unfold outputIndexes binCall
  refine Call.Answers.bind ((answers_attempt (htransport _ _)).bind (Call.Answers.ofExcept (hreceived _))) ?_
  exact Call.Answers.ofExcept (extractOutputIndexes_eq hok hindexes [])

end BinRpc

end MoneroOxide
