import Mathlib.Tactic.Zify
import MoneroOxide.EpeeObject
import MoneroOxide.Lemmas.Epee

/-!
# The decoder follows the cursors over a well-formed object
-/

namespace MoneroOxide

namespace Epee

/-! ## Reads of what was encoded -/

theorem readBytes_append (bytes rest : List UInt8) : readBytes bytes.length (bytes ++ rest) = .ok bytes rest := by
  unfold readBytes
  rw [if_neg (by rw [List.length_append]; omega), List.take_left, List.drop_left]

theorem replicate_readByte_append (bytes rest : List UInt8) :
    Reader.replicate readByte bytes.length (bytes ++ rest) = .ok bytes rest := by
  induction bytes with
  | nil => rfl
  | cons b bytes ih =>
    have hbyte : readByte (b :: bytes ++ rest) = .ok b (bytes ++ rest) := readByte_cons b _
    change (readByte >>= fun b => Reader.replicate readByte bytes.length >>= fun bs => pure (b :: bs)) _ = _
    rw [Call.bind_of_ok hbyte, Call.bind_of_ok ih]
    rfl

theorem readVarint_encode {width : Width} {n : ℕ} (h : width.Holds n) (rest : List UInt8) :
    readVarint (width.encode n ++ rest) = .ok n rest := by
  obtain ⟨k, hk⟩ : ∃ k, width.bytes = k + 1 := by cases width <;> exact ⟨_, rfl⟩
  have hbits : width.bits < 4 := by cases width <;> decide
  have hlt : 4 * n + width.bits < 256 ^ width.bytes := by
    have hdvd : 4 ∣ 256 ^ width.bytes := Dvd.dvd.pow (by decide) (by omega)
    unfold Width.Holds at h
    omega
  have hencode : width.encode n = UInt8.ofNat ((4 * n + width.bits) % 256) :: leList k ((4 * n + width.bits) / 256) := by
    rw [Width.encode, hk, leList]
  have hlen : varintLen (UInt8.ofNat ((4 * n + width.bits) % 256)) - 1 = k := by
    have hstart : (UInt8.ofNat ((4 * n + width.bits) % 256)).toNat % 4 = width.bits := by
      rw [UInt8.toNat_ofNat']
      omega
    rw [varintLen, hstart]
    cases width <;> exact (Nat.succ.inj hk)
  have hvalue : leNat (width.encode n) / 4 = n := by
    rw [Width.encode, leNat_leList, Nat.mod_eq_of_lt hlt]
    omega
  have hread : readByte (width.encode n ++ rest) =
      .ok (UInt8.ofNat ((4 * n + width.bits) % 256)) (leList k ((4 * n + width.bits) / 256) ++ rest) := by
    rw [hencode]
    exact readByte_cons _ _
  have hrest := replicate_readByte_append (leList k ((4 * n + width.bits) / 256)) rest
  rw [length_leList] at hrest
  unfold readVarint
  rw [Call.bind_of_ok hread, hlen, Call.bind_of_ok hrest, ← hencode, hvalue]
  rfl

theorem Width.Holds.lt {width : Width} {n : ℕ} (h : width.Holds n) : n < 2 ^ 64 := by
  have hle : 256 ^ width.bytes ≤ 256 ^ 8 := Nat.pow_le_pow_right (by decide) (by cases width <;> decide)
  unfold Width.Holds at h
  norm_num at hle ⊢
  omega

theorem usizeTryFrom_of_lt {σ : Type} {n : ℕ} (h : n < 2 ^ 64) (s : σ) : usizeTryFrom n s = .ok n s := by
  unfold usizeTryFrom
  rw [if_pos h]
  rfl

theorem readUsize_encode {width : Width} {n : ℕ} (h : width.Holds n) (rest : List UInt8) :
    readUsize (width.encode n ++ rest) = .ok n rest := by
  unfold readUsize
  rw [Call.bind_of_ok (readVarint_encode h rest)]
  exact usizeTryFrom_of_lt h.lt rest

theorem readStr_encode {width : Width} {bytes : List UInt8} (h : width.Holds bytes.length) (rest : List UInt8) :
    readStr (width.encode bytes.length ++ bytes ++ rest) = .ok bytes rest := by
  unfold readStr
  rw [List.append_assoc, Call.bind_of_ok (readUsize_encode h _)]
  exact readBytes_append bytes rest

theorem readKey_encode {key : List UInt8} (hne : key ≠ []) (hlt : key.length < 256) (rest : List UInt8) :
    readKey (UInt8.ofNat key.length :: (key ++ rest)) = .ok key rest := by
  have hlen : (UInt8.ofNat key.length).toNat = key.length := by
    rw [UInt8.toNat_ofNat']
    omega
  have hzero : UInt8.ofNat key.length ≠ 0 := by
    intro he
    rw [he] at hlen
    exact hne (List.length_eq_zero_iff.1 hlen.symm)
  unfold readKey
  rw [Call.bind_of_ok (readByte_cons _ _), if_neg hzero, hlen]
  exact readBytes_append key rest

theorem kindRead_encode {kind : Kind} {array : Option Width} {len : ℕ} (h : LengthOk array len) (rest : List UInt8) :
    Kind.read (encodeKind kind array len ++ rest) = .ok (kind, len) rest := by
  have hlt : kind.discriminant < 128 := by cases kind <;> decide
  have hkind : Kind.ofDiscriminant kind.discriminant = some kind := Kind.ofDiscriminant_eq_some.2 rfl
  unfold Kind.read
  cases array with
  | none =>
    have hlen : len = 1 := h
    have hbyte : (UInt8.ofNat kind.discriminant).toNat = kind.discriminant := by
      rw [UInt8.toNat_ofNat']
      omega
    have hread : readByte (encodeKind kind none len ++ rest) = .ok (UInt8.ofNat kind.discriminant) rest := readByte_cons _ _
    rw [Call.bind_of_ok hread, hbyte, Nat.mod_eq_of_lt hlt, Nat.div_eq_of_lt hlt, hkind, hlen]
    rfl
  | some width =>
    have hbyte : (UInt8.ofNat (kind.discriminant + 128)).toNat = kind.discriminant + 128 := by
      rw [UInt8.toNat_ofNat']
      omega
    have hread : readByte (encodeKind kind (some width) len ++ rest) =
        .ok (UInt8.ofNat (kind.discriminant + 128)) (width.encode len ++ rest) := readByte_cons _ _
    have hmod : (kind.discriminant + 128) % 128 = kind.discriminant := by omega
    have hdiv : (kind.discriminant + 128) / 128 = 1 := by omega
    rw [Call.bind_of_ok hread, hbyte, hmod, hdiv, hkind]
    dsimp only
    rw [if_pos (by decide), Call.bind_of_ok (readVarint_encode h rest)]
    rfl

/-! ## Single steps into what was encoded -/

/-- The decoder is at an encoding, with a stack of runs. -/
structure At (d : Decoder) (encoding : List UInt8) (frames : List Frame) : Prop where
  encoding : d.encoding = encoding
  stack : d.stack.Is frames

theorem onEncoding_of_ok {α : Type} {r : Bytewise α} {d : Decoder} {a : α} {rest : List UInt8} (h : r d.encoding = .ok a rest) :
    onEncoding r d = .ok a { d with encoding := rest } := by
  rw [onEncoding, h]

/-- A single step pops an item, and steps into it. -/
theorem singleStep_eq {d : Decoder} {encoding : List UInt8} {kind : TypeOrEntry} {n : ℕ} {base : List Frame}
    (h : At d encoding (pushFrame kind (n + 1) base)) :
    ∃ d₁, At d₁ encoding (pushFrame kind n base) ∧ ∀ r d', stepInto kind d₁ = .ok r d' → singleStep d = .ok (some r) d' := by
  obtain ⟨stack, hpop, hstack⟩ := popStack_pushFrame h.stack
  refine ⟨{ d with stack }, ⟨h.encoding, hstack⟩, fun r d' hinto => ?_⟩
  unfold singleStep
  rw [Call.bind_of_ok hpop]
  exact Call.bind_of_ok hinto

theorem stepInto_size {kind : Kind} {size : ℕ} (h : kind.size? = some size) :
    stepInto (.OfType kind) = (onEncoding (readBytes size) >>= fun _ => pure .Unit : Step SingleStepResult) := by
  cases kind <;> cases h <;> rfl

theorem singleStep_value {kind : Kind} {bytes rest : List UInt8} (hsize : kind.size? = some bytes.length) {d : Decoder} {n : ℕ}
    {base : List Frame} (h : At d (bytes ++ rest) (pushFrame (.OfType kind) (n + 1) base)) :
    ∃ d', singleStep d = .ok (some .Unit) d' ∧ At d' rest (pushFrame (.OfType kind) n base) := by
  obtain ⟨d₁, hd₁, hstep⟩ := singleStep_eq h
  refine ⟨{ d₁ with encoding := rest }, hstep _ _ ?_, rfl, hd₁.stack⟩
  rw [stepInto_size hsize, Call.bind_of_ok (onEncoding_of_ok (by rw [hd₁.encoding, readBytes_append]))]
  rfl

theorem singleStep_string {width : Width} {bytes rest : List UInt8} (hwidth : width.Holds bytes.length) {d : Decoder} {n : ℕ}
    {base : List Frame} (h : At d (width.encode bytes.length ++ bytes ++ rest) (pushFrame (.OfType .String) (n + 1) base)) :
    ∃ d', singleStep d = .ok (some .Unit) d' ∧ At d' rest (pushFrame (.OfType .String) n base) := by
  obtain ⟨d₁, hd₁, hstep⟩ := singleStep_eq h
  refine ⟨{ d₁ with encoding := rest }, hstep _ _ ?_, rfl, hd₁.stack⟩
  exact Call.bind_of_ok (onEncoding_of_ok (by rw [hd₁.encoding, readStr_encode hwidth]))

theorem singleStep_object {width : Width} {len : ℕ} {rest : List UInt8} (hwidth : width.Holds len) {d : Decoder} {n : ℕ}
    {base : List Frame} (hdepth : (pushFrame (.OfType .Object) n base).length < MAX_OBJECT_DEPTH)
    (h : At d (width.encode len ++ rest) (pushFrame (.OfType .Object) (n + 1) base)) :
    ∃ d', singleStep d = .ok (some (.Object len)) d' ∧ At d' rest (pushFrame .Entry len (pushFrame (.OfType .Object) n base)) := by
  obtain ⟨d₁, hd₁, hstep⟩ := singleStep_eq h
  obtain ⟨stack, hpush, hstack⟩ := pushStack_of_lt (d := { d₁ with encoding := rest }) hd₁.stack hdepth .Entry len
  refine ⟨{ encoding := rest, stack }, hstep _ _ ?_, rfl, hstack⟩
  have hread : onEncoding readUsize d₁ = .ok len { d₁ with encoding := rest } :=
    onEncoding_of_ok (by rw [hd₁.encoding, readUsize_encode hwidth])
  exact (Call.bind_of_ok hread).trans (Call.bind_of_ok hpush)

theorem LengthOk.lt {array : Option Width} {len : ℕ} (h : LengthOk array len) : len < 2 ^ 64 := by
  cases array with
  | none =>
    have hlen : len = 1 := h
    rw [hlen]
    decide
  | some width => exact Width.Holds.lt h

theorem singleStep_entry {key : List UInt8} {kind : Kind} {array : Option Width} {items : List Item} {rest : List UInt8}
    (hne : key ≠ [])
    (hlt : key.length < 256) (hlen : LengthOk array items.length) {d : Decoder} {n : ℕ} {base : List Frame}
    (hdepth : (pushFrame .Entry n base).length < MAX_OBJECT_DEPTH)
    (h : At d (Field.encode (.mk key kind array items) ++ rest) (pushFrame .Entry (n + 1) base)) :
    ∃ d', singleStep d = .ok (some (.Entry key kind items.length)) d' ∧
      At d' (encodeItems kind items ++ rest) (pushFrame (.OfType kind) items.length (pushFrame .Entry n base)) := by
  obtain ⟨d₁, hd₁, hstep⟩ := singleStep_eq h
  obtain ⟨stack, hpush, hstack⟩ :=
    pushStack_of_lt (d := { d₁ with encoding := encodeItems kind items ++ rest }) hd₁.stack hdepth (.OfType kind) items.length
  refine ⟨{ encoding := encodeItems kind items ++ rest, stack }, hstep _ _ ?_, rfl, hstack⟩
  have hencode : d₁.encoding =
      UInt8.ofNat key.length :: (key ++ (encodeKind kind array items.length ++ (encodeItems kind items ++ rest))) := by
    rw [hd₁.encoding, Field.encode]
    simp only [List.cons_append, List.append_assoc]
  have hkey : onEncoding readKey d₁ =
      .ok key { d₁ with encoding := encodeKind kind array items.length ++ (encodeItems kind items ++ rest) } :=
    onEncoding_of_ok (by rw [hencode, readKey_encode hne hlt])
  have hkind : onEncoding Kind.read { d₁ with encoding := encodeKind kind array items.length ++ (encodeItems kind items ++ rest) } =
      .ok (kind, items.length) { d₁ with encoding := encodeItems kind items ++ rest } :=
    onEncoding_of_ok (kindRead_encode hlen _)
  refine (Call.bind_of_ok hkey).trans ((Call.bind_of_ok hkind).trans ?_)
  exact (Call.bind_of_ok (usizeTryFrom_of_lt hlen.lt _)).trans (Call.bind_of_ok hpush)

/-! ## Stepping past what was encoded -/

/-- Single steps lead from a decoder to another, each from a stack deeper than `stop`. -/
def Reaches (stop : ℕ) : Decoder → Decoder → Prop :=
  Relation.ReflTransGen fun a b => stop < a.stack.depth ∧ ∃ r, singleStep a = .ok r b

theorem Reaches.mono {stop stop' : ℕ} {d d' : Decoder} (h : Reaches stop d d') (hle : stop' ≤ stop) : Reaches stop' d d' :=
  Relation.ReflTransGen.mono (fun _ _ hstep => ⟨lt_of_le_of_lt hle hstep.1, hstep.2⟩) _ _ h

/-- Single steps lead past the next item, to these runs and this encoding, and no earlier to the depth of these runs. -/
def Passes (d : Decoder) (rest : List UInt8) (frames : List Frame) : Prop :=
  ∃ r d₁ d', singleStep d = .ok r d₁ ∧ Reaches frames.length d₁ d' ∧ At d' rest frames

theorem passes_of_unit {d d' : Decoder} {r : Option SingleStepResult} {rest : List UInt8} {frames : List Frame}
    (h : singleStep d = .ok r d') (hat : At d' rest frames) : Passes d rest frames :=
  ⟨r, d', d', h, Relation.ReflTransGen.refl, hat⟩

/-- Passing one item of a run, on the way past the run. -/
theorem Passes.reaches {d : Decoder} {encoding rest : List UInt8} {kind : TypeOrEntry} {n : ℕ} {base : List Frame}
    (h : Passes d rest (pushFrame kind n base)) (hat : At d encoding (pushFrame kind (n + 1) base)) :
    ∃ d', Reaches base.length d d' ∧ At d' rest (pushFrame kind n base) := by
  obtain ⟨r, d₁, d', hstep, hreaches, hat'⟩ := h
  have hdepth : d.stack.depth = base.length + 1 := hat.stack.depth
  refine ⟨d', Relation.ReflTransGen.head ⟨by omega, r, hstep⟩ (hreaches.mono (le_length_pushFrame kind n base)), hat'⟩

/-- The integers of a type are those of its size. -/
theorem Kind.HasInt.size {kind : Kind} {n : ℤ} (h : kind.HasInt n) : ∃ size, kind.size? = some size := by
  cases kind <;> first | exact ⟨_, rfl⟩ | exact h.elim

mutual

theorem Item.passes : ∀ {kind : Kind} {depth : ℕ} {item : Item} {n : ℕ} {base : List Frame} {d : Decoder} {rest : List UInt8},
    item.Ok kind depth → (pushFrame (.OfType kind) n base).length + 2 * depth ≤ MAX_OBJECT_DEPTH →
    At d (item.encode kind ++ rest) (pushFrame (.OfType kind) (n + 1) base) → Passes d rest (pushFrame (.OfType kind) n base)
  | kind, depth, .int i, n, base, d, rest, hok, _, h => by
    unfold Item.Ok at hok
    unfold Item.encode at h
    obtain ⟨size, hsize⟩ := hok.size
    rw [hsize] at h
    have hsize' : kind.size? = some (encodeInt size i).length := by rw [hsize, encodeInt, length_leList]
    obtain ⟨d', hstep, hat⟩ := singleStep_value hsize' h
    exact passes_of_unit hstep hat
  | kind, depth, .float bytes, n, base, d, rest, hok, _, h => by
    unfold Item.Ok at hok
    unfold Item.encode at h
    obtain ⟨rfl, hlen⟩ := hok
    obtain ⟨d', hstep, hat⟩ := singleStep_value (by rw [hlen]; rfl) h
    exact passes_of_unit hstep hat
  | kind, depth, .bool byte, n, base, d, rest, hok, _, h => by
    unfold Item.Ok at hok
    unfold Item.encode at h
    subst hok
    obtain ⟨d', hstep, hat⟩ := singleStep_value (show Kind.Bool.size? = some [byte].length from rfl) h
    exact passes_of_unit hstep hat
  | kind, depth, .string width bytes, n, base, d, rest, hok, _, h => by
    unfold Item.Ok at hok
    unfold Item.encode at h
    obtain ⟨rfl, hwidth⟩ := hok
    obtain ⟨d', hstep, hat⟩ := singleStep_string hwidth h
    exact passes_of_unit hstep hat
  | kind, 0, .object width fields, n, base, d, rest, hok, _, h => by
    unfold Item.Ok at hok
    exact hok.elim
  | kind, depth + 1, .object width fields, n, base, d, rest, hok, hdepth, h => by
    unfold Item.Ok at hok
    unfold Item.encode at h
    obtain ⟨rfl, hwidth, hfields⟩ := hok
    rw [List.append_assoc] at h
    obtain ⟨d₁, hstep, hat⟩ := singleStep_object hwidth (by omega) h
    obtain ⟨d', hreaches, hat'⟩ := fields_reaches hfields (by omega) hat
    exact ⟨_, d₁, d', hstep, hreaches, hat'⟩

theorem Field.passes : ∀ {depth : ℕ} {field : Field} {n : ℕ} {base : List Frame} {d : Decoder} {rest : List UInt8},
    field.Ok depth → (pushFrame .Entry n base).length + 1 + 2 * depth ≤ MAX_OBJECT_DEPTH →
    At d (field.encode ++ rest) (pushFrame .Entry (n + 1) base) → Passes d rest (pushFrame .Entry n base)
  | depth, .mk key kind array items, n, base, d, rest, hok, hdepth, h => by
    unfold Field.Ok at hok
    obtain ⟨hne, hlt, hlen, hitems⟩ := hok
    obtain ⟨d₁, hstep, hat⟩ := singleStep_entry hne hlt hlen (by omega) h
    obtain ⟨d', hreaches, hat'⟩ := items_reaches hitems (by omega) hat
    exact ⟨_, d₁, d', hstep, hreaches, hat'⟩

theorem items_reaches : ∀ {kind : Kind} {depth : ℕ} {items : List Item} {base : List Frame} {d : Decoder} {rest : List UInt8},
    itemsOk kind depth items → base.length + 1 + 2 * depth ≤ MAX_OBJECT_DEPTH →
    At d (encodeItems kind items ++ rest) (pushFrame (.OfType kind) items.length base) →
    ∃ d', Reaches base.length d d' ∧ At d' rest base
  | kind, depth, [], base, d, rest, _, _, h => ⟨d, Relation.ReflTransGen.refl, h⟩
  | kind, depth, item :: items, base, d, rest, hok, hdepth, h => by
    unfold itemsOk at hok
    unfold encodeItems at h
    rw [List.append_assoc] at h
    have hle := length_pushFrame_le (.OfType kind) items.length base
    obtain ⟨d₁, hreaches₁, hat₁⟩ := (Item.passes hok.1 (by omega) h).reaches h
    obtain ⟨d', hreaches, hat⟩ := items_reaches hok.2 hdepth hat₁
    exact ⟨d', hreaches₁.trans hreaches, hat⟩

theorem fields_reaches : ∀ {depth : ℕ} {fields : List Field} {base : List Frame} {d : Decoder} {rest : List UInt8},
    fieldsOk depth fields → base.length + 2 + 2 * depth ≤ MAX_OBJECT_DEPTH →
    At d (encodeFields fields ++ rest) (pushFrame .Entry fields.length base) →
    ∃ d', Reaches base.length d d' ∧ At d' rest base
  | depth, [], base, d, rest, _, _, h => ⟨d, Relation.ReflTransGen.refl, h⟩
  | depth, field :: fields, base, d, rest, hok, hdepth, h => by
    unfold fieldsOk at hok
    unfold encodeFields at h
    rw [List.append_assoc] at h
    have hle := length_pushFrame_le .Entry fields.length base
    obtain ⟨d₁, hreaches₁, hat₁⟩ := (Field.passes hok.1 (by omega) h).reaches h
    obtain ⟨d', hreaches, hat⟩ := fields_reaches hok.2 hdepth hat₁
    exact ⟨d', hreaches₁.trans hreaches, hat⟩

end

/-- A single step on a stack with items takes a byte, and leaves a stack of runs. -/
theorem singleStep_ok {d d' : Decoder} {r : Option SingleStepResult} {frames : List Frame} (h : d.stack.Is frames)
    (hdepth : 0 < d.stack.depth) (hstep : singleStep d = .ok r d') : ∃ frames', Left 1 d frames' d' := by
  cases frames with
  | nil =>
    rw [h.depth] at hdepth
    exact absurd hdepth (lt_irrefl 0)
  | cons frame base =>
    have hmeets := singleStep_meets (cons_eq_pushFrame frame.1 frame.2 base ▸ h)
    rw [hstep] at hmeets
    obtain ⟨r', -, hleft⟩ := hmeets
    exact ⟨_, hleft⟩

/-- The rest of the loop of `step` takes the single steps which lead to the depth it is to stop at. -/
theorem stepLoop_of_reaches {stop : ℕ} {d d' : Decoder} (h : Reaches stop d d') (hstop : d'.stack.depth = stop)
    {frames : List Frame}
    (hstack : d.stack.Is frames) {fuel : ℕ} (hfuel : d.encoding.length < fuel) :
    (if d.stack.depth ≠ stop then stepLoop stop fuel d else .ok () d) = .ok () d' := by
  induction h using Relation.ReflTransGen.head_induction_on generalizing frames fuel with
  | refl => rw [if_neg (not_not.2 hstop)]
  | head hstep _ ih =>
    obtain ⟨hdepth, r, hstep⟩ := hstep
    obtain ⟨frames', hleft⟩ := singleStep_ok hstack (by omega) hstep
    have hlen := hleft.encoding
    cases fuel with
    | zero => omega
    | succ fuel =>
      rw [if_pos (by omega), stepLoop_next hstep]
      exact ih hleft.stack (by omega)

theorem step_of_passes {d : Decoder} {encoding rest : List UInt8} {kind : TypeOrEntry} {n : ℕ} {base : List Frame}
    (h : Passes d rest (pushFrame kind n base)) (hat : At d encoding (pushFrame kind (n + 1) base)) :
    ∃ d', step d = .ok (some ()) d' ∧ At d' rest (pushFrame kind n base) := by
  obtain ⟨r, d₁, d', hstep, hreaches, hat'⟩ := h
  have hdepth : d.stack.depth = base.length + 1 := hat.stack.depth
  obtain ⟨frames, hleft⟩ := singleStep_ok hat.stack (by omega) hstep
  have hlen := hleft.encoding
  refine ⟨d', ?_, hat'⟩
  rw [step_eq hat.stack, stepLoop_next hstep, stepLoop_of_reaches hreaches hat'.stack.depth hleft.stack (by omega)]

/-- The decoder, without an error, at an encoding with a stack of runs. -/
structure Sound (epee : Epee) (encoding : List UInt8) (frames : List Frame) : Prop where
  error : epee.error = none
  at_ : At epee.toDecoder encoding frames

theorem skip_of_passes {epee : Epee} {encoding rest : List UInt8} {kind : TypeOrEntry} {n : ℕ} {base : List Frame}
    (h : Passes epee.toDecoder rest (pushFrame kind n base)) (hat : Sound epee encoding (pushFrame kind (n + 1) base)) :
    ∃ epee', (∀ len, skip (len + 1) epee = skip len epee') ∧ Sound epee' rest (pushFrame kind n base) := by
  obtain ⟨d', hstep, hat'⟩ := step_of_passes h hat.at_
  exact ⟨⟨d', none⟩, skip_succ_of_ok hat.error hstep, rfl, hat'⟩

theorem skip_fields {depth : ℕ} {fields : List Field} {base : List Frame} {epee : Epee} {rest : List UInt8}
    (hok : fieldsOk depth fields)
    (hdepth : base.length + 2 + 2 * depth ≤ MAX_OBJECT_DEPTH)
    (h : Sound epee (encodeFields fields ++ rest) (pushFrame .Entry fields.length base)) :
    ∃ epee', skip fields.length epee = .ok epee' ∧ Sound epee' rest base := by
  induction fields generalizing epee with
  | nil => exact ⟨epee, rfl, h⟩
  | cons field fields ih =>
    unfold fieldsOk at hok
    unfold encodeFields at h
    rw [List.append_assoc] at h
    have hle := length_pushFrame_le .Entry fields.length base
    obtain ⟨epee₁, hskip, h₁⟩ := skip_of_passes (Field.passes hok.1 (by omega) h.at_) h
    rw [List.length_cons, hskip]
    exact ih hok.2 h₁

/-! ## The runs of the cursors -/

/-- The runs of the live cursors, with `n` more items of a type above them. Arrays of one level share a run with the items taken
from them. -/
def runs (kind : Kind) (n : ℕ) : List Cursor → List Frame
  | [] => pushFrame (.OfType kind) n []
  | .fields fields :: cursors => pushFrame (.OfType kind) n (pushFrame .Entry fields.length (runs .Object 0 cursors))
  | .entry kind' items :: cursors => runs kind' (n + items.length) cursors
  | .array kind' items :: cursors => runs kind' (n + items.length) cursors

/-- How many objects are open. -/
def level : List Cursor → ℕ
  | [] => 0
  | .fields _ :: cursors => level cursors + 1
  | .entry _ _ :: cursors => level cursors
  | .array _ _ :: cursors => level cursors

/-- The deepest object the decoder has room for. -/
def MAX_LEVEL : ℕ := 51

/-- The cursors fit what is left of a well-formed object, with `n` more items of a type above them. An open object is an item of the
array it was taken from, and the root is the only one of its level. -/
def Fits (kind : Kind) (n : ℕ) : List Cursor → Prop
  | [] => n ≤ 1
  | .fields fields :: cursors =>
    (∃ depth, level cursors + 1 + depth ≤ MAX_LEVEL ∧ fieldsOk depth fields) ∧ Fits .Object 1 cursors
  | .entry kind' items :: cursors =>
    (n = 0 ∨ kind' = kind) ∧ (∃ depth, level cursors + depth ≤ MAX_LEVEL ∧ itemsOk kind' depth items) ∧
      Fits kind' (n + items.length) cursors
  | .array kind' items :: cursors =>
    (n = 0 ∨ kind' = kind) ∧ (∃ depth, level cursors + depth ≤ MAX_LEVEL ∧ itemsOk kind' depth items) ∧
      Fits kind' (n + items.length) cursors

theorem runs_zero (kind kind' : Kind) (cursors : List Cursor) : runs kind 0 cursors = runs kind' 0 cursors := by
  cases cursors with
  | nil => rfl
  | cons cursor cursors => cases cursor <;> rfl

theorem Fits.mono {kind : Kind} {m n : ℕ} {cursors : List Cursor} (h : Fits kind n cursors) (hle : m ≤ n) :
    Fits kind m cursors := by
  induction cursors generalizing kind m n with
  | nil => exact hle.trans h
  | cons cursor cursors ih =>
    cases cursor with
    | fields fields => exact h
    | entry kind' items | array kind' items =>
      obtain ⟨hkind, hitems, hrest⟩ := h
      refine ⟨?_, hitems, ih hrest (Nat.add_le_add_right hle _)⟩
      rcases hkind with hn | hkind
      · exact Or.inl (by omega)
      · exact Or.inr hkind

theorem Fits.zero {kind : Kind} {n : ℕ} {cursors : List Cursor} (h : Fits kind n cursors) (kind' : Kind) :
    Fits kind' 0 cursors := by
  have h₀ := h.mono (Nat.zero_le n)
  cases cursors with
  | nil => exact h₀
  | cons cursor cursors =>
    cases cursor with
    | fields fields => exact h₀
    | entry kind items | array kind items => exact ⟨Or.inl rfl, h₀.2⟩

/-- The next of the items above the cursors is the top item of the runs; without it, there are two runs for each open object. -/
theorem runs_succ {kind : Kind} {n : ℕ} {cursors : List Cursor} (h : Fits kind (n + 1) cursors) :
    ∃ m base, runs kind (n + 1) cursors = pushFrame (.OfType kind) (m + 1) base ∧
      runs kind n cursors = pushFrame (.OfType kind) m base ∧ (runs kind n cursors).length ≤ 2 * level cursors := by
  induction cursors generalizing kind n with
  | nil =>
    have hn : n = 0 := by
      have hle : n + 1 ≤ 1 := h
      omega
    subst hn
    exact ⟨0, [], rfl, rfl, le_refl _⟩
  | cons cursor cursors ih =>
    cases cursor with
    | fields fields =>
      obtain ⟨m, base, -, -, hlen⟩ := ih h.2
      refine ⟨n, _, rfl, rfl, ?_⟩
      have h₁ := length_pushFrame_le (.OfType kind) n (pushFrame .Entry fields.length (runs .Object 0 cursors))
      have h₂ := length_pushFrame_le .Entry fields.length (runs .Object 0 cursors)
      unfold runs level
      omega
    | entry kind' items | array kind' items =>
      obtain ⟨hkind, -, hrest⟩ := h
      obtain rfl : kind' = kind := hkind.resolve_left (Nat.succ_ne_zero n)
      unfold runs level
      rw [Nat.add_right_comm] at hrest ⊢
      exact ih hrest

theorem skip_items {kind : Kind} {depth : ℕ} {items : List Item} {cursors : List Cursor} {epee : Epee} {rest : List UInt8}
    (hfits : Fits kind items.length cursors) (hdepth : level cursors + depth ≤ MAX_LEVEL) (hok : itemsOk kind depth items)
    (h : Sound epee (encodeItems kind items ++ rest) (runs kind items.length cursors)) :
    ∃ epee', skip items.length epee = .ok epee' ∧ Sound epee' rest (runs kind 0 cursors) := by
  induction items generalizing epee with
  | nil => exact ⟨epee, rfl, h⟩
  | cons item items ih =>
    unfold itemsOk at hok
    unfold encodeItems at h
    obtain ⟨m, base, hruns, hruns', hlen⟩ := runs_succ hfits
    rw [List.append_assoc, List.length_cons, hruns] at h
    rw [hruns'] at hlen
    have hmax : (pushFrame (.OfType kind) m base).length + 2 * depth ≤ MAX_OBJECT_DEPTH := by
      unfold MAX_LEVEL at hdepth
      unfold MAX_OBJECT_DEPTH
      omega
    obtain ⟨epee₁, hskip, h₁⟩ := skip_of_passes (Item.passes hok.1 hmax h.at_) h
    rw [List.length_cons, hskip]
    rw [← hruns'] at h₁
    exact ih (hfits.mono (Nat.le_succ _)) hok.2 h₁

/-! ## Accessors -/

theorem leNat_encodeInt {size : ℕ} {n : ℤ} (hlo : 0 ≤ n) (hhi : n < 256 ^ size) : (leNat (encodeInt size n) : ℤ) = n := by
  have hmod : n % 256 ^ size = n := Int.emod_eq_of_lt hlo hhi
  have hlt : n.toNat < 256 ^ size := by
    zify
    rwa [Int.toNat_of_nonneg hlo]
  rw [encodeInt, hmod, leNat_leList, Nat.mod_eq_of_lt hlt, Int.toNat_of_nonneg hlo]

theorem signed_encodeInt {size : ℕ} {n : ℤ} (hlo : -256 ^ size ≤ 2 * n) (hhi : 2 * n < 256 ^ size) :
    signed (encodeInt size n) = n := by
  have hlen : (encodeInt size n).length = size := length_leList _ _
  by_cases hn : 0 ≤ n
  · have hvalue : (leNat (encodeInt size n) : ℤ) = n := leNat_encodeInt hn (by omega)
    rw [signed, hlen, if_pos, hvalue]
    zify
    rw [hvalue]
    exact hhi
  · -- A negative integer is encoded as the one which is larger by the size of the type.
    have hencode : encodeInt size n = encodeInt size (n + 256 ^ size) := by
      rw [encodeInt, encodeInt, Int.add_emod_right]
    have hvalue : (leNat (encodeInt size n) : ℤ) = n + 256 ^ size := by
      rw [hencode]
      exact leNat_encodeInt (by omega) (by omega)
    rw [signed, hlen, if_neg, hvalue, Int.add_sub_cancel]
    zify
    rw [hvalue]
    omega

section Accessors

variable {epee : Epee} {encoding rest : List UInt8} {top : TypeOrEntry} {m : ℕ} {base : List Frame}

/-- The accessor returned a response, and left the decoder past the item it read. -/
def Reading (result : Except (Failure EpeeError) (Response × State)) (response : Response) (handles : List Handle)
    (rest : List UInt8)
    (frames : List Frame) : Prop := ∃ epee', result = .ok (response, ⟨epee', handles⟩) ∧ Sound epee' rest frames

theorem entryRead_of_ok (expected : Kind) {r : Bytewise (List UInt8)} {out : List UInt8}
    (h : Sound epee encoding (pushFrame top (m + 1) base))
    (hr : r encoding = .ok out rest) (value : List UInt8 → Response) (handles : List Handle) :
    Reading (entryRead expected r value epee expected 1 handles) (value out) handles rest (pushFrame top m base) := by
  obtain ⟨stack, hpop, hstack⟩ := popStack_pushFrame h.at_.stack
  refine ⟨⟨⟨rest, stack⟩, none⟩, ?_, rfl, rfl, hstack⟩
  unfold entryRead
  rw [if_neg (by simp), h.error]
  dsimp only
  rw [Call.bind_of_ok hpop, onEncoding_of_ok (by rw [← hr, ← h.at_.encoding])]

theorem entryRead_unsigned (size : ℕ) {kind : Kind} {n : ℤ} (hlo : 0 ≤ n) (hhi : n < 256 ^ size)
    (h : Sound epee (encodeInt size n ++ rest) (pushFrame top (m + 1) base)) (handles : List Handle) :
    Reading (entryRead kind (readBytes size) (intValue false) epee kind 1 handles)
    (.value (.int n)) handles rest (pushFrame top m base) := by
  have hread := readBytes_append (encodeInt size n) rest
  rw [encodeInt, length_leList, ← encodeInt] at hread
  have hreading := entryRead_of_ok kind h hread (intValue false) handles
  rwa [intValue, if_neg (by simp), leNat_encodeInt hlo hhi] at hreading

theorem entryRead_signed (size : ℕ) {kind : Kind} {n : ℤ} (hlo : -256 ^ size ≤ 2 * n) (hhi : 2 * n < 256 ^ size)
    (h : Sound epee (encodeInt size n ++ rest) (pushFrame top (m + 1) base)) (handles : List Handle) :
    Reading (entryRead kind (readBytes size) (intValue true) epee kind 1 handles)
    (.value (.int n)) handles rest (pushFrame top m base) := by
  have hread := readBytes_append (encodeInt size n) rest
  rw [encodeInt, length_leList, ← encodeInt] at hread
  have hreading := entryRead_of_ok kind h hread (intValue true) handles
  rwa [intValue, if_pos rfl, signed_encodeInt hlo hhi] at hreading

/-- An accessor for the type of an item returns its value. -/
theorem accessCall_reading {accessor : Accessor} {kind : Kind} {depth : ℕ} {item : Item} {v : Value}
    (hkind : accessor.kind? = some kind)
    (hok : item.Ok kind depth) (hv : readItem accessor item = some v)
    (h : Sound epee (item.encode kind ++ rest) (pushFrame top (m + 1) base)) (handles : List Handle) :
    Reading (accessCall accessor epee kind 1 handles) (.value v) handles rest (pushFrame top m base) := by
  cases item with
  | int n =>
    unfold Item.Ok at hok
    unfold Item.encode at h
    have hint : ∀ {accessor : Accessor}, readItem accessor (.int n) = some (.int n) := by
      intro accessor
      cases accessor <;> rfl
    rw [hint] at hv
    cases hv
    cases accessor <;> cases hkind <;> try exact hok.elim
    all_goals unfold Kind.HasInt at hok
    · exact entryRead_signed 8 (by omega) (by omega) h handles
    · exact entryRead_signed 4 (by omega) (by omega) h handles
    · exact entryRead_signed 2 (by omega) (by omega) h handles
    · exact entryRead_signed 1 (by omega) (by omega) h handles
    · exact entryRead_unsigned 8 hok.1 (by omega) h handles
    · exact entryRead_unsigned 4 hok.1 (by omega) h handles
    · exact entryRead_unsigned 2 hok.1 (by omega) h handles
    · exact entryRead_unsigned 1 hok.1 (by omega) h handles
  | float bytes =>
    unfold Item.Ok at hok
    unfold Item.encode at h
    obtain ⟨rfl, hlen⟩ := hok
    cases accessor <;> cases hkind
    cases hv
    have hread := readBytes_append bytes rest
    rw [hlen] at hread
    exact entryRead_of_ok _ h hread _ handles
  | bool byte =>
    unfold Item.Ok at hok
    unfold Item.encode at h
    subst hok
    cases accessor <;> cases hkind
    cases hv
    have hreading := entryRead_of_ok .Bool h (readBytes_append [byte] rest) (fun bytes => .value (.bool (bytes ≠ [0]))) handles
    have hbyte : decide ([byte] ≠ [0]) = decide (byte ≠ 0) := by simp
    rw [hbyte] at hreading
    exact hreading
  | string width bytes =>
    unfold Item.Ok at hok
    unfold Item.encode at h
    obtain ⟨rfl, hwidth⟩ := hok
    have hread := readStr_encode hwidth rest
    cases accessor <;> cases hkind
    · cases hv
      exact entryRead_of_ok _ h hread _ handles
    · rename_i n
      unfold readItem at hv
      dsimp only at hv
      split at hv
      · rename_i hlen
        cases hv
        have hreading := entryRead_of_ok .String h hread
          (fun bytes => if bytes.length ≠ n then .error .TypeError else .value (.str bytes)) handles
        rw [if_neg (not_not.2 hlen)] at hreading
        exact hreading
      · cases hv
  | object width fields =>
    cases accessor <;> cases hv

end Accessors

/-! ## Calls follow the cursors -/

/-- The decoder is where the cursors are. -/
structure Follows (rest : List UInt8) (cursors : List Cursor) (s : State) : Prop where
  sound : Sound s.epee (encodeCursors cursors ++ rest) (runs .Object 0 cursors)
  handles : s.handles = cursors.map Cursor.handle
  fits : Fits .Object 0 cursors

variable {rest : List UInt8} {cursors : List Cursor} {epee : Epee}

theorem follows_fieldsNext {key : List UInt8} {kind : Kind} {array : Option Width} {items : List Item} {fields : List Field}
    (h : Follows rest (.fields (.mk key kind array items :: fields) :: cursors)
      ⟨epee, .fields (fields.length + 1) :: cursors.map Cursor.handle⟩) :
    ∃ s, fieldsNext epee (fields.length + 1) (cursors.map Cursor.handle) = .ok (.field key kind items.length, s) ∧
      Follows rest (.entry kind items :: .fields fields :: cursors) s := by
  obtain ⟨⟨depth, hdepth, hok⟩, hrest⟩ := h.fits
  unfold fieldsOk Field.Ok at hok
  obtain ⟨⟨hne, hlt, hlen, hitems⟩, hfields⟩ := hok
  obtain ⟨m, base, -, -, hlevel⟩ := runs_succ hrest
  have hroom : (pushFrame .Entry fields.length (runs .Object 0 cursors)).length < MAX_OBJECT_DEPTH := by
    have hle := length_pushFrame_le .Entry fields.length (runs .Object 0 cursors)
    unfold MAX_LEVEL at hdepth
    unfold MAX_OBJECT_DEPTH
    omega
  have hat := h.sound.at_
  unfold encodeCursors encodeFields runs at hat
  rw [List.append_assoc, List.append_assoc, pushFrame_zero] at hat
  obtain ⟨d, hstep, hat'⟩ := singleStep_entry hne hlt hlen hroom hat
  refine ⟨⟨⟨d, none⟩, .entry kind items.length :: .fields fields.length :: cursors.map Cursor.handle⟩, ?_, ⟨rfl, ?_⟩, rfl, ?_⟩
  · unfold fieldsNext
    rw [h.sound.error]
    dsimp only
    rw [hstep]
  · unfold encodeCursors encodeCursors
    simp only [List.append_assoc, runs, Nat.zero_add]
    exact hat'
  · refine ⟨Or.inl rfl, ⟨depth, ?_, hitems⟩, ⟨depth, hdepth, hfields⟩, hrest⟩
    exact hdepth

theorem follows_fields {width : Width} {fields : List Field}
    (h : Follows rest (.entry .Object [.object width fields] :: cursors) ⟨epee, .entry .Object 1 :: cursors.map Cursor.handle⟩) :
    ∃ s, entryFields epee .Object 1 (cursors.map Cursor.handle) = .ok (.iterator, s) ∧
    Follows rest (.fields fields :: cursors) s := by
  obtain ⟨-, ⟨depth, hdepth, hok⟩, hrest⟩ := h.fits
  cases depth with
  | zero =>
    unfold itemsOk Item.Ok at hok
    exact hok.1.elim
  | succ depth =>
    unfold itemsOk Item.Ok at hok
    obtain ⟨⟨-, hwidth, hfields⟩, -⟩ := hok
    obtain ⟨m, base, hruns, hruns', hlevel⟩ := runs_succ hrest
    have hat := h.sound.at_
    unfold encodeCursors encodeItems encodeItems Item.encode at hat
    simp only [List.append_nil, List.append_assoc] at hat
    change At _ _ (runs .Object (0 + 1) cursors) at hat
    rw [hruns] at hat
    have hroom : (pushFrame (.OfType .Object) m base).length < MAX_OBJECT_DEPTH := by
      rw [hruns'] at hlevel
      unfold MAX_LEVEL at hdepth
      unfold MAX_OBJECT_DEPTH
      omega
    obtain ⟨d, hstep, hat'⟩ := singleStep_object hwidth hroom hat
    refine ⟨⟨⟨d, none⟩, .fields fields.length :: cursors.map Cursor.handle⟩, ?_, ⟨rfl, ?_⟩, rfl, ⟨depth, by omega, hfields⟩, hrest⟩
    · unfold entryFields
      rw [h.sound.error]
      dsimp only
      rw [if_neg (by simp), hstep]
    · unfold encodeCursors runs
      rw [List.append_assoc, pushFrame_zero, hruns']
      exact hat'

/-- Dropping a handle of items leaves the decoder past them. -/
theorem follows_skipItems {kind : Kind} {items : List Item} 
    (h : Follows rest (.entry kind items :: cursors) ⟨epee, (Cursor.entry kind items :: cursors).map Cursor.handle⟩) :
    ∃ epee', skip items.length epee = .ok epee' ∧ Follows rest cursors ⟨epee', cursors.map Cursor.handle⟩ := by
  obtain ⟨-, ⟨depth, hdepth, hok⟩, hrest⟩ := h.fits
  rw [Nat.zero_add] at hrest
  have hsound := h.sound
  unfold encodeCursors runs at hsound
  rw [List.append_assoc, Nat.zero_add] at hsound
  obtain ⟨epee', hskip, hsound'⟩ := skip_items hrest hdepth hok hsound
  rw [runs_zero kind .Object] at hsound'
  exact ⟨epee', hskip, hsound', rfl, hrest.zero .Object⟩

theorem follows_skipFields {fields : List Field}
    (h : Follows rest (.fields fields :: cursors) ⟨epee, (Cursor.fields fields :: cursors).map Cursor.handle⟩) :
    ∃ epee', skip fields.length epee = .ok epee' ∧ Follows rest cursors ⟨epee', cursors.map Cursor.handle⟩ := by
  obtain ⟨⟨depth, hdepth, hok⟩, hrest⟩ := h.fits
  obtain ⟨m, base, -, -, hlevel⟩ := runs_succ hrest
  have hsound := h.sound
  unfold encodeCursors runs at hsound
  rw [List.append_assoc, pushFrame_zero] at hsound
  have hroom : (runs .Object 0 cursors).length + 2 + 2 * depth ≤ MAX_OBJECT_DEPTH := by
    unfold MAX_LEVEL at hdepth
    unfold MAX_OBJECT_DEPTH
    omega
  obtain ⟨epee', hskip, hsound'⟩ := skip_fields hok hroom hsound
  exact ⟨epee', hskip, hsound', rfl, hrest.zero .Object⟩

/-- An entry of one item, which an accessor is correct for. -/
theorem follows_reading {accessor : Accessor} {kind : Kind} {item : Item} {v : Value} (hkind : accessor.kind? = some kind)
    (hv : readItem accessor item = some v)
    (h : Follows rest (.entry kind [item] :: cursors) ⟨epee, .entry kind 1 :: cursors.map Cursor.handle⟩) :
    ∃ s, accessCall accessor epee kind 1 (cursors.map Cursor.handle) = .ok (.value v, s) ∧ Follows rest cursors s := by
  obtain ⟨-, ⟨depth, -, hok⟩, hrest⟩ := h.fits
  unfold itemsOk at hok
  obtain ⟨m, base, hruns, hruns', -⟩ := runs_succ hrest
  have hsound := h.sound
  unfold encodeCursors encodeItems encodeItems at hsound
  rw [List.append_nil, List.append_assoc] at hsound
  change Sound _ _ (runs kind (0 + 1) cursors) at hsound
  rw [hruns] at hsound
  obtain ⟨epee', hcall, hsound'⟩ := accessCall_reading hkind hok.1 hv hsound (cursors.map Cursor.handle)
  rw [← hruns', runs_zero kind .Object] at hsound'
  exact ⟨_, hcall, hsound', rfl, hrest.zero .Object⟩

theorem follows_access {accessor : Accessor} {kind : Kind} {items : List Item} {r : Response} {cursors' : List Cursor}
    (h : Follows rest (.entry kind items :: cursors) ⟨epee, .entry kind items.length :: cursors.map Cursor.handle⟩)
    (hconsume : consumeEntry accessor kind items cursors = some (r, cursors')) :
    ∃ s, accessCall accessor epee kind items.length (cursors.map Cursor.handle) = .ok (r, s) ∧ Follows rest cursors' s := by
  unfold consumeEntry at hconsume
  split at hconsume
  · cases hconsume
    refine ⟨⟨epee, .array kind items.length :: cursors.map Cursor.handle⟩, ?_, h.sound, rfl, h.fits⟩
    change Except.ok (entryIterate epee kind items.length _) = _
    rw [entryIterate, h.sound.error]
  · cases hconsume
    rename_i width fields
    have hkind : kind = .Object := by
      obtain ⟨-, ⟨depth, -, hok⟩, -⟩ := h.fits
      cases depth with
      | zero =>
        unfold itemsOk Item.Ok at hok
        exact hok.1.elim
      | succ depth =>
        unfold itemsOk Item.Ok at hok
        exact hok.1.1
    subst hkind
    exact follows_fields h
  · cases hconsume
  · rename_i item _ _ _
    split at hconsume
    · rename_i hkind
      cases hread : readItem accessor item with
      | none =>
        rw [hread] at hconsume
        cases hconsume
      | some v =>
        rw [hread] at hconsume
        cases hconsume
        exact follows_reading hkind hread h
    · cases hconsume
  · cases hconsume

/-- A call which is correct for the types returns what consuming the object yields. -/
theorem follows_call {c : Call} {s : State} {r : Response} {cursors' : List Cursor} (h : Follows rest cursors s)
    (hconsume : consume c cursors = some (r, cursors')) : ∃ s', call c s = some (.ok (r, s')) ∧ Follows rest cursors' s' := by
  obtain ⟨epee, handles⟩ := s
  obtain rfl : handles = cursors.map Cursor.handle := h.handles
  have herror := h.sound.error
  dsimp only at herror
  unfold consume at hconsume
  split at hconsume
  · cases hconsume
    refine ⟨_, ?_, h⟩
    change some (fieldsNext epee 0 _) = _
    rw [fieldsNext, herror]
    rfl
  · cases hconsume
    obtain ⟨s', hnext, h'⟩ := follows_fieldsNext h
    exact ⟨s', congrArg some hnext, h'⟩
  · cases hconsume
    refine ⟨_, ?_, h⟩
    change some (Except.ok (arrayNext epee _ 0 _)) = _
    rw [arrayNext, herror]
    rfl
  · cases hconsume
    rename_i kind item items cursors
    refine ⟨⟨epee, .entry kind 1 :: .array kind items.length :: cursors.map Cursor.handle⟩, ?_, ⟨herror, ?_⟩, rfl, ?_⟩
    · change some (Except.ok (arrayNext epee kind (items.length + 1) _)) = _
      rw [arrayNext, herror]
    · have hat := h.sound.at_
      unfold encodeCursors runs encodeItems at hat
      rw [List.length_cons, Nat.zero_add, Nat.add_comm] at hat
      simpa only [encodeCursors, encodeItems, runs, List.append_nil, List.append_assoc, List.length_cons,
        List.length_nil, Nat.zero_add] using hat
    · obtain ⟨-, ⟨depth, hdepth, hok⟩, hrest⟩ := h.fits
      unfold itemsOk at hok
      rw [List.length_cons, Nat.zero_add, Nat.add_comm] at hrest
      exact ⟨Or.inl rfl, ⟨depth, hdepth, hok.1, trivial⟩, Or.inr rfl, ⟨depth, hdepth, hok.2⟩, hrest⟩
  · obtain ⟨s', haccess, h'⟩ := follows_access h hconsume
    exact ⟨s', congrArg some haccess, h'⟩
  · cases hconsume
    rename_i cursor
    have hdrop : ∀ {epee'}, skip cursor.handle.len epee = .ok epee' →
        call .drop ⟨epee, (cursor :: cursors').map Cursor.handle⟩ = some (.ok (.dropped, ⟨epee', cursors'.map Cursor.handle⟩)) := by
      intro epee' hskip
      change some (skip cursor.handle.len epee >>= fun epee => pure (Response.dropped, State.mk epee _)) = _
      rw [hskip]
      rfl
    cases cursor with
    | entry kind items =>
      obtain ⟨epee', hskip, h'⟩ := follows_skipItems h
      exact ⟨_, hdrop hskip, h'⟩
    | array kind items =>
      have hentry : Follows rest (.entry kind items :: cursors') ⟨epee, (Cursor.entry kind items :: cursors').map Cursor.handle⟩ :=
        ⟨h.sound, rfl, h.fits⟩
      obtain ⟨epee', hskip, h'⟩ := follows_skipItems hentry
      exact ⟨_, hdrop hskip, h'⟩
    | fields fields =>
      obtain ⟨epee', hskip, h'⟩ := follows_skipFields h
      exact ⟨_, hdrop hskip, h'⟩
  · cases hconsume

/-! ## Mismatches -/

/-- A mismatch is skipped, unless the accessor is `fields` and there is something to skip. -/
def Skips (accessor : Accessor) (_kind : Kind) (items : List Item) : Prop := accessor ≠ .fields ∨ items = []

theorem entryRead_mismatch {expected : Kind} {r : Bytewise (List UInt8)} {value : List UInt8 → Response} {kind : Kind}
    {items : List Item}
    (hmismatch : kind ≠ expected ∨ items.length ≠ 1)
    (h : Follows rest (.entry kind items :: cursors) ⟨epee, .entry kind items.length :: cursors.map Cursor.handle⟩) :
    ∃ s, entryRead expected r value epee kind items.length (cursors.map Cursor.handle) = .ok (.error .TypeError, s) ∧
      Follows rest cursors s := by
  obtain ⟨epee', hskip, h'⟩ := follows_skipItems h
  refine ⟨_, ?_, h'⟩
  unfold entryRead
  rw [if_pos hmismatch, hskip]
  rfl

/-- `fields` on an entry which is not one object leaves the decoder as it is. -/
theorem entryFields_mismatch {kind : Kind} {len : ℕ} {handles : List Handle} (hmismatch : kind ≠ .Object ∨ len ≠ 1)
    (herror : epee.error = none) : entryFields epee kind len handles = .ok (.error .TypeError, ⟨epee, handles⟩) := by
  unfold entryFields
  rw [herror]
  dsimp only
  rw [if_pos hmismatch]

theorem follows_fixedLen {n : ℕ} {width : Width} {bytes : List UInt8} (hlen : bytes.length ≠ n)
    (h : Follows rest (.entry .String [.string width bytes] :: cursors) ⟨epee, .entry .String 1 :: cursors.map Cursor.handle⟩) :
    ∃ s, accessCall (.to_fixed_len_str n) epee .String 1 (cursors.map Cursor.handle) = .ok (.error .TypeError, s) ∧
      Follows rest cursors s := by
  obtain ⟨-, ⟨depth, -, hok⟩, hrest⟩ := h.fits
  unfold itemsOk Item.Ok at hok
  obtain ⟨⟨-, hwidth⟩, -⟩ := hok
  obtain ⟨m, base, hruns, hruns', -⟩ := runs_succ hrest
  have hsound := h.sound
  unfold encodeCursors encodeItems encodeItems Item.encode at hsound
  rw [List.append_nil, List.append_assoc _ _ rest] at hsound
  change Sound _ _ (runs .String (0 + 1) cursors) at hsound
  rw [hruns] at hsound
  obtain ⟨epee', hcall, hsound'⟩ := entryRead_of_ok .String hsound (readStr_encode hwidth _)
    (fun bytes => if bytes.length ≠ n then .error .TypeError else .value (.str bytes)) (cursors.map Cursor.handle)
  rw [if_pos hlen] at hcall
  rw [← hruns', runs_zero .String .Object] at hsound'
  exact ⟨_, hcall, hsound', rfl, hrest.zero .Object⟩

/-- After a mismatch which is skipped, the decoder is past the entry. -/
theorem follows_mismatch {accessor : Accessor} {kind : Kind} {items : List Item} (hmismatch : Mismatch accessor kind items)
    (hskips : Skips accessor kind items)
    (h : Follows rest (.entry kind items :: cursors) ⟨epee, .entry kind items.length :: cursors.map Cursor.handle⟩) :
    ∃ s, accessCall accessor epee kind items.length (cursors.map Cursor.handle) = .ok (.error .TypeError, s) ∧
    Follows rest cursors s := by
  rcases hmismatch with ⟨expected, hexpected, hmismatch⟩ | ⟨n, width, bytes, rfl, rfl, rfl, hlen⟩
  · cases accessor with
    | fields =>
      cases hexpected
      have hitems : items = [] := hskips.resolve_left (not_not.2 rfl)
      subst hitems
      refine ⟨_, entryFields_mismatch hmismatch h.sound.error, ?_, rfl, ?_⟩
      · have hsound := h.sound
        unfold encodeCursors encodeItems runs at hsound
        rw [List.nil_append, List.length_nil, runs_zero kind .Object] at hsound
        exact hsound
      · exact h.fits.2.2.zero .Object
    | iterate => cases hexpected
    | _ =>
      cases hexpected
      exact entryRead_mismatch hmismatch h
  · exact follows_fixedLen hlen h

theorem callAll_cons {c : Call} {calls : List Call} {s s₁ s' : State} {r : Response} {responses : List Response}
    (hcall : call c s = some (.ok (r, s₁))) (hcalls : callAll calls s₁ = some (.ok (responses, s'))) :
    callAll (c :: calls) s = some (.ok (r :: responses, s')) := by
  rw [callAll, hcall]
  dsimp only
  rw [hcalls]
  rfl

/-- A run of calls follows the cursors, as long as its mismatches are skipped. -/
theorem follows_consumption {calls : List Call} {responses : List Response} {cursors' : List Cursor} {s : State}
    (h : Follows rest cursors s) (hrun : Consumption Skips cursors calls responses cursors') :
    ∃ s', callAll calls s = some (.ok (responses, s')) ∧ Follows rest cursors' s' := by
  induction hrun generalizing s with
  | nil cursors => exact ⟨s, rfl, h⟩
  | correct hconsume _ ih =>
    obtain ⟨s₁, hcall, h₁⟩ := follows_call h hconsume
    obtain ⟨s', hcalls, h'⟩ := ih h₁
    exact ⟨s', callAll_cons hcall hcalls, h'⟩
  | mismatch hmismatch hskips _ ih =>
    obtain ⟨epee, handles⟩ := s
    obtain rfl := h.handles
    obtain ⟨s₁, haccess, h₁⟩ := follows_mismatch hmismatch hskips h
    obtain ⟨s', hcalls, h'⟩ := ih h₁
    exact ⟨s', callAll_cons (congrArg some haccess) hcalls, h'⟩

theorem Consumption.imp {P Q : Accessor → Kind → List Item → Prop} {calls : List Call} {responses : List Response}
    {cursors cursors' : List Cursor} (h : Consumption P cursors calls responses cursors')
    (hPQ : ∀ accessor kind items, P accessor kind items → Q accessor kind items) :
    Consumption Q cursors calls responses cursors' := by
  induction h with
  | nil cursors => exact .nil cursors
  | correct hconsume _ ih => exact .correct hconsume ih
  | mismatch hmismatch hP _ ih => exact .mismatch hmismatch (hPQ _ _ _ hP) ih

end Epee

end MoneroOxide
