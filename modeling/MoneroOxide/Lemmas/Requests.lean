import MoneroOxide.OutsBin
import MoneroOxide.Theorems.BlocksBin
import MoneroOxide.Theorems.Epee

/-!
# The requests which are written by hand

Each request is the encoding of an object, and the decoder yields that object whichever way it is consumed. What a call requests is
what a daemon that keeps its requests was left with.
-/

namespace MoneroOxide

namespace BinRpc

open Epee (Item Field Kind Width)

/-! ## What a request decodes to -/

/-- The request is the encoding of an object: calls of the decoder which are correct for the types yield what is in the object, and
leave the encoding of what they left. Once the object is consumed, that is nothing. -/
def Decodes (request : List UInt8) (object : Item) : Prop :=
  ∃ epee s, Epee.new request = .ok epee ∧ Epee.call .entry ⟨epee, []⟩ = some (.ok (.entry .Object 1, s)) ∧
    ∀ calls responses cursors, Epee.TypeCorrect [.entry .Object [object]] calls responses cursors →
      ∃ s', Epee.callAll calls s = some (.ok (responses, s')) ∧ s'.epee.error = none ∧ s'.epee.encoding = Epee.encodeCursors cursors

theorem decodes_encode {object : Item} (hok : object.Ok .Object Epee.MAX_LEVEL) :
    Decodes (Epee.HEADER ++ Epee.VERSION :: object.encode .Object) object := by
  refine ⟨_, _, Epee.new_encode _, Epee.entry_new _, fun calls responses cursors hrun => ?_⟩
  have hroot := Epee.follows_root hok []
  rw [List.append_nil] at hroot
  obtain ⟨s', hcalls, hfollows⟩ := Epee.follows_consumption hroot (hrun.imp fun _ _ _ hfalse => hfalse.elim)
  have hencoding := hfollows.sound.at_.encoding
  rw [List.append_nil] at hencoding
  exact ⟨s', hcalls, hfollows.sound.error, hencoding⟩

/-- A field which is a number. -/
def numberField (key : String) (n : UInt64) : Field := .mk (ascii key) .Uint64 none [.int n.toNat]

theorem encodeInt_toNat (n : UInt64) : Epee.encodeInt 8 (n.toNat : ℤ) = toLeBytes n := by
  have hlt := n.toNat_lt
  have hmod : ((n.toNat : ℤ) % 256 ^ 8).toNat = n.toNat := by
    rw [Int.emod_eq_of_lt (by omega) (by omega), Int.toNat_natCast]
  rw [Epee.encodeInt, hmod]
  rfl

theorem encode_numberField {key : String} (hkey : (ascii key).length = key.length) (n : UInt64) :
    (numberField key n).encode = epeeKey key ++ [typeByte .Uint64] ++ toLeBytes n := by
  simp only [numberField, Field.encode, Epee.encodeItems, Item.encode, Epee.encodeKind, Kind.size?, Option.getD_some,
    encodeInt_toNat,
    List.append_nil, epeeKey, typeByte, hkey, List.cons_append, List.nil_append, List.append_assoc]

theorem hasInt_toNat (n : UInt64) : Kind.HasInt .Uint64 (n.toNat : ℤ) := by
  have hlt := n.toNat_lt
  exact ⟨by omega, by omega⟩

theorem ok_numberField {key : String} (hne : ascii key ≠ []) (hlt : (ascii key).length < 256) (n : UInt64) (depth : ℕ) :
    (numberField key n).Ok depth := by
  rw [numberField, Field.Ok]
  refine ⟨hne, hlt, rfl, ?_⟩
  rw [Epee.itemsOk, Item.Ok, Epee.itemsOk]
  exact ⟨hasInt_toNat n, trivial⟩

/-- A field which is a flag. -/
def flagField (key : String) (byte : UInt8) : Field := .mk (ascii key) .Bool none [.bool byte]

theorem encode_flagField {key : String} (hkey : (ascii key).length = key.length) (byte : UInt8) :
    (flagField key byte).encode = epeeKey key ++ [typeByte .Bool, byte] := by
  simp only [flagField, Field.encode, Epee.encodeItems, Item.encode, Epee.encodeKind, List.append_nil, epeeKey, typeByte, hkey,
    List.cons_append, List.nil_append]

theorem ok_flagField {key : String} (hne : ascii key ≠ []) (hlt : (ascii key).length < 256) (byte : UInt8) (depth : ℕ) :
    (flagField key byte).Ok depth := by
  rw [flagField, Field.Ok]
  refine ⟨hne, hlt, rfl, ?_⟩
  rw [Epee.itemsOk, Item.Ok, Epee.itemsOk]
  exact ⟨rfl, trivial⟩

theorem holds_one {n : ℕ} (h : n < 64) : Width.one.Holds n := by
  change 4 * n < 256 ^ 1
  omega

/-! ## The objects -/

/-- What `ringct_outputs` requests for an index. -/
def outObject (index : UInt64) : Item := .object .one [numberField "amount" 0, numberField "index" index]

/-- What `ringct_outputs` requests for a chunk of the indexes. -/
def outsObject (indexes : List UInt64) : Item := .object .one [.mk (ascii "outputs") .Object (some .eight) (indexes.map outObject)]

/-- What `output_indexes` requests. -/
def txidObject (hash : Bytes 32) : Item := .object .one [.mk (ascii "txid") .String none [.string .one hash.toList]]

/-- What `ringct_output_distribution` requests. -/
def distributionObject (start stop : UInt64) : Item :=
  .object .one
    [numberField "from_height" start, numberField "to_height" stop, flagField "cumulative" 1, flagField "compress" 0,
      .mk (ascii "amounts") .Uint64 (some .one) [.int 0]]

/-- What `fetch_contiguous_blocks` requests. -/
def blocksObject (start maxBlockCount : UInt64) : Item :=
  .object .one [flagField "prune" 1, numberField "start_height" start, numberField "max_block_count" maxBlockCount]

theorem ok_outObject (index : UInt64) (depth : ℕ) : (outObject index).Ok .Object (depth + 1) := by
  rw [outObject, Item.Ok, Epee.fieldsOk, Epee.fieldsOk, Epee.fieldsOk]
  exact ⟨rfl, holds_one (by simp), ok_numberField (by decide) (by decide) 0 depth,
    ok_numberField (by decide) (by decide) index depth, trivial⟩

theorem ok_outsObject {indexes : List UInt64} (h : indexes.length ≤ MAX_OUTS) : (outsObject indexes).Ok .Object Epee.MAX_LEVEL := by
  have hitems : ∀ indexes : List UInt64, Epee.itemsOk .Object 50 (indexes.map outObject) := by
    intro indexes
    induction indexes with
    | nil => exact trivial
    | cons index indexes ih =>
      rw [List.map_cons, Epee.itemsOk]
      exact ⟨ok_outObject index 49, ih⟩
  have hholds : Width.Holds .eight (indexes.map outObject).length := by
    rw [List.length_map, Width.Holds]
    have hmax : 4 * MAX_OUTS < 256 ^ Width.eight.bytes := by decide
    omega
  rw [outsObject, Epee.MAX_LEVEL, Item.Ok, Epee.fieldsOk, Epee.fieldsOk, Field.Ok]
  exact ⟨rfl, holds_one (by simp), ⟨by decide, by decide, hholds, hitems indexes⟩, trivial⟩

theorem ok_txidObject (hash : Bytes 32) : (txidObject hash).Ok .Object Epee.MAX_LEVEL := by
  rw [txidObject, Epee.MAX_LEVEL, Item.Ok, Epee.fieldsOk, Epee.fieldsOk, Field.Ok, Epee.itemsOk, Epee.itemsOk, Item.Ok]
  exact ⟨rfl, holds_one (by simp), ⟨by decide, by decide, rfl, ⟨rfl, holds_one (by simp)⟩, trivial⟩, trivial⟩

theorem ok_distributionObject (start stop : UInt64) : (distributionObject start stop).Ok .Object Epee.MAX_LEVEL := by
  have hamounts : Field.Ok 50 (.mk (ascii "amounts") .Uint64 (some .one) [.int 0]) := by
    rw [Field.Ok, Epee.itemsOk, Item.Ok, Epee.itemsOk]
    exact ⟨by decide, by decide, holds_one (by simp), hasInt_toNat 0, trivial⟩
  rw [distributionObject, Epee.MAX_LEVEL, Item.Ok]
  simp only [Epee.fieldsOk]
  exact ⟨trivial, holds_one (by simp), ok_numberField (by decide) (by decide) start 50,
    ok_numberField (by decide) (by decide) stop 50,
    ok_flagField (by decide) (by decide) 1 50, ok_flagField (by decide) (by decide) 0 50, hamounts, trivial⟩

theorem ok_blocksObject (start maxBlockCount : UInt64) : (blocksObject start maxBlockCount).Ok .Object Epee.MAX_LEVEL := by
  rw [blocksObject, Epee.MAX_LEVEL, Item.Ok]
  simp only [Epee.fieldsOk]
  exact ⟨trivial, holds_one (by simp), ok_flagField (by decide) (by decide) 1 50, ok_numberField (by decide) (by decide) start 50,
    ok_numberField (by decide) (by decide) maxBlockCount 50, trivial⟩

/-! ## The requests are their encodings -/

/-- A length of an array, as eight bytes. -/
theorem toLeBytes_shift {n : ℕ} (h : n ≤ MAX_OUTS) : toLeBytes ((UInt64.ofNat n <<< 2) ||| 0b11) = Width.eight.encode n := by
  have hmax : MAX_OUTS < 2 ^ 32 := by decide
  have hn : (UInt64.ofNat n).toNat = n := UInt64.toNat_ofNat_of_lt' (show n < 2 ^ 64 by omega)
  have hor : ((UInt64.ofNat n <<< 2) ||| 0b11).toNat = 4 * n + 3 := by
    have hshift : (UInt64.ofNat n <<< 2).toNat = n <<< 2 := by
      rw [UInt64.toNat_shiftLeft, hn]
      change n <<< 2 % 2 ^ 64 = n <<< 2
      rw [Nat.shiftLeft_eq]
      omega
    rw [UInt64.toNat_or, hshift]
    change n <<< 2 ||| 3 = 4 * n + 3
    rw [← Nat.shiftLeft_add_eq_or_of_lt (by decide), Nat.shiftLeft_eq]
    omega
  rw [toLeBytes, hor]
  rfl

theorem encode_outObject (index : UInt64) : (outObject index).encode .Object = outRequest index := by
  rw [outObject, Item.encode, Epee.encodeFields, Epee.encodeFields, Epee.encodeFields, encode_numberField (by decide),
    encode_numberField (by decide), outRequest]
  simp only [List.append_assoc, List.append_nil]
  rfl

theorem encodeItems_outObject (indexes : List UInt64) : Epee.encodeItems .Object (indexes.map outObject) =
    indexes.flatMap outRequest := by
  induction indexes with
  | nil => rfl
  | cons index indexes ih => rw [List.map_cons, Epee.encodeItems, encode_outObject, ih, List.flatMap_cons]

theorem encode_outsObject {indexes : List UInt64} (h : indexes.length ≤ MAX_OUTS) :
    Epee.HEADER ++ Epee.VERSION :: (outsObject indexes).encode .Object =
      outsHeader ++ (toLeBytes ((UInt64.ofNat indexes.length <<< 2) ||| 0b11) ++ indexes.flatMap outRequest) := by
  rw [outsObject, Item.encode, Epee.encodeFields, Epee.encodeFields, Field.encode, encodeItems_outObject, toLeBytes_shift h,
    List.length_map, outsHeader]
  simp only [List.append_assoc, List.append_nil, Epee.encodeKind, List.cons_append, List.nil_append]
  rfl

theorem encode_txidObject (hash : Bytes 32) : Epee.HEADER ++ Epee.VERSION :: (txidObject hash).encode .Object =
    Epee.HEADER ++ [Epee.VERSION] ++ [4 * 1] ++ epeeKey "txid" ++ [UInt8.ofNat Kind.String.discriminant] ++ [4 * 32] ++
    hash.toList := by
  rw [txidObject, Item.encode, Epee.encodeFields, Epee.encodeFields, Field.encode, Epee.encodeItems, Epee.encodeItems, Item.encode,
    Bytes.length_toList]
  simp only [List.append_assoc, List.append_nil, Epee.encodeKind, List.cons_append, List.nil_append]
  rfl

theorem encode_distributionObject (start stop : UInt64) : Epee.HEADER ++ Epee.VERSION ::
    (distributionObject start (if start = 0 ∧ stop = 0 then 1 else stop)).encode .Object = distributionRequest start stop := by
  rw [distributionObject, Item.encode]
  simp only [Epee.encodeFields, encode_numberField (show (ascii "from_height").length = "from_height".length by decide),
    encode_numberField (show (ascii "to_height").length = "to_height".length by decide),
    encode_flagField (show (ascii "cumulative").length = "cumulative".length by decide),
    encode_flagField (show (ascii "compress").length = "compress".length by decide)]
  rw [distributionRequest]
  simp only [List.append_assoc, List.append_nil, List.cons_append, List.nil_append]
  rfl

theorem encode_blocksObject (start maxBlockCount : UInt64) : Epee.HEADER ++ Epee.VERSION ::
    (blocksObject start maxBlockCount).encode .Object =
      fetchHeader ++ (toLeBytes start ++ (epeeKey "max_block_count" ++ ([typeByte .Uint64] ++ toLeBytes maxBlockCount))) := by
  rw [blocksObject, Item.encode]
  simp only [Epee.encodeFields, encode_flagField (show (ascii "prune").length = "prune".length by decide),
    encode_numberField (show (ascii "start_height").length = "start_height".length by decide),
    encode_numberField (show (ascii "max_block_count").length = "max_block_count".length by decide)]
  rw [fetchHeader]
  simp only [List.append_assoc, List.append_nil, List.cons_append, List.nil_append]
  rfl

/-! ## In the buffer of the request before -/

theorem debugAssertEq_self (n : ℕ) : debugAssertEq n n = .ok () := if_pos rfl

theorem length_outsHeader : outsHeader.length = OUTS_HEADER_LEN := by decide

theorem length_fetchHeader : fetchHeader.length = FETCH_HEADER_LEN := by decide

theorem length_outRequest (index : UInt64) : (outRequest index).length = 32 := by
  simp only [outRequest, toLeBytes, List.length_append, Bytes.length_toList]
  decide

theorem foldl_outRequest (request : List UInt8) (indexes : List UInt64) :
    indexes.foldl (fun request index => request ++ outRequest index) request = request ++ indexes.flatMap outRequest := by
  induction indexes generalizing request with
  | nil => rw [List.foldl_nil, List.flatMap_nil, List.append_nil]
  | cons index indexes ih => rw [List.foldl_cons, ih, List.flatMap_cons, List.append_assoc]

/-- The request for a chunk is its encoding, whatever was requested in the buffer before, and of the length asserted. -/
theorem outsRequest_eq {request : List UInt8} {expectedRequestLen : ℕ} {firstIter : Bool} {indexes : List UInt64}
    (hrequest : request.take OUTS_HEADER_LEN = outsHeader) (hle : indexes.length ≤ MAX_OUTS)
    (hlen : firstIter = true → expectedRequestLen = OUTS_HEADER_LEN + 8 + indexes.length * 32) :
    outsRequest request expectedRequestLen firstIter indexes =
      .ok (Epee.HEADER ++ Epee.VERSION :: (outsObject indexes).encode .Object) := by
  have hmax : MAX_OUTS < 2 ^ 64 := by decide
  have hindexes : u64FromUsize indexes.length "requesting more than 2**64 indexes?" =
      (.ok (UInt64.ofNat indexes.length) : Except (Failure InterfaceError) UInt64) := if_pos (by omega)
  have hlength : (outsHeader ++ toLeBytes ((UInt64.ofNat indexes.length <<< 2) ||| 0b11) ++ indexes.flatMap outRequest).length =
      OUTS_HEADER_LEN + 8 + indexes.length * 32 := by
    rw [List.length_append, List.length_append, length_outsHeader, toLeBytes, Bytes.length_toList, List.length_flatMap]
    simp only [length_outRequest, List.map_const', List.sum_replicate, smul_eq_mul]
  rw [outsRequest, hindexes, Results.ok_bind, hrequest]
  dsimp only
  rw [foldl_outRequest, hlength, encode_outsObject hle, List.append_assoc]
  cases firstIter with
  | false => rfl
  | true =>
    rw [hlen rfl, if_pos rfl, debugAssertEq_self]
    rfl

theorem take_outsObject {indexes : List UInt64} (hle : indexes.length ≤ MAX_OUTS) :
    (Epee.HEADER ++ Epee.VERSION :: (outsObject indexes).encode .Object).take OUTS_HEADER_LEN = outsHeader := by
  rw [encode_outsObject hle, ← length_outsHeader, List.take_left]

/-- The request for blocks in the buffer is the one made anew, whatever was requested in it before, and of the length asserted. -/
theorem fetchRequestReusing_eq {request : List UInt8} (hrequest : request.take FETCH_HEADER_LEN = fetchHeader)
    (state : FetchState) :
    fetchRequestReusing request state.start state.remainingBlocks = .ok (fetchRequest state) := by
  have hlength : (fetchHeader ++ (leBytes 8 state.start).toList ++ epeeKey "max_block_count" ++ [typeByte .Uint64] ++
      (leBytes 8 state.remainingBlocks).toList).length = FETCH_HEADER_LEN + 8 + 25 := by
    simp only [List.length_append, length_fetchHeader, Bytes.length_toList]
    decide
  rw [fetchRequestReusing, hrequest, hlength, debugAssertEq_self, Results.ok_bind, fetchRequest]
  rfl

theorem take_fetchRequest (state : FetchState) : (fetchRequest state).take FETCH_HEADER_LEN = fetchHeader := by
  have hrequest : fetchRequest state = fetchHeader ++ ((leBytes 8 state.start).toList ++ (epeeKey "max_block_count" ++
      ([typeByte .Uint64] ++ (leBytes 8 state.remainingBlocks).toList))) := by
    simp only [fetchRequest, List.append_assoc]
    rfl
  rw [hrequest, ← length_fetchHeader, List.take_left]

theorem fetchRequest_eq {state : FetchState} {start remainingBlocks : UInt64} (hstart : state.start = start.toNat)
    (hremaining : state.remainingBlocks = remainingBlocks.toNat) :
    fetchRequest state = Epee.HEADER ++ Epee.VERSION :: (blocksObject start remainingBlocks).encode .Object := by
  rw [encode_blocksObject, fetchRequest, hstart, hremaining]
  simp only [toLeBytes, List.append_assoc]
  rfl

/-! ## What is requested -/

/-- A daemon with the requests which were made to it. -/
def recording {σ : Type} (daemon : MoneroDaemon σ) : MoneroDaemon (σ × List (String × List UInt8)) where
  transport route body responseSizeLimit := fun s =>
    match daemon.transport route body responseSizeLimit s.1 with
    | .ok res t => .ok res (t, s.2 ++ [(route, body)])
    | .error e t => .error e (t, s.2 ++ [(route, body)])
  responseSizeLimits := daemon.responseSizeLimits
  supportsJsonRpcBatchRequests := daemon.supportsJsonRpcBatchRequests

section Recording

variable {σ : Type} (daemon : MoneroDaemon σ)

/-- A failure which is no panic. -/
def NoPanic (e : Failure InterfaceError) : Prop := ∀ message, e ≠ .panic message

/-- Whether it returns or fails, the call leaves these requests. -/
def Requests {α : Type} (P : List (String × List UInt8) → Prop)
    (r : EStateM.Result (Failure InterfaceError) (σ × List (String × List UInt8)) α) : Prop :=
  Call.Meets (fun _ t => P t.2) (fun _ t => P t.2) r

theorem Requests.bind {α β : Type} {P : List (String × List UInt8) → Prop}
    {x : Call (σ × List (String × List UInt8)) InterfaceError α}
    {f : α → Call (σ × List (String × List UInt8)) InterfaceError β} {s : σ × List (String × List UInt8)} (hx : Requests P (x s))
    (hf : ∀ a t, P t.2 → Requests P (f a t)) : Requests P ((x >>= f) s) := Call.Meets.bind hx hf

theorem Requests.imp {α : Type} {P Q : List (String × List UInt8) → Prop}
    {r : EStateM.Result (Failure InterfaceError) (σ × List (String × List UInt8)) α} (h : Requests P r)
    (hPQ : ∀ log, P log → Q log) :
    Requests Q r := Call.Meets.imp h (fun _ _ ht => hPQ _ ht) fun _ _ ht => hPQ _ ht

theorem meets_ofExcept {α : Type} {P : α → Prop} {x : Except (Failure InterfaceError) α} (h : Ends P x)
    (s : σ × List (String × List UInt8)) :
    Call.Meets (fun a t => P a ∧ t = s) (fun e t => NoPanic e ∧ t = s) ((Call.ofExcept x : Call _ InterfaceError α) s) := by
  cases x with
  | ok a => exact ⟨h, rfl⟩
  | error e =>
    cases e with
    | error e => exact ⟨nofun, rfl⟩
    | panic message => exact h.elim

theorem requests_ofExcept {α : Type} {P : List (String × List UInt8) → Prop} (x : Except (Failure InterfaceError) α)
    {s : σ × List (String × List UInt8)} (h : P s.2) : Requests P ((Call.ofExcept x : Call _ InterfaceError α) s) := by
  cases x with
  | ok a => exact h
  | error e => exact h

/-- A binary call makes one request, whatever comes of it. -/
theorem meets_binCall (route : String) (params : List UInt8) (responseSizeLimit : ℕ) (s : σ × List (String × List UInt8)) :
    Call.Meets (fun epee t => epee.length ≤ MAX_RESPONSE_SIZE ∧ t.2 = s.2 ++ [(route, params)])
      (fun e t => NoPanic e ∧ t.2 = s.2 ++ [(route, params)]) (binCall (recording daemon) route params responseSizeLimit s) := by
  refine Call.Meets.bind (P := fun _ t => t.2 = s.2 ++ [(route, params)]) ?_ fun answer t ht => ?_
  · unfold Blocks.attempt recording
    dsimp only
    cases daemon.transport route params
      (if daemon.responseSizeLimits then some (binResponseSizeLimit responseSizeLimit) else none) s.1 with
    | ok res t => exact rfl
    | error e t => exact rfl
  · refine (meets_ofExcept (ends_received responseSizeLimit answer) t).imp ?_ ?_
    · rintro epee u ⟨hlen, rfl⟩
      exact ⟨hlen, ht⟩
    · rintro e u ⟨he, rfl⟩
      exact ⟨he, ht⟩

theorem requests_binCall (route : String) (params : List UInt8) (responseSizeLimit : ℕ) (s : σ × List (String × List UInt8)) :
    Requests (fun log => log = s.2 ++ [(route, params)]) (binCall (recording daemon) route params responseSizeLimit s) :=
  (meets_binCall daemon route params responseSizeLimit s).imp (fun _ _ ht => ht.2) fun _ _ ht => ht.2

end Recording

end BinRpc

end MoneroOxide
