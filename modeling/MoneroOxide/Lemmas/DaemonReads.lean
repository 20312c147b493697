import MoneroOxide.Lemmas.Daemon
import MoneroOxide.Lemmas.DaemonRpc
import MoneroOxide.Theorems.Block

/-!
# What a daemon returns was read

Whatever a daemon answers, the blocks and transactions which its methods return are ones that can be read: each of them came out of
`read`, be it on the hex of a JSON answer or on a string of a binary one.
-/

namespace MoneroOxide

variable {σ : Type}

theorem Call.returns_mapErr {ε ε' α : Type} {Q : α → Prop} {x : Call σ ε α} (h : Call.Returns Q x) (f : ε → ε') :
    Call.Returns Q (x.mapErr f) := by
  intro s a t ha
  unfold Call.mapErr at ha
  split at ha
  · rename_i b u hb
    cases ha
    exact h s _ _ hb
  · cases ha
  · cases ha

theorem Call.returns_propagate {ε α : Type} {Q : α → Prop} {x : EStateM InterfaceError σ α} (h : Call.Returns Q x)
    (from' : InterfaceError → ε) : Call.Returns Q (Call.propagate from' x) :=
  fun s a t ha => h s a t (Call.propagate_ok.1 ha)

namespace Blocks

theorem readBlock_readable {response : JsonRpcResponse} {block : Block} (h : readBlock response = .ok block) : block.Readable := by
  obtain ⟨bytes, -, hread⟩ := Results.bind_eq_ok.1 h
  split at hread
  · rename_i block' rest hblock
    obtain rfl := Except.ok.inj hread
    exact Block.reads_read.valid hblock
  · cases hread

theorem readBlocks_readable {responses : List (ℕ × JsonRpcResponse)} {blocks : List Block} (h : readBlocks responses = .ok blocks) :
    ∀ block ∈ blocks, block.Readable := by
  intro block hmem
  obtain ⟨x, -, -, hread⟩ := Lists.exists_mem_of_forall₂ (readBlocks_ok h) hmem
  exact readBlock_readable hread

/-- The blocks which a round leaves, whether there is another one or not. -/
def Outcome.res : Outcome → List Block
  | .again state => state.res
  | .returned res => res

theorem receive_readable {json : SerdeJson} {state : LoopState} {request : Request} {answer : Except InterfaceError String}
    {outcome : Outcome} (hstate : ∀ block ∈ state.res, block.Readable) (h : receive json state request answer = .ok outcome) :
    ∀ block ∈ outcome.res, block.Readable := by
  cases answer with
  | error e =>
    rw [receive] at h
    split at h
    · cases h
    · cases h
      exact hstate
  | ok text =>
    rw [receive] at h
    split at h
    · cases h
    · simp only at h
      split at h
      · cases h
      · split at h
        · cases h
        · rename_i blocks hread
          have hres : ∀ block ∈ state.res ++ blocks, block.Readable := by
            intro block hmem
            rcases List.mem_append.1 hmem with hmem | hmem
            · exact hstate block hmem
            · exact readBlocks_readable hread block hmem
          split at h
          · obtain ⟨adapted, -, h⟩ := Results.bind_eq_ok.1 h
            cases h
            exact hres
          · cases h
            exact hres

theorem returns_loop (json : SerdeJson) (daemon : MoneroDaemon σ) (fuel : ℕ) {state : LoopState}
    (hstate : ∀ block ∈ state.res, block.Readable) :
    Call.Returns (fun blocks => ∀ block ∈ blocks, Block.Readable block) (loop json daemon fuel state) := by
  induction fuel generalizing state with
  | zero => exact .throw _
  | succ fuel ih =>
    refine .ite (fun _ => .andThen fun request => .andThen fun answer => ?_) fun _ => .pure hstate
    refine .bind (.ofExcept fun outcome => receive_readable (by unfold batched; split <;> exact hstate)) fun outcome houtcome => ?_
    cases outcome with
    | again state => exact ih houtcome
    | returned res => exact .pure houtcome

theorem returns_contiguousBlocks (json : SerdeJson) (daemon : MoneroDaemon σ) (range : RangeInclusive) :
    Call.Returns (fun blocks => ∀ block ∈ blocks, Block.Readable block) (contiguousBlocks json daemon range) :=
  returns_loop json daemon _ (by simp [initial])

end Blocks

theorem PrunedTransactionWithPrunableHash.transaction_of_new {tx : Transaction Pruned} {prunableHash : Option (Bytes 32)}
    {pruned : PrunedTransactionWithPrunableHash} (h : PrunedTransactionWithPrunableHash.new tx prunableHash = some pruned) :
    pruned.transaction = tx := by
  unfold PrunedTransactionWithPrunableHash.new at h
  split at h <;> cases h <;> rfl

/-- The transaction can be read. -/
def PrunedTransactionWithPrunableHash.Readable (tx : PrunedTransactionWithPrunableHash) : Prop := tx.transaction.Readable Pruned.codec

/-- The block and its transactions can be read. -/
def UnvalidatedScannableBlock.Readable (block : UnvalidatedScannableBlock) : Prop :=
  block.block.Readable ∧ ∀ tx ∈ block.transactions, tx.Readable

namespace BinRpc

/-! ## Walks -/

section Loops

variable {β : Type} {Q : β → Prop}

theorem returns_forFields {body : List UInt8 → β → Walk β} (hbody : ∀ key acc, Q acc → Call.Returns Q (body key acc)) {init : β}
    (hinit : Q init) : Call.Returns Q (forFields body init) := by
  have hloop : ∀ fuel acc, Q acc → Call.Returns Q (fieldsLoop body fuel acc) := by
    intro fuel
    induction fuel with
    | zero => exact fun _ _ => .throw _
    | succ fuel ih =>
      intro acc hacc
      refine .andThen fun key => ?_
      cases key with
      | none => exact .pure hacc
      | some key => exact .bind (hbody key acc hacc) ih
  exact fun s => hloop _ init hinit s

theorem returns_forItems {body : β → Walk β} (hbody : ∀ acc, Q acc → Call.Returns Q (body acc)) {init : β} (hinit : Q init) :
    Call.Returns Q (forItems body init) := by
  have hloop : ∀ fuel acc, Q acc → Call.Returns Q (itemsLoop body fuel acc) := by
    intro fuel
    induction fuel with
    | zero => exact fun _ _ => .throw _
    | succ fuel ih =>
      intro acc hacc
      refine .andThen fun more => ?_
      cases more with
      | false => exact .pure hacc
      | true => exact .bind (hbody acc hacc) ih
  exact fun s => hloop _ init hinit s

end Loops

theorem returns_readWhole {α : Type} {read : Read α} {V : α → Prop} {w : α → List UInt8} (h : Reader.Reads read V w) (name : String)
    (encoding : List UInt8) : Call.Returns V (readWhole read name encoding) := by
  unfold readWhole
  split
  · exact .throw _
  · exact .throw _
  · rename_i a hread
    exact .pure (h.valid hread)

theorem returns_transactionField (key : List UInt8) {acc : Option (Transaction Pruned) × Option (Bytes 32)}
    (hacc : ∀ tx ∈ acc.1, tx.Readable Pruned.codec) :
    Call.Returns (fun acc => ∀ tx ∈ acc.1, Transaction.Readable Pruned.codec tx) (transactionField key acc) := by
  unfold transactionField
  refine .ite (fun _ => .andThen fun encoding => ?_) fun _ => .ite (fun _ => .andThen fun hash => .pure hacc)
    fun _ => .andThen fun _ => .pure hacc
  refine .bind (returns_readWhole (Transaction.reads_read Pruned.codec) "transaction" encoding) fun tx htx => .pure ?_
  rintro tx' ⟨⟩
  exact htx

theorem returns_checkPrunableHash {tx : Transaction Pruned} (htx : tx.Readable Pruned.codec) (prunableHash : Option (Bytes 32)) :
    Call.Returns PrunedTransactionWithPrunableHash.Readable (checkPrunableHash tx prunableHash) := by
  refine .ite (fun _ => .throw _) fun _ => ?_
  split
  · exact .throw _
  · rename_i pruned hnew
    refine .pure ?_
    rw [PrunedTransactionWithPrunableHash.Readable, PrunedTransactionWithPrunableHash.transaction_of_new hnew]
    exact htx

theorem returns_transactionItem {transactions : List PrunedTransactionWithPrunableHash} (h : ∀ tx ∈ transactions, tx.Readable) :
    Call.Returns (fun transactions => ∀ tx ∈ transactions, PrunedTransactionWithPrunableHash.Readable tx) (transactionItem transactions) := by
  refine .andThen fun _ => .bind (returns_forFields (fun key acc => returns_transactionField key) (by simp)) fun read hread => ?_
  split
  · exact .throw _
  · rename_i tx htx
    refine .bind (returns_checkPrunableHash (hread tx htx) _) fun pruned hpruned => .andThen fun _ => .pure fun tx' hmem => ?_
    rcases List.mem_append.1 hmem with hmem | hmem
    · exact h tx' hmem
    · rw [List.mem_singleton.1 hmem]
      exact hpruned

/-- A block and its transactions can be read. -/
def ReadableEntry (entry : Block × List PrunedTransactionWithPrunableHash) : Prop :=
  entry.1.Readable ∧ ∀ tx ∈ entry.2, tx.Readable

theorem returns_blockField (key : List UInt8) {acc : Option Block × List PrunedTransactionWithPrunableHash}
    (hacc : (∀ block ∈ acc.1, block.Readable) ∧ ∀ tx ∈ acc.2, tx.Readable) :
    Call.Returns (fun acc : Option Block × List PrunedTransactionWithPrunableHash =>
      (∀ block ∈ acc.1, block.Readable) ∧ ∀ tx ∈ acc.2, tx.Readable) (blockField key acc) := by
  unfold blockField
  refine .ite (fun _ => .andThen fun encoding => ?_) fun _ => .ite (fun _ => .andThen fun _ => ?_)
    fun _ => .andThen fun _ => .pure hacc
  · refine .bind (returns_readWhole Block.reads_read "block" encoding) fun block hblock => .pure ⟨?_, hacc.2⟩
    rintro block' ⟨⟩
    exact hblock
  · exact .bind (returns_forItems (fun _ => returns_transactionItem) hacc.2) fun transactions htransactions =>
      .andThen fun _ => .pure ⟨hacc.1, htransactions⟩

theorem returns_blockItem {res : List (Block × List PrunedTransactionWithPrunableHash)} (h : ∀ entry ∈ res, ReadableEntry entry) :
    Call.Returns (fun res => ∀ entry ∈ res, ReadableEntry entry) (blockItem res) := by
  refine .andThen fun _ => .bind (returns_forFields (fun key acc => returns_blockField key) (by simp)) fun read hread => ?_
  split
  · exact .throw _
  · rename_i block hblock
    refine .andThen fun _ => .pure fun entry hmem => ?_
    rcases List.mem_append.1 hmem with hmem | hmem
    · exact h entry hmem
    · rw [List.mem_singleton.1 hmem]
      exact ⟨hread.1 block hblock, hread.2⟩

theorem returns_answerField (key : List UInt8) {acc : List (Block × List PrunedTransactionWithPrunableHash) × List UInt64}
    (hacc : ∀ entry ∈ acc.1, ReadableEntry entry) :
    Call.Returns (fun acc : List (Block × List PrunedTransactionWithPrunableHash) × List UInt64 =>
      ∀ entry ∈ acc.1, ReadableEntry entry) (answerField key acc) := by
  unfold answerField
  refine .ite (fun _ => .andThen fun _ => ?_) fun _ => .ite (fun _ => .andThen fun _ => ?_) fun _ => .andThen fun _ => .pure hacc
  · exact .bind (returns_forItems (fun _ => returns_blockItem) hacc) fun res hres => .andThen fun _ => .pure hres
  · exact .andThen fun _ => .andThen fun _ => .pure hacc

/-- A result of a walk over an encoding is one of the walk. -/
theorem decode_some {α : Type} {Q : α → Prop} {walk : Walk α} (hwalk : Call.Returns Q walk) {encoding : List UInt8} {a : α}
    (h : decode encoding walk = .ok (some a)) : Q a := by
  unfold decode at h
  split at h
  · cases h
  · cases h
  · rename_i epee _
    split at h
    · rename_i b s hb
      cases h
      exact (Call.Returns.andThen fun _ => hwalk) _ _ _ hb
    · cases h
    · cases h

theorem handleBlocks_readable {res : List (Block × List PrunedTransactionWithPrunableHash)} (h : ∀ entry ∈ res, ReadableEntry entry)
    {allOutputIndexes : List UInt64} {handled : List UnvalidatedScannableBlock × List UInt64}
    (hhandled : handleBlocks allOutputIndexes res = .ok handled) : ∀ block ∈ handled.1, block.Readable := by
  induction res generalizing allOutputIndexes handled with
  | nil =>
    cases hhandled
    simp
  | cons entry res ih =>
    obtain ⟨block, transactions⟩ := entry
    obtain ⟨hentry, hres⟩ := List.forall_mem_cons.1 h
    rw [handleBlocks] at hhandled
    obtain ⟨indexes, -, hhandled⟩ := Results.bind_eq_ok.1 hhandled
    obtain ⟨rest, hrest, hhandled⟩ := Results.bind_eq_ok.1 hhandled
    cases hhandled
    exact List.forall_mem_cons.2 ⟨hentry, ih hres hrest⟩

theorem extractBlocksFromBlocksBin_readable {blocksBin : List UInt8} {blocks : List UnvalidatedScannableBlock}
    (h : extractBlocksFromBlocksBin blocksBin = .ok (some blocks)) : ∀ block ∈ blocks, block.Readable := by
  unfold extractBlocksFromBlocksBin at h
  obtain ⟨read, hread, h⟩ := Results.bind_eq_ok.1 h
  split at h
  · cases h
  · rename_i res allOutputIndexes
    obtain ⟨result, hresult, h⟩ := Results.bind_eq_ok.1 h
    have hentries := decode_some (returns_forFields (fun key acc => returns_answerField key) (by simp)) hread
    split at h
    · cases h
    · cases h
      exact handleBlocks_readable hentries hresult

/-! ## Fetching contiguous blocks -/

theorem pushBlocks_readable {blocks : List UnvalidatedScannableBlock} (h : ∀ block ∈ blocks, block.Readable) {state : FetchState}
    (hstate : ∀ block ∈ state.res, block.Readable) {blocksReceived : ℕ} {pushed : FetchState × Option ℕ}
    (hpushed : pushBlocks state blocksReceived blocks = .ok pushed) : ∀ block ∈ pushed.1.res, block.Readable := by
  induction blocks generalizing state blocksReceived with
  | nil =>
    cases hpushed
    exact hstate
  | cons block blocks ih =>
    obtain ⟨hblock, hblocks⟩ := List.forall_mem_cons.1 h
    rw [pushBlocks] at hpushed
    obtain ⟨received, -, hpushed⟩ := Results.bind_eq_ok.1 hpushed
    obtain ⟨remaining, -, hpushed⟩ := Results.bind_eq_ok.1 hpushed
    have hres : ∀ block' ∈ state.res ++ [block], block'.Readable := by
      intro block' hmem
      rcases List.mem_append.1 hmem with hmem | hmem
      · exact hstate block' hmem
      · rw [List.mem_singleton.1 hmem]
        exact hblock
    split at hpushed
    · cases hpushed
      exact hres
    · exact ih hblocks hres hpushed

/-- The blocks which a round leaves, whether there is another one or not. -/
def FetchOutcome.res : FetchOutcome → List UnvalidatedScannableBlock
  | .again state => state.res
  | .returned _ res => res

theorem receiveBlocks_readable {state : FetchState} (hstate : ∀ block ∈ state.res, block.Readable)
    {blocks : Option (List UnvalidatedScannableBlock)} (hblocks : ∀ blocks' ∈ blocks, ∀ block ∈ blocks', block.Readable)
    {outcome : FetchOutcome} (h : receiveBlocks state blocks = .ok outcome) : ∀ block ∈ outcome.res, block.Readable := by
  cases blocks with
  | none =>
    cases h
    exact hstate
  | some blocks =>
    rw [receiveBlocks] at h
    obtain ⟨pushed, hpushed, h⟩ := Results.bind_eq_ok.1 h
    have hres := pushBlocks_readable (hblocks blocks rfl) hstate hpushed
    split at h
    · cases h
      exact hres
    · cases h
    · obtain ⟨start, -, h⟩ := Results.bind_eq_ok.1 h
      cases h
      exact hres

theorem returns_fetchLoop (daemon : MoneroDaemon σ) (fuel : ℕ) {state : FetchState} (hstate : ∀ block ∈ state.res, block.Readable) :
    Call.Returns (fun fetched => ∀ block ∈ fetched.2, block.Readable) (fetchLoop daemon fuel state) := by
  induction fuel generalizing state with
  | zero => exact .throw _
  | succ fuel ih =>
    refine .ite (fun _ => .andThen fun epee => ?_) fun _ => .pure hstate
    refine .bind (.ofExcept fun blocks hblocks => ?_) fun blocks hblocks =>
      .bind (.ofExcept fun outcome => receiveBlocks_readable hstate hblocks) fun outcome houtcome => ?_
    · rintro blocks' rfl
      exact extractBlocksFromBlocksBin_readable hblocks
    · cases outcome with
      | again state => exact ih houtcome
      | returned applicable res => exact .pure houtcome

theorem fetchInitial_readable {range : RangeInclusive} {res : List UnvalidatedScannableBlock} (hres : ∀ block ∈ res, block.Readable)
    {outcome : FetchOutcome} (h : fetchInitial range res = .ok outcome) : ∀ block ∈ outcome.res, block.Readable := by
  simp only [fetchInitial] at h
  split at h
  · cases h
  · split at h
    · cases h
      exact hres
    · split at h
      · cases h
      · cases h
        exact hres

theorem returns_fetchContiguousBlocks (daemon : MoneroDaemon σ) (range : RangeInclusive) {res : List UnvalidatedScannableBlock}
    (hres : ∀ block ∈ res, block.Readable) :
    Call.Returns (fun fetched => ∀ block ∈ fetched.2, block.Readable) (fetchContiguousBlocks daemon range res) := by
  refine .bind (.ofExcept fun outcome => fetchInitial_readable hres) fun outcome houtcome => ?_
  cases outcome with
  | again state => exact returns_fetchLoop daemon _ houtcome
  | returned applicable res => exact .pure houtcome

/-! ## Scannable blocks -/

section Provides

variable {Γ : Ctx} {serde : SerdeJson} {json : JsonAnswers} {daemon : MoneroDaemon σ}

theorem returns_block (hash : Bytes 32) : Call.Returns Block.Readable ((daemon.jsonMethods json).block hash) := by
  refine Call.returns_propagate ?_ id
  exact .andThen fun blob => .ofExcept fun block => Blocks.readBlock_readable

theorem returns_expand {block : Block} (h : block.Readable) :
    Call.Returns UnvalidatedScannableBlock.Readable (expand Γ (daemon.jsonMethods json) daemon block) := by
  have htransactions : Call.Returns (fun transactions => ∀ tx ∈ transactions, PrunedTransactionWithPrunableHash.Readable tx)
      ((daemon.jsonMethods json).prunedTransactions block.transactions) :=
    fun s txs t htxs => (MoneroDaemon.prunedTransactions_ok htxs).2
  exact .bind (Call.returns_mapErr htransactions _) fun transactions hreadable => .andThen fun _ => .andThen fun _ => .pure ⟨h, hreadable⟩

theorem returns_scannableBlock (hash : Bytes 32) :
    Call.Returns UnvalidatedScannableBlock.Readable (scannableBlock Γ (daemon.jsonMethods json) daemon hash) :=
  .bind (returns_block hash) fun _ hblock => returns_expand hblock

theorem returns_scannableBlockByNumber (number : UInt64) :
    Call.Returns UnvalidatedScannableBlock.Readable (scannableBlockByNumber Γ (daemon.jsonMethods json) daemon number) :=
  .andThen fun hash => returns_scannableBlock hash

theorem returns_fetchOrFallBack (range : RangeInclusive) {res : List UnvalidatedScannableBlock} (hres : ∀ block ∈ res, block.Readable) :
    Call.Returns (fun blocks => ∀ block ∈ blocks, UnvalidatedScannableBlock.Readable block)
      (fetchOrFallBack Γ serde (daemon.jsonMethods json) daemon range res) := by
  refine .bind (returns_fetchContiguousBlocks daemon range hres) fun fetched hfetched => ?_
  obtain ⟨applicable, fetched⟩ := fetched
  cases applicable with
  | true => exact .pure hfetched
  | false =>
    refine .ite (fun _ => .throw _) fun _ => ?_
    split
    · exact .pure hfetched
    · refine .bind (Blocks.returns_contiguousBlocks serde daemon _) fun blocks hblocks => ?_
      refine .bind (.mapM fun block hblock => returns_expand (hblocks block hblock)) fun expanded hexpanded => .pure ?_
      intro block hmem
      rcases List.mem_append.1 hmem with hmem | hmem
      · exact hfetched block hmem
      · exact hexpanded block hmem

theorem returns_contiguousScannableBlocks (range : RangeInclusive) :
    Call.Returns (fun blocks => ∀ block ∈ blocks, UnvalidatedScannableBlock.Readable block)
      (contiguousScannableBlocks Γ serde (daemon.jsonMethods json) daemon range) := by
  refine .ite (fun _ => ?_) fun _ => returns_fetchOrFallBack range (by simp)
  refine .bind (returns_scannableBlockByNumber 0) fun genesis hgenesis => returns_fetchOrFallBack _ ?_
  intro block hmem
  rw [List.mem_singleton.1 hmem]
  exact hgenesis

end Provides

end BinRpc

end MoneroOxide
