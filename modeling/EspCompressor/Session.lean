import EspCompressor.Compressor
import EspCompressor.IoContracts
import EspCompressor.LzDecoder
import EspCompressor.LzEncoder

/-! What any run does with its sink, whatever the source, the heap and the cancel flag do:
the sink is left untouched, or it takes writes and then exactly one of commit and abort ends
them before it is closed. -/
namespace EspCompressor

/-- The bytes that one event put into the sink. -/
def IoEvent.written : IoEvent → List UInt8
  | .write bytes .ok => bytes
  | _ => []

/-- The answer of a commit. -/
def IoEvent.commits : IoEvent → List CompressionError
  | .commit e => [e]
  | _ => []

/-- The bytes that a trace put into the sink. -/
def written (trace : List IoEvent) : List UInt8 := trace.flatMap IoEvent.written

/-- The answers of the commits of a trace. -/
def commits (trace : List IoEvent) : List CompressionError := trace.flatMap IoEvent.commits

/-- The bytes that a trace published: those written, once they are committed. -/
def published (trace : List IoEvent) : Option (List UInt8) :=
  if .ok ∈ commits trace then some (written trace) else none

/-- The sink was opened. -/
def sinkOpened (trace : List IoEvent) : Bool := decide (IoEvent.sinkOpen .ok ∈ trace)

@[simp] theorem written_append (t t' : List IoEvent) : written (t ++ t') = written t ++ written t' :=
  List.flatMap_append
@[simp] theorem written_nil : written [] = [] := rfl
@[simp] theorem written_cons (e : IoEvent) (t : List IoEvent) :
    written (e :: t) = e.written ++ written t := rfl

@[simp] theorem commits_append (t t' : List IoEvent) : commits (t ++ t') = commits t ++ commits t' :=
  List.flatMap_append
@[simp] theorem commits_nil : commits [] = [] := rfl
@[simp] theorem commits_cons (e : IoEvent) (t : List IoEvent) :
    commits (e :: t) = e.commits ++ commits t := rfl

theorem sinkOpened_iff (t : List IoEvent) : sinkOpened t = true ↔ IoEvent.sinkOpen .ok ∈ t :=
  decide_eq_true_iff

/-- A sink that was opened and not committed, by the answers of its commits and the bytes that
were staged. -/
inductive Unfinished {κ : Type} (sink : CompressionSink κ) (k₀ : κ) :
    List CompressionError → List UInt8 → κ → Prop
  | staged {bytes : List UInt8} {k : κ} : Staged sink k₀ bytes k → Unfinished sink k₀ [] bytes k
  | writeFailed {bytes : List UInt8} {k : κ} (more : List UInt8) : Staged sink k₀ bytes k →
      (sink.write more k).1 ≠ .ok → Unfinished sink k₀ [] bytes (sink.write more k).2
  | commitFailed {bytes : List UInt8} {k : κ} : Staged sink k₀ bytes k →
      (sink.commit k).1 ≠ .ok → Unfinished sink k₀ [(sink.commit k).1] bytes (sink.commit k).2

/-- How a run that has returned leaves its sink: whether it was opened, the answers of its commits,
the bytes staged, the error returned, and the sink itself. -/
inductive SinkEnding {κ : Type} (sink : CompressionSink κ) (k₀ : κ) :
    Bool → List CompressionError → List UInt8 → CompressionError → κ → Prop
  | rejected {e : CompressionError} : e ≠ .ok → SinkEnding sink k₀ false [] [] e k₀
  | sourceFailed {e : CompressionError} : e ≠ .ok →
      SinkEnding sink k₀ false [] [] e (sink.close k₀)
  | openFailed {e : CompressionError} : e ≠ .ok → (sink.open' k₀).1 ≠ .ok →
      SinkEnding sink k₀ false [] [] e (sink.close (sink.open' k₀).2)
  | aborted {e : CompressionError} {cs : List CompressionError} {bytes : List UInt8} {k : κ} :
      e ≠ .ok → Unfinished sink k₀ cs bytes k →
      SinkEnding sink k₀ true cs bytes e (sink.close (sink.abort k))
  | committed {bytes : List UInt8} {k : κ} : Staged sink k₀ bytes k → (sink.commit k).1 = .ok →
      SinkEnding sink k₀ true [.ok] bytes .ok (sink.close (sink.commit k).2)

theorem SinkEnding.commits_ok_iff {κ : Type} {sink : CompressionSink κ} {k₀ k : κ} {opened : Bool}
    {cs : List CompressionError} {bytes : List UInt8} {e : CompressionError}
    (h : SinkEnding sink k₀ opened cs bytes e k) : .ok ∈ cs ↔ e = .ok := by
  cases h with
  | rejected he => simp [he]
  | sourceFailed he => simp [he]
  | openFailed he _ => simp [he]
  | aborted he hunfinished =>
    cases hunfinished with
    | staged _ => simp [he]
    | writeFailed _ _ _ => simp [he]
    | commitFailed _ hcommit => simpa [he] using hcommit.symm
  | committed _ _ => simp

/-- What a transactional sink promises: its destination stays, unless the session commits. -/
def Transactional {κ δ : Type} (sink : CompressionSink κ) (k₀ : κ) (destination : κ → δ) : Prop :=
  ∀ {opened cs bytes e k}, SinkEnding sink k₀ opened cs bytes e k → e ≠ .ok →
    destination k = destination k₀

namespace Compressor

variable {σ κ α β : Type} {sink : CompressionSink κ} {k₀ : κ}

/-- A session that is open and has not been committed. -/
structure Transfer (sink : CompressionSink κ) (k₀ : κ) (s : RunState σ κ) : Prop where
  opened : s.opened = true
  uncommitted : s.committed = false
  recorded : sinkOpened s.trace = true
  no_commit : commits s.trace = []
  staged : Staged sink k₀ (written s.trace) s.sink

/-- A session that returns an error before its commit has succeeded. -/
structure Abandoned (sink : CompressionSink κ) (k₀ : κ) (r : CompressionResult)
    (s : RunState σ κ) : Prop where
  error_ne : r.error ≠ .ok
  opened : s.opened = true
  uncommitted : s.committed = false
  recorded : sinkOpened s.trace = true
  unfinished : Unfinished sink k₀ (commits s.trace) (written s.trace) s.sink

/-- A session whose commit has succeeded. -/
structure Committed (sink : CompressionSink κ) (k₀ : κ) (s : RunState σ κ) : Prop where
  committed : s.committed = true
  recorded : sinkOpened s.trace = true
  commit_ok : commits s.trace = [.ok]
  staged : ∃ k, Staged sink k₀ (written s.trace) k ∧ (sink.commit k).1 = .ok ∧
    s.sink = (sink.commit k).2

theorem Transfer.abandoned {s : RunState σ κ} (h : Transfer sink k₀ s) {r : CompressionResult}
    (hr : r.error ≠ .ok) : Abandoned sink k₀ r s :=
  ⟨hr,h.opened,h.uncommitted,h.recorded,h.no_commit ▸ .staged h.staged⟩

theorem sinkOpened_append {t : List IoEvent} (h : sinkOpened t = true) (t' : List IoEvent) :
    sinkOpened (t ++ t') = true :=
  (sinkOpened_iff _).mpr (List.mem_append_left _ ((sinkOpened_iff _).mp h))

/-- Events that neither write nor commit leave a transfer as it is. -/
theorem Transfer.frame {s s' : RunState σ κ} (h : Transfer sink k₀ s) (e : IoEvent)
    (hsink : s'.sink = s.sink) (hopened : s'.opened = s.opened)
    (hcommitted : s'.committed = s.committed) (htrace : s'.trace = s.trace ++ [e])
    (hwritten : e.written = []) (hcommit : e.commits = []) : Transfer sink k₀ s' := by
  refine ⟨hopened.trans h.opened,hcommitted.trans h.uncommitted,?_,?_,?_⟩
  · rw [htrace]
    exact sinkOpened_append h.recorded _
  · rw [htrace,commits_append,commits_cons,hcommit,h.no_commit]
    rfl
  · rw [htrace,hsink,written_append,written_cons,hwritten]
    simpa using h.staged

/-- A statement of an open session. -/
def Transfers (sink : CompressionSink κ) (k₀ : κ) (m : Proc CompressionResult (RunState σ κ) α) : Prop :=
  ∀ s, Transfer sink k₀ s →
    Proc.wp m (fun _ => Transfer sink k₀) (Abandoned sink k₀) (Transfer sink k₀) s

section Rules

variable {m : Proc CompressionResult (RunState σ κ) α}

theorem Transfers.pure (a : α) :
    Transfers sink k₀ (Pure.pure a : Proc CompressionResult (RunState σ κ) α) := fun _ h => h

theorem Transfers.bind {f : α → Proc CompressionResult (RunState σ κ) β}
    (hm : Transfers sink k₀ m) (hf : ∀ a, Transfers sink k₀ (f a)) :
    Transfers sink k₀ (m >>= f) := fun s h => by
  rw [Proc.wp_bind]
  exact Proc.wp_mono (hm s h) (fun a s' h' => hf a s' h') (fun _ _ h' => h') fun _ h' => h'

theorem Transfers.ite {c : Prop} [Decidable c] {n : Proc CompressionResult (RunState σ κ) α}
    (hm : Transfers sink k₀ m) (hn : Transfers sink k₀ n) :
    Transfers sink k₀ (if c then m else n) := fun s h => by
  rw [Proc.wp_ite]
  exact ⟨fun _ => hm s h,fun _ => hn s h⟩

theorem Transfers.loop {body : α → Proc CompressionResult (RunState σ κ) (α ⊕ β)}
    (hbody : ∀ a, Transfers sink k₀ (body a)) (n : ℕ) (a : α) :
    Transfers sink k₀ (Proc.loop body n a) := fun s h => by
  refine Proc.wp_loop (I := fun _ => Transfer sink k₀) (fun a s h => ?_) (fun _ _ h => h) n a h
  refine Proc.wp_mono (hbody a s h) (fun c s' h' => ?_) (fun _ _ h' => h') fun _ h' => h'
  cases c <;> exact h'

theorem Transfers.returnIf {c : Prop} [Decidable c] {r : CompressionResult}
    (hr : c → r.error ≠ .ok) :
    Transfers sink k₀ (Proc.returnIf c r : Proc CompressionResult (RunState σ κ) Unit) := fun s h => by
  rw [Proc.wp_returnIf]
  exact ⟨fun hc => h.abandoned (hr hc),fun _ => h⟩

theorem Transfers.check (result : CompressionResult) (e : CompressionError) :
    Transfers sink k₀ (check result e : Proc CompressionResult (RunState σ κ) Unit) :=
  Transfers.returnIf fun h => h

theorem Transfers.get (f : RunState σ κ → α) :
    Transfers sink k₀ (Proc.get f : Proc CompressionResult (RunState σ κ) α) := fun _ h => h

/-- A query that is recorded, and changes no more than the source. -/
theorem Transfers.query {f : RunState σ κ → α × RunState σ κ} (e : RunState σ κ → IoEvent)
    (hsink : ∀ s, (f s).2.sink = s.sink) (hopened : ∀ s, (f s).2.opened = s.opened)
    (hcommitted : ∀ s, (f s).2.committed = s.committed)
    (htrace : ∀ s, (f s).2.trace = s.trace ++ [e s]) (hwritten : ∀ s, (e s).written = [])
    (hcommit : ∀ s, (e s).commits = []) :
    Transfers sink k₀ (Proc.lift f : Proc CompressionResult (RunState σ κ) α) := fun s h =>
  h.frame (e s) (hsink s) (hopened s) (hcommitted s) (htrace s) (hwritten s) (hcommit s)

end Rules

variable {source : CompressionSource σ}

/-- A statement that returns a bare error. -/
def Reads (sink : CompressionSink κ) (k₀ : κ) (m : Proc CompressionError (RunState σ κ) α) : Prop :=
  ∀ s, Transfer sink k₀ s → Proc.wp m (fun _ => Transfer sink k₀)
    (fun e s' => e ≠ .ok ∧ Transfer sink k₀ s') (Transfer sink k₀) s

theorem Transfer.read {s : RunState σ κ} (h : Transfer sink k₀ s) (capacity : ℕ) :
    Transfer sink k₀ { s with
      source := (source.read capacity s.source).2
      trace := s.trace ++ [.read capacity (source.read capacity s.source).1.err
        (source.read capacity s.source).1.data] } :=
  h.frame _ rfl rfl rfl rfl rfl rfl

theorem readSource_transfers (capacity : ℕ) :
    Transfers sink k₀ (readSource source capacity :
      Proc CompressionResult (RunState σ κ) (ReadResult capacity)) := fun _ h => h.read capacity

theorem sourceEof_transfers :
    Transfers sink k₀ (sourceEof source : Proc CompressionResult (RunState σ κ) Bool) :=
  Transfers.query (fun s => .eof (source.eof s.source).1) (fun _ => rfl) (fun _ => rfl)
    (fun _ => rfl) (fun _ => rfl) (fun _ => rfl) (fun _ => rfl)

theorem sourceHasKnownSize_transfers :
    Transfers sink k₀ (sourceHasKnownSize source : Proc CompressionResult (RunState σ κ) Bool) :=
  Transfers.query (fun s => .hasKnownSize (source.hasKnownSize s.source).1) (fun _ => rfl)
    (fun _ => rfl) (fun _ => rfl) (fun _ => rfl) (fun _ => rfl) (fun _ => rfl)

theorem sourceTotalSize_transfers :
    Transfers sink k₀ (sourceTotalSize source : Proc CompressionResult (RunState σ κ) UInt64) :=
  Transfers.query (fun s => .totalSize (source.totalSize s.source).1) (fun _ => rfl)
    (fun _ => rfl) (fun _ => rfl) (fun _ => rfl) (fun _ => rfl) (fun _ => rfl)

theorem shouldAbortForCancel_transfers (ctx : RunContext σ κ) (result : CompressionResult) :
    Transfers sink k₀ (shouldAbortForCancel ctx result) :=
  (Transfers.query (fun s => .cancelLoad (ctx.cancelRequested s.loads)) (fun _ => rfl)
    (fun _ => rfl) (fun _ => rfl) (fun _ => rfl) (fun _ => rfl) (fun _ => rfl)).bind
    fun _ => Transfers.returnIf fun _ => by simp

theorem emitProgress_transfers (progress : CompressionProgress) (result : CompressionResult)
    (done : Bool) : Transfers sink k₀ (emitProgress progress result done :
      Proc CompressionResult (RunState σ κ) CompressionProgress) :=
  Transfers.query (fun _ => .progress { progress with
    done := done, cancelled := decide (result.error = .cancelled) }) (fun _ => rfl)
    (fun _ => rfl) (fun _ => rfl) (fun _ => rfl) (fun _ => rfl) (fun _ => rfl)

theorem Transfer.withHeap {s : RunState σ κ} (h : Transfer sink k₀ s) (heap : Heap) :
    Transfer sink k₀ { s with heap := heap } :=
  ⟨h.opened,h.uncommitted,h.recorded,h.no_commit,h.staged⟩

theorem onBuffer_transfers (buffer : MemoryBuffer) (op : BufferState → Bool × BufferState) :
    Transfers sink k₀ (onBuffer buffer op :
      Proc CompressionResult (RunState σ κ) (Bool × MemoryBuffer)) := fun _ h => h.withHeap _

theorem callWith_transfers (buffer : MemoryBuffer)
    {f : Proc CompressionError BufferState CompressionError}
    (hf : ∀ t, Proc.wp f (fun _ _ => True) (fun _ _ => True) (fun _ => True) t) :
    Transfers sink k₀ (callWith buffer f :
      Proc CompressionResult (RunState σ κ) (CompressionError × BufferState)) := fun s h => by
  rw [callWith,Proc.wp_callOn]
  exact Proc.wp_mono (hf _) (fun _ t _ => h.withHeap t.heap) (fun _ t _ => h.withHeap t.heap)
    fun t _ => h.withHeap t.heap

theorem writeOrReturn_transfers (bytes : List UInt8) (result : CompressionResult) :
    Transfers sink k₀ (writeOrReturn sink result bytes :
      Proc CompressionResult (RunState σ κ) Unit) := fun s h => by
  simp only [writeOrReturn,Proc.wp_bind,writeSink,Proc.wp_lift,check,Proc.wp_returnIf]
  refine ⟨fun he => ⟨he,h.opened,h.uncommitted,sinkOpened_append h.recorded _,?_⟩,fun he => ?_⟩
  · have hnone : (IoEvent.write bytes (sink.write bytes s.sink).1).written = [] := by
      unfold IoEvent.written
      split
      · rename_i heq
        exact absurd (IoEvent.write.inj heq).2 he
      · rfl
    simp only [commits_append,commits_cons,written_append,written_cons,hnone,h.no_commit]
    simpa [IoEvent.commits] using Unfinished.writeFailed bytes h.staged he
  · have hok : (sink.write bytes s.sink).1 = .ok := not_not.mp he
    refine ⟨h.opened,h.uncommitted,sinkOpened_append h.recorded _,?_,?_⟩
    · simpa [IoEvent.commits] using h.no_commit
    · rw [hok]
      simpa [IoEvent.written] using h.staged.wrote bytes hok

theorem readExact_reads (size : ℕ) (processedBytes : UInt64) :
    Reads sink k₀ (readExact source size processedBytes :
      Proc CompressionError (RunState σ κ) (List UInt8 × UInt64)) := fun s h => by
  refine Proc.wp_loop (I := fun _ => Transfer sink k₀) (fun p s h => ?_) (fun _ _ h => h) _ _ h
  simp only [readRound,Proc.wp_ite,Proc.wp_bind,readSource,Proc.wp_lift,Proc.wp_returnIf,Proc.wp_pure]
  exact ⟨fun _ => ⟨fun he => ⟨he,h.read _⟩,fun _ => ⟨fun _ => ⟨by simp,h.read _⟩,
    fun _ => h.read _⟩⟩,fun _ => h⟩

theorem readOrReturn_transfers (ctx : RunContext σ κ) (result : CompressionResult) (size : ℕ)
    (processedBytes : UInt64) :
    Transfers sink k₀ (readOrReturn ctx result size processedBytes) := fun s h => by
  rw [readOrReturn,Proc.wp_mapReturn]
  exact Proc.wp_mono (readExact_reads size processedBytes s h) (fun _ _ h => h)
    (fun _ _ h => h.2.abandoned h.1) fun _ h => h

theorem startProgress_transfers (ctx : RunContext σ κ) :
    Transfers sink k₀ (startProgress ctx : Proc CompressionResult (RunState σ κ) _) :=
  sourceHasKnownSize_transfers.bind fun _ => sourceTotalSize_transfers.bind fun _ => Transfers.pure _

/-! ### Compression -/

theorem encodeEscHeader_safe (header : EscHeader) (t : BufferState) :
    Proc.wp (EscFormat.encodeEscHeader header) (fun _ _ => True) (fun _ _ => True) (fun _ => True) t :=
  Proc.wp_mono (EscFormat.encodeEscHeader_spec header t) (fun _ _ _ => trivial) (fun _ _ _ => trivial)
    fun _ _ => trivial

theorem compressLzLiteBlock_safe (input : List UInt8) (windowSize : ℕ) (t : BufferState) :
    Proc.wp (Codec.compressLzLiteBlock input windowSize) (fun _ _ => True) (fun _ _ => True)
      (fun _ => True) t :=
  Proc.wp_mono (Codec.compressLzLiteBlock_spec input windowSize t) (fun _ _ _ => trivial)
    (fun _ _ _ => trivial) fun _ _ => trivial

theorem decompressLzLiteBlock_safe (payload : List UInt8) (n : ℕ) (t : BufferState) :
    Proc.wp (Codec.decompressLzLiteBlock payload n) (fun _ _ => True) (fun _ _ => True)
      (fun _ => True) t :=
  Proc.wp_mono (Codec.decompressLzLiteBlock_spec payload n t) (fun _ _ _ => trivial)
    (fun _ _ _ => trivial) fun _ _ => trivial

variable (ctx : RunContext σ κ)

theorem writeFileHeader_transfers (result : CompressionResult) :
    Transfers ctx.sink k₀ (writeFileHeader ctx result) := by
  refine (sourceHasKnownSize_transfers.bind fun known => ?_).bind fun originalSize => ?_
  · exact Transfers.ite sourceTotalSize_transfers (Transfers.pure _)
  · exact sourceHasKnownSize_transfers.bind fun known =>
      (callWith_transfers _ (encodeEscHeader_safe _)).bind fun encoded =>
      (Transfers.check _ _).bind fun _ => writeOrReturn_transfers _ _

theorem compressChunk_transfers (v : CompressVars) (readBytes : ℕ) :
    Transfers ctx.sink k₀ (compressChunk ctx v readBytes) :=
  (callWith_transfers _ (compressLzLiteBlock_safe _ _)).bind fun _ =>
    (Transfers.check _ _).bind fun _ => sourceEof_transfers.bind fun _ =>
    (Transfers.check _ _).bind fun _ => (writeOrReturn_transfers _ _).bind fun _ => (writeOrReturn_transfers _ _).bind fun _ =>
    (Transfers.get _).bind fun _ => (emitProgress_transfers _ _ _).bind fun _ => Transfers.pure _

theorem compressRound_transfers (v : CompressVars) :
    Transfers ctx.sink k₀ (compressRound ctx v) :=
  (shouldAbortForCancel_transfers ctx _).bind fun _ => (readSource_transfers _).bind fun _ =>
    (Transfers.check _ _).bind fun _ => Transfers.ite
      (sourceEof_transfers.bind fun _ => (Transfers.returnIf fun _ => by simp).bind fun _ =>
        Transfers.pure _)
      (compressChunk_transfers ctx _ _)

theorem writeTerminator_transfers (v : CompressVars) :
    Transfers ctx.sink k₀ (writeTerminator ctx v) :=
  Transfers.ite ((Transfers.check _ _).bind fun _ => (writeOrReturn_transfers _ _).bind fun _ =>
    (Transfers.get _).bind fun _ => Transfers.pure _) (Transfers.pure _)

/-! ### Decompression -/

theorem readFileHeader_transfers (result : CompressionResult) :
    Transfers ctx.sink k₀ (readFileHeader ctx result) :=
  (readOrReturn_transfers ctx _ _ _).bind fun _ => (Transfers.check _ _).bind fun _ =>
    (Transfers.returnIf fun _ => by simp).bind fun _ =>
    (Transfers.returnIf fun _ => by simp).bind fun _ =>
    (Transfers.returnIf fun _ => by simp).bind fun _ => Transfers.pure _

theorem writeRawBlock_transfers (v : DecompressVars) (blockHeader : EscBlockHeader) :
    Transfers ctx.sink k₀ (writeRawBlock ctx v blockHeader) :=
  (Transfers.returnIf fun _ => by simp).bind fun _ =>
    (Transfers.returnIf fun _ => by simp).bind fun _ =>
    (writeOrReturn_transfers _ _).bind fun _ => Transfers.pure _

theorem writeLzBlock_transfers (v : DecompressVars) (blockHeader : EscBlockHeader) :
    Transfers ctx.sink k₀ (writeLzBlock ctx v blockHeader) :=
  (callWith_transfers _ (decompressLzLiteBlock_safe _ _)).bind fun _ =>
    (Transfers.check _ _).bind fun _ => (Transfers.returnIf fun _ => by simp).bind fun _ =>
    (writeOrReturn_transfers _ _).bind fun _ => Transfers.pure _

theorem writeBlock_transfers (v : DecompressVars) (blockHeader : EscBlockHeader) :
    Transfers ctx.sink k₀ (writeBlock ctx v blockHeader) :=
  Transfers.ite (writeRawBlock_transfers ctx v blockHeader) (writeLzBlock_transfers ctx v blockHeader)

theorem readPayload_transfers (v : DecompressVars) (storedSize : ℕ) :
    Transfers ctx.sink k₀ (readPayload ctx v storedSize) :=
  (onBuffer_transfers _ _).bind fun _ => (Transfers.returnIf fun _ => by simp).bind fun _ =>
    Transfers.ite ((readOrReturn_transfers ctx _ _ _).bind fun _ => Transfers.pure _)
      (Transfers.pure _)

theorem decompressRound_transfers (header : EscHeader) (v : DecompressVars) :
    Transfers ctx.sink k₀ (decompressRound ctx header v) :=
  (shouldAbortForCancel_transfers ctx _).bind fun _ => (readOrReturn_transfers ctx _ _ _).bind fun _ =>
    (Transfers.check _ _).bind fun _ => (Transfers.returnIf fun _ => by simp).bind fun _ =>
    (readPayload_transfers ctx _ _).bind fun _ =>
    (writeBlock_transfers ctx _ _).bind fun _ =>
    (emitProgress_transfers _ _ _).bind fun _ => Transfers.pure _

/-! ### Whole runs -/

/-- The body of a session: it commits and returns `Ok`, or it returns an error before that. -/
def Closes (sink : CompressionSink κ) (k₀ : κ)
    (m : Proc CompressionResult (RunState σ κ) CompressionResult) : Prop :=
  ∀ s, Transfer sink k₀ s → Proc.wp m (fun r s' => r.error = .ok ∧ Committed sink k₀ s')
    (Abandoned sink k₀) (Transfer sink k₀) s

theorem Transfers.bind_closes {m : Proc CompressionResult (RunState σ κ) α}
    {f : α → Proc CompressionResult (RunState σ κ) CompressionResult}
    (hm : Transfers sink k₀ m) (hf : ∀ a, Closes sink k₀ (f a)) : Closes sink k₀ (m >>= f) :=
  fun s h => by
    rw [Proc.wp_bind]
    exact Proc.wp_mono (hm s h) (fun a s' h' => hf a s' h') (fun _ _ h' => h') fun _ h' => h'

/-- Commit and what follows it: the session is committed, and nothing undoes that. -/
theorem commitSession_closes {f : CompressionResult → Proc CompressionResult (RunState σ κ) CompressionResult}
    (result : CompressionResult)
    (hf : ∀ r s, r.error = .ok → Committed ctx.sink k₀ s →
      Proc.wp (f r) (fun r' s' => r'.error = .ok ∧ Committed ctx.sink k₀ s') (fun _ _ => False)
        (fun _ => False) s) :
    Closes ctx.sink k₀ (commitSession ctx result >>= f) := fun s h => by
  simp only [commitSession,Proc.wp_bind,commitSink,Proc.wp_lift,check,Proc.wp_returnIf,Proc.wp_modify,
    Proc.wp_pure]
  refine ⟨fun he => ⟨he,h.opened,h.uncommitted,sinkOpened_append h.recorded _,?_⟩,fun he => ?_⟩
  · simpa [IoEvent.commits,IoEvent.written,h.no_commit] using Unfinished.commitFailed h.staged he
  · have hok : (ctx.sink.commit s.sink).1 = .ok := not_not.mp he
    refine Proc.wp_mono (hf _ _ hok ⟨rfl,sinkOpened_append h.recorded _,?_,s.sink,?_,hok,rfl⟩)
      (fun _ _ h => h) (fun _ _ h => h.elim) fun _ h => h.elim
    · simp [IoEvent.commits,hok,h.no_commit]
    · simpa [IoEvent.written] using h.staged

theorem Committed.report {s : RunState σ κ} (h : Committed sink k₀ s) (report : CompressionProgress) :
    Committed sink k₀ { s with trace := s.trace ++ [.progress report] } := by
  obtain ⟨k,hk⟩ := h.staged
  exact ⟨h.committed,sinkOpened_append h.recorded _,by simpa [IoEvent.commits] using h.commit_ok,k,
    by simpa [IoEvent.written] using hk⟩

theorem compressSession_closes (result : CompressionResult) (fuel : ℕ) :
    Closes ctx.sink k₀ (compressSession ctx result fuel) :=
  (onBuffer_transfers _ _).bind_closes fun _ =>
    (Transfers.returnIf fun _ => by simp).bind_closes fun _ =>
    (writeFileHeader_transfers ctx _).bind_closes fun _ =>
    (startProgress_transfers ctx).bind_closes fun _ => (Transfers.get _).bind_closes fun _ =>
    (Transfers.loop (compressRound_transfers ctx) _ _).bind_closes fun _ =>
    (writeTerminator_transfers ctx _).bind_closes fun _ =>
    (shouldAbortForCancel_transfers ctx _).bind_closes fun _ =>
    commitSession_closes ctx _ fun _ _ hr h => ⟨hr,h.report _⟩

theorem decompressSession_closes (result : CompressionResult) (fuel : ℕ) :
    Closes ctx.sink k₀ (decompressSession ctx result fuel) :=
  (readFileHeader_transfers ctx _).bind_closes fun _ =>
    (startProgress_transfers ctx).bind_closes fun _ =>
    (Transfers.loop (decompressRound_transfers ctx _) _ _).bind_closes fun _ =>
    (Transfers.returnIf fun _ => by simp).bind_closes fun _ =>
    (shouldAbortForCancel_transfers ctx _).bind_closes fun _ =>
    commitSession_closes ctx _ fun _ _ hr h => ⟨hr,h.report _⟩

/-- How a whole run ends. -/
def EndsSession (s₀ : RunState σ κ) (r : CompressionResult) (s : RunState σ κ) : Prop :=
  SinkEnding ctx.sink s₀.sink (sinkOpened s.trace) (commits s.trace) (written s.trace) r.error s.sink

theorem Abandoned.ends {s₀ : RunState σ κ} {r : CompressionResult} {s : RunState σ κ}
    (h : Abandoned ctx.sink s₀.sink r s) : EndsSession ctx s₀ r (destroySession ctx s) := by
  unfold EndsSession destroySession
  simp only [h.opened,h.uncommitted,Bool.not_false,Bool.and_self,if_true]
  rw [sinkOpened_append (sinkOpened_append h.recorded _)]
  simpa [IoEvent.commits,IoEvent.written] using SinkEnding.aborted h.error_ne h.unfinished

theorem Committed.ends {s₀ : RunState σ κ} {r : CompressionResult} {s : RunState σ κ}
    (hr : r.error = .ok) (h : Committed ctx.sink s₀.sink s) :
    EndsSession ctx s₀ r (destroySession ctx s) := by
  obtain ⟨k,hstaged,hcommit,hsink⟩ := h.staged
  unfold EndsSession destroySession
  simp only [h.committed,Bool.not_true,Bool.and_false,Bool.false_eq_true,if_false,hsink,hr]
  rw [sinkOpened_append h.recorded]
  simpa [IoEvent.commits,IoEvent.written,h.commit_ok] using SinkEnding.committed hstaged hcommit

/-- A session around a body that closes. -/
theorem session_ends {m : Proc CompressionResult (RunState σ κ) CompressionResult} {source : σ}
    {heap : Heap} (hm : Closes ctx.sink k₀ m) (result : CompressionResult) :
    Proc.wp (Proc.destroying (destroySession ctx) (do openSession ctx result; m))
      (EndsSession ctx (.start source k₀ heap)) (EndsSession ctx (.start source k₀ heap))
      (Transfer ctx.sink k₀) (.start source k₀ heap) := by
  simp only [Proc.wp_destroying,openSession,openSource,openSink,Proc.wp_bind,Proc.wp_lift,check,
    Proc.wp_returnIf,Proc.wp_modify]
  refine ⟨fun he => ?_,fun _ => ⟨fun he => ?_,fun he => ?_⟩⟩
  · exact .sourceFailed he
  · have hunopened : sinkOpened [.sourceOpen (ctx.source.open' source).1,
        .sinkOpen (ctx.sink.open' k₀).1,.sinkClose,.sourceClose] = false := by
      simpa [sinkOpened] using fun h => he h.symm
    have h := SinkEnding.openFailed he he
    rw [← hunopened] at h
    exact h
  · have hok : (ctx.sink.open' k₀).1 = .ok := not_not.mp he
    refine Proc.wp_mono (hm _ ⟨rfl,rfl,by simp [RunState.start,sinkOpened,hok],rfl,?_⟩)
      (fun r s h => h.2.ends ctx h.1) (fun r s h => h.ends ctx) fun _ h => h
    simpa [RunState.start,IoEvent.written] using Staged.opened hok

theorem runCompress_ends (fuel : ℕ) (source : σ) (heap : Heap) :
    Proc.wp (runCompress ctx fuel) (EndsSession ctx (.start source k₀ heap))
      (EndsSession ctx (.start source k₀ heap)) (Transfer ctx.sink k₀) (.start source k₀ heap) := by
  unfold runCompress requireTransactional
  simp only [Proc.wp_bind,Proc.wp_returnIf,Proc.wp_get]
  exact ⟨fun _ => .rejected (by simp),fun _ => ⟨fun _ => .rejected (by simp),fun _ =>
    session_ends ctx (compressSession_closes ctx _ fuel) _⟩⟩

theorem runDecompress_ends (fuel : ℕ) (source : σ) (heap : Heap) :
    Proc.wp (runDecompress ctx fuel) (EndsSession ctx (.start source k₀ heap))
      (EndsSession ctx (.start source k₀ heap)) (Transfer ctx.sink k₀) (.start source k₀ heap) := by
  unfold runDecompress runDecompressBy requireTransactional
  simp only [Proc.wp_bind,Proc.wp_returnIf,Proc.wp_get]
  exact ⟨fun _ => .rejected (by simp),fun _ =>
    session_ends ctx (decompressSession_closes ctx _ fuel) _⟩

/-- Every job ends its session in one of the ways of `SinkEnding`. -/
theorem runSyncJob_ends (fuel : ℕ) (source : σ) (heap : Heap) :
    Proc.wp (runSyncJob ctx fuel) (EndsSession ctx (.start source k₀ heap))
      (EndsSession ctx (.start source k₀ heap)) (Transfer ctx.sink k₀) (.start source k₀ heap) := by
  unfold runSyncJob runSyncJobBy
  cases ctx.operation with
  | compress => exact runCompress_ends ctx fuel source heap
  | decompress => exact runDecompress_ends ctx fuel source heap

end Compressor
end EspCompressor
