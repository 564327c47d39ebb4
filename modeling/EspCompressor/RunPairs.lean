import EspCompressor.Compressor
import EspCompressor.Lockstep

/-! Two runs in lockstep, with sinks and cancel flags that may differ: what their calls do to a pair
of states carries over to whole sessions. -/
namespace EspCompressor

/-- A call to the source that has worked, a query, or a report. -/
def IoEvent.Asks : IoEvent → Prop
  | .read _ e _ => e = .ok
  | .eof _ => True
  | .hasKnownSize _ => True
  | .totalSize _ => True
  | .progress _ => True
  | _ => False

/-- The same job with another sink and another cancel flag. -/
abbrev RunContext.withSink {σ κ κ' : Type} (ctx : RunContext σ κ) (sink : CompressionSink κ')
    (cancelRequested : ℕ → Bool) : RunContext σ κ' where
  config := ctx.config
  operation := ctx.operation
  source := ctx.source
  sink := sink
  options := ctx.options
  cancelRequested := cancelRequested

/-- The state after a call to the source, or a report. -/
def RunState.asked {σ κ : Type} (s : RunState σ κ) (source : σ) (e : IoEvent) : RunState σ κ :=
  { s with source := source, trace := s.trace ++ [e] }

namespace Compressor

variable {σ κ κ' α β : Type}

/-- The ways out of two sessions: `Ret` when both return, `Stop` when only the first one does. The
second one only adds to its trace. -/
def sessionExits (R : RunState σ κ → RunState σ κ' → Prop)
    (Ret Stop : CompressionResult → RunState σ κ → RunState σ κ' → Prop) :
    Proc.Exits CompressionResult (RunState σ κ) (RunState σ κ') where
  returns := Ret
  waits := R
  stops := Stop
  later t t' := t.trace <+: t'.trace

instance {R : RunState σ κ → RunState σ κ' → Prop}
    {Ret Stop : CompressionResult → RunState σ κ → RunState σ κ' → Prop} :
    IsPreorder (RunState σ κ') (sessionExits R Ret Stop).later where
  refl t := List.prefix_refl t.trace
  trans _ _ _ h h' := h.trans h'

/-- What a call leaves: related states, or states in which only an error can be returned. -/
def AfterCall (R : RunState σ κ → RunState σ κ' → Prop)
    (Ret : CompressionResult → RunState σ κ → RunState σ κ' → Prop) (e : CompressionError)
    (s : RunState σ κ) (t : RunState σ κ') : Prop :=
  (e = .ok → R s t) ∧ (e ≠ .ok → ∀ r : CompressionResult, r.error ≠ .ok → Ret r s t)

/-- The check after a call. -/
theorem check_afterCall {E : Proc.Exits CompressionResult (RunState σ κ) (RunState σ κ')}
    [IsPreorder _ E.later] {R' : RunState σ κ → RunState σ κ' → Prop} (result : CompressionResult)
    (e : CompressionError) :
    Proc.Lockstep E (AfterCall R' E.returns e) (check result e) (check result e)
      fun _ s t => R' s t ∧ e = .ok :=
  (Proc.Lockstep.returnIf fun hfailed _ _ hcall => hcall.2 hfailed _ hfailed).mono (fun _ _ hcall => hcall)
    fun _ _ _ hcall => ⟨hcall.1.1 (not_not.mp hcall.2),not_not.mp hcall.2⟩

/-- A call with its check, and what comes after it. -/
theorem call_then {E : Proc.Exits CompressionResult (RunState σ κ) (RunState σ κ')} [IsPreorder _ E.later]
    {P R : RunState σ κ → RunState σ κ' → Prop} {Q : β → RunState σ κ → RunState σ κ' → Prop}
    (err : α → CompressionError) (result : CompressionResult) {f : RunState σ κ → α × RunState σ κ}
    {g : RunState σ κ' → α × RunState σ κ'} {m : α → Proc CompressionResult (RunState σ κ) β}
    {n : α → Proc CompressionResult (RunState σ κ') β} (hlater : ∀ t, E.later t (g t).2)
    (hcall : ∀ s t, P s t → (f s).1 = (g t).1 ∧ AfterCall R E.returns (err (g t).1) (f s).2 (g t).2)
    (hrest : ∀ a, Proc.Lockstep E (fun s t => R s t ∧ err a = .ok) (m a) (n a) Q) :
    Proc.Lockstep E P
      (do
        let a ← Proc.lift f
        check result (err a)
        m a)
      (do
        let a ← Proc.lift g
        check result (err a)
        n a) Q :=
  Proc.Lockstep.bind (.lift hlater hcall) fun a => (check_afterCall result (err a)).bind fun _ => hrest a

/-- A write that is answered alike. -/
theorem writeOrReturn_alike {E : Proc.Exits CompressionResult (RunState σ κ) (RunState σ κ')}
    [IsPreorder _ E.later] {sink : CompressionSink κ} {sink' : CompressionSink κ'}
    {P R' : RunState σ κ → RunState σ κ' → Prop} (result : CompressionResult) (bytes : List UInt8)
    (hlater : ∀ t t', t.trace <+: t'.trace → E.later t t')
    (hcall : ∀ s t, P s t → (sink.write bytes s.sink).1 = (sink'.write bytes t.sink).1 ∧
      AfterCall R' E.returns (sink'.write bytes t.sink).1
        { s with
          sink := (sink.write bytes s.sink).2
          trace := s.trace ++ [.write bytes (sink.write bytes s.sink).1] }
        { t with
          sink := (sink'.write bytes t.sink).2
          trace := t.trace ++ [.write bytes (sink'.write bytes t.sink).1] }) :
    Proc.Lockstep E P (writeOrReturn sink result bytes) (writeOrReturn sink' result bytes) fun _ => R' :=
  Proc.Lockstep.bind (.lift (fun _ => hlater _ _ (List.prefix_append _ _)) hcall) fun e =>
    (check_afterCall result e).mono (fun _ _ h => h) fun _ _ _ h => h.1

/-- A commit that is answered alike. -/
theorem commitSession_alike {E : Proc.Exits CompressionResult (RunState σ κ) (RunState σ κ')}
    [IsPreorder _ E.later] {ctx : RunContext σ κ} {ctx' : RunContext σ κ'}
    {K C : RunState σ κ → RunState σ κ' → Prop} (result : CompressionResult)
    (hlater : ∀ t t', t.trace <+: t'.trace → E.later t t')
    (hcall : ∀ s t, K s t → (ctx.sink.commit s.sink).1 = (ctx'.sink.commit t.sink).1 ∧
      AfterCall (fun s t => C { s with committed := true } { t with committed := true }) E.returns
        (ctx'.sink.commit t.sink).1
        { s with
          sink := (ctx.sink.commit s.sink).2
          trace := s.trace ++ [.commit (ctx.sink.commit s.sink).1] }
        { t with
          sink := (ctx'.sink.commit t.sink).2
          trace := t.trace ++ [.commit (ctx'.sink.commit t.sink).1] }) :
    Proc.Lockstep E K (commitSession ctx result) (commitSession ctx' result)
      fun r s t => r.error = .ok ∧ C s t := by
  refine call_then id result (fun t => hlater _ _ (List.prefix_append _ _)) hcall fun e => ?_
  refine Proc.Lockstep.bind (Q := fun _ s t => C s t ∧ e = .ok)
    (.modify (fun t => hlater _ _ (List.prefix_refl _)) fun _ _ h => h) fun _ => .pure fun _ _ h => ⟨h.2,h.1⟩

/-- What the calls of two sessions do: `R` holds while they are open, `K` right after the cancel flag
was found clear, and `C` once they are committed. -/
structure Coupled (ctx : RunContext σ κ) (sink' : CompressionSink κ') (cancelRequested' : ℕ → Bool)
    (R K C : RunState σ κ → RunState σ κ' → Prop)
    (Ret Stop : CompressionResult → RunState σ κ → RunState σ κ' → Prop) : Prop where
  source_eq : ∀ {s t}, R s t → s.source = t.source
  heap_eq : ∀ {s t}, R s t → s.heap = t.heap
  bytesWritten_eq : ∀ {s t}, R s t ∨ C s t →
    ctx.sink.bytesWritten s.sink = sink'.bytesWritten t.sink
  returns : ∀ {s t}, R s t → ∀ {r : CompressionResult}, r.error ≠ .ok → Ret r s t
  asks : ∀ {s t}, R s t → ∀ source {e : IoEvent}, e.Asks → R (s.asked source e) (t.asked source e)
  readFails : ∀ {s t}, R s t → ∀ source n {e} data, e ≠ .ok → ∀ {r : CompressionResult},
    r.error ≠ .ok → Ret r (s.asked source (.read n e data)) (t.asked source (.read n e data))
  allocates : ∀ {s t}, R s t → ∀ heap, R { s with heap := heap } { t with heap := heap }
  cancels : ∀ r, Proc.Lockstep (sessionExits R Ret Stop) R (shouldAbortForCancel ctx r)
    (shouldAbortForCancel (ctx.withSink sink' cancelRequested') r) fun _ => K
  checked : ∀ {s t}, K s t → R s t
  writes : ∀ r bytes, Proc.Lockstep (sessionExits R Ret Stop) R (writeOrReturn ctx.sink r bytes)
    (writeOrReturn sink' r bytes) fun _ => R
  commits : ∀ r, Proc.Lockstep (sessionExits R Ret Stop) K (commitSession ctx r)
    (commitSession (ctx.withSink sink' cancelRequested') r) fun r' s t => r'.error = .ok ∧ C s t
  reports : ∀ {s t}, C s t → ∀ report,
    C (s.asked s.source (.progress report)) (t.asked t.source (.progress report))

namespace Coupled

variable {ctx : RunContext σ κ} {sink' : CompressionSink κ'} {cancelRequested' : ℕ → Bool}
  {R K C : RunState σ κ → RunState σ κ' → Prop}
  {Ret Stop : CompressionResult → RunState σ κ → RunState σ κ' → Prop}

/-- Statements of the two open sessions, from related states to related states. -/
def Walks (_ : Coupled ctx sink' cancelRequested' R K C Ret Stop)
    (m : Proc CompressionResult (RunState σ κ) α) (n : Proc CompressionResult (RunState σ κ') α) : Prop :=
  Proc.Lockstep (sessionExits R Ret Stop) R m n fun _ => R

variable (h : Coupled ctx sink' cancelRequested' R K C Ret Stop)

include h

theorem pure (a : α) : h.Walks (Pure.pure a) (Pure.pure a) := .pure fun _ _ hR => hR

theorem bind {m : Proc CompressionResult (RunState σ κ) α} {n : Proc CompressionResult (RunState σ κ') α}
    {f : α → Proc CompressionResult (RunState σ κ) β} {g : α → Proc CompressionResult (RunState σ κ') β}
    (hm : h.Walks m n) (hf : ∀ a, h.Walks (f a) (g a)) : h.Walks (m >>= f) (n >>= g) :=
  Proc.Lockstep.bind hm hf

theorem ite {c : Prop} [Decidable c] {m m' : Proc CompressionResult (RunState σ κ) α}
    {n n' : Proc CompressionResult (RunState σ κ') α} (hm : h.Walks m n) (hm' : h.Walks m' n') :
    h.Walks (if c then m else m') (if c then n else n') := .ite (fun _ => hm) fun _ => hm'

theorem returnIf {c : Prop} [Decidable c] {r : CompressionResult} (hr : c → r.error ≠ .ok) :
    h.Walks (Proc.returnIf c r) (Proc.returnIf c r) :=
  (Proc.Lockstep.returnIf fun hc _ _ hR => h.returns hR (hr hc)).mono (fun _ _ hR => hR)
    fun _ _ _ hR => hR.1

theorem check (result : CompressionResult) (e : CompressionError) :
    h.Walks (check result e) (check result e) := h.returnIf fun he => he

theorem loop {body : α → Proc CompressionResult (RunState σ κ) (α ⊕ β)}
    {body' : α → Proc CompressionResult (RunState σ κ') (α ⊕ β)} (hbody : ∀ a, h.Walks (body a) (body' a))
    (n : ℕ) (a : α) : h.Walks (Proc.loop body n a) (Proc.loop body' n a) :=
  .loop (fun a => (hbody a).mono (fun _ _ hR => hR) fun c _ _ hR => by cases c <;> exact hR)
    (fun _ _ _ hR => hR) n a

theorem shouldAbortForCancel (result : CompressionResult) : h.Walks (shouldAbortForCancel ctx result)
    (shouldAbortForCancel (ctx.withSink sink' cancelRequested') result) :=
  (h.cancels result).mono (fun _ _ hR => hR) fun _ _ _ => h.checked

/-- A query of the source. -/
theorem query (f : σ → α × σ) (e : α → IoEvent) (he : ∀ a, (e a).Asks) :
    h.Walks (Proc.lift fun s => ((f s.source).1,s.asked (f s.source).2 (e (f s.source).1)))
      (Proc.lift fun t => ((f t.source).1,t.asked (f t.source).2 (e (f t.source).1))) :=
  .lift (fun _ => List.prefix_append _ _) fun s t hR => by
    rw [h.source_eq hR]
    exact ⟨rfl,h.asks hR _ (he _)⟩

theorem sourceEof : h.Walks (sourceEof ctx.source) (sourceEof ctx.source) :=
  h.query ctx.source.eof .eof fun _ => trivial

theorem sourceHasKnownSize : h.Walks (sourceHasKnownSize ctx.source) (sourceHasKnownSize ctx.source) :=
  h.query ctx.source.hasKnownSize .hasKnownSize fun _ => trivial

theorem sourceTotalSize : h.Walks (sourceTotalSize ctx.source) (sourceTotalSize ctx.source) :=
  h.query ctx.source.totalSize .totalSize fun _ => trivial

theorem reported {s : RunState σ κ} {t : RunState σ κ'} (hR : R s t) (report : CompressionProgress) :
    R (s.asked s.source (.progress report)) (t.asked t.source (.progress report)) := by
  have hsource := h.source_eq hR
  rw [hsource]
  exact h.asks hR t.source (show (IoEvent.progress report).Asks from trivial)

theorem emitProgress (progress : CompressionProgress) (result : CompressionResult) (done : Bool) :
    h.Walks (emitProgress progress result done) (emitProgress progress result done) :=
  .lift (fun _ => List.prefix_append _ _) fun _ _ hR => ⟨rfl,h.reported hR _⟩

theorem sinkBytesWritten : h.Walks (sinkBytesWritten ctx.sink) (sinkBytesWritten sink') :=
  .get fun _ _ hR => ⟨h.bytesWritten_eq (.inl hR),hR⟩

theorem onBuffer (buffer : MemoryBuffer) (op : BufferState → Bool × BufferState) :
    h.Walks (onBuffer buffer op) (onBuffer buffer op) :=
  .lift (fun _ => List.prefix_refl _) fun s t hR => by
    rw [h.heap_eq hR]
    exact ⟨rfl,h.allocates hR _⟩

theorem callWith (buffer : MemoryBuffer) (f : Proc CompressionError BufferState CompressionError) :
    h.Walks (callWith buffer f) (callWith buffer f) :=
  .callOn f (fun _ _ => List.prefix_refl _) (fun s t hR => by rw [h.heap_eq hR])
    (fun u _ _ hR _ => h.allocates hR u.heap) fun u _ _ hR => h.allocates hR u.heap

theorem afterRead (capacity : ℕ) {s : RunState σ κ} {t : RunState σ κ'} (hR : R s t) :
    AfterCall R Ret (ctx.source.read capacity t.source).1.err
      (s.asked (ctx.source.read capacity t.source).2 (.read capacity
        (ctx.source.read capacity t.source).1.err (ctx.source.read capacity t.source).1.data))
      (t.asked (ctx.source.read capacity t.source).2 (.read capacity
        (ctx.source.read capacity t.source).1.err (ctx.source.read capacity t.source).1.data)) :=
  ⟨fun hok => h.asks hR _ hok,fun hfailed _ hr => h.readFails hR _ _ _ hfailed hr⟩

/-- Reading, and going on if that has worked. -/
theorem readSource {capacity : ℕ} (result : CompressionResult)
    {f : ReadResult capacity → Proc CompressionResult (RunState σ κ) α}
    {g : ReadResult capacity → Proc CompressionResult (RunState σ κ') α}
    (hf : ∀ r, h.Walks (f r) (g r)) :
    h.Walks (do
        let r ← readSource ctx.source capacity
        Compressor.check result r.err
        f r)
      (do
        let r ← readSource ctx.source capacity
        Compressor.check result r.err
        g r) := by
  refine call_then (fun r : ReadResult capacity => r.err) result (fun _ => List.prefix_append _ _)
    (fun s t hR => ?_) fun r => (hf r).mono (fun _ _ hread => hread.1) fun _ _ _ hR => hR
  rw [h.source_eq hR]
  exact ⟨rfl,h.afterRead capacity hR⟩

theorem readOrReturn (result : CompressionResult) (size : ℕ) (processedBytes : UInt64) :
    h.Walks (readOrReturn ctx result size processedBytes)
      (readOrReturn (ctx.withSink sink' cancelRequested') result size processedBytes) := by
  refine .mapReturn (.loop (I := fun _ => R) (Q := fun _ => R) (fun p => ?_) (fun _ _ _ hR => hR)
    (size + 1) ([],processedBytes))
  unfold readRound
  refine .ite (fun _ => ?_) fun _ => .pure fun _ _ hR => hR
  refine Proc.Lockstep.bind (Q := fun r => AfterCall R Ret r.err)
    (.lift (fun _ => List.prefix_append _ _) fun s t hR => ?_) fun r => ?_
  · rw [h.source_eq hR]
    exact ⟨rfl,h.afterRead _ hR⟩
  · refine Proc.Lockstep.bind (.returnIf fun hfailed s t hread => hread.2 hfailed _ hfailed) fun _ => ?_
    refine Proc.Lockstep.bind (.returnIf fun _ s t hread => ?_) fun _ => .pure fun s t hread => ?_
    · exact h.returns (hread.1.1 (not_not.mp hread.2)) (by simp)
    · exact hread.1.1.1 (not_not.mp hread.1.2)

theorem startProgress : h.Walks (startProgress ctx)
    (startProgress (ctx.withSink sink' cancelRequested')) :=
  h.bind h.sourceHasKnownSize fun _ => h.bind h.sourceTotalSize fun _ => h.pure _

/-! ### Compression -/

theorem writeFileHeader (result : CompressionResult) : h.Walks (writeFileHeader ctx result)
    (writeFileHeader (ctx.withSink sink' cancelRequested') result) :=
  h.bind (h.bind h.sourceHasKnownSize fun _ => h.ite h.sourceTotalSize (h.pure _)) fun _ =>
    h.bind h.sourceHasKnownSize fun _ => h.bind (h.callWith _ _) fun _ =>
    h.bind (h.check _ _) fun _ => h.writes _ _

theorem compressChunk (v : CompressVars) (readBytes : ℕ) : h.Walks (compressChunk ctx v readBytes)
    (compressChunk (ctx.withSink sink' cancelRequested') v readBytes) :=
  h.bind (h.callWith _ _) fun _ => h.bind (h.check _ _) fun _ => h.bind h.sourceEof fun _ =>
    h.bind (h.check _ _) fun _ => h.bind (h.writes _ _) fun _ => h.bind (h.writes _ _) fun _ =>
    h.bind h.sinkBytesWritten fun _ => h.bind (h.emitProgress _ _ _) fun _ => h.pure _

theorem endOfInput (v : CompressVars) : h.Walks (endOfInput ctx v)
    (endOfInput (ctx.withSink sink' cancelRequested') v) :=
  h.bind h.sourceEof fun _ => h.bind (h.returnIf fun _ => by simp) fun _ => h.pure _

theorem compressRound (v : CompressVars) : h.Walks (compressRound ctx v)
    (compressRound (ctx.withSink sink' cancelRequested') v) :=
  h.bind (h.shouldAbortForCancel _) fun _ => h.readSource _ fun _ => h.ite (h.endOfInput _) (h.compressChunk _ _)

theorem writeTerminator (v : CompressVars) : h.Walks (writeTerminator ctx v)
    (writeTerminator (ctx.withSink sink' cancelRequested') v) :=
  h.ite (h.bind (h.check _ _) fun _ => h.bind (h.writes _ _) fun _ => h.bind h.sinkBytesWritten fun _ =>
    h.pure _) (h.pure _)

/-- A session that returns `Ok` once it is committed. -/
def Closes (_ : Coupled ctx sink' cancelRequested' R K C Ret Stop)
    (m : Proc CompressionResult (RunState σ κ) CompressionResult)
    (n : Proc CompressionResult (RunState σ κ') CompressionResult) : Prop :=
  Proc.Lockstep (sessionExits R Ret Stop) R m n fun r s t => r.error = .ok ∧ C s t

theorem bind_closes {m : Proc CompressionResult (RunState σ κ) α}
    {n : Proc CompressionResult (RunState σ κ') α}
    {f : α → Proc CompressionResult (RunState σ κ) CompressionResult}
    {g : α → Proc CompressionResult (RunState σ κ') CompressionResult} (hm : h.Walks m n)
    (hf : ∀ a, h.Closes (f a) (g a)) : h.Closes (m >>= f) (n >>= g) := Proc.Lockstep.bind hm hf

/-- The last report. -/
theorem reportDone {e : CompressionError} (r : CompressionResult) (hr : r.error = e)
    (progress : CompressionProgress) :
    Proc.Lockstep (sessionExits R Ret Stop) (fun s t => e = .ok ∧ C s t)
      (do
        let _ ← Compressor.emitProgress progress r true
        Pure.pure r)
      (do
        let _ ← Compressor.emitProgress progress r true
        Pure.pure r)
      fun r s t => r.error = .ok ∧ C s t := by
  refine Proc.Lockstep.bind (Q := fun _ s t => e = .ok ∧ C s t)
    (.lift (fun _ => List.prefix_append _ _) fun _ _ hC => ⟨rfl,hC.1,h.reports hC.2 _⟩) fun _ => ?_
  exact .pure fun _ _ hC => ⟨hr.trans hC.1,hC.2⟩

theorem compressSession (result : CompressionResult) (fuel : ℕ) : h.Closes (compressSession ctx result fuel)
    (compressSession (ctx.withSink sink' cancelRequested') result fuel) :=
  h.bind_closes (h.onBuffer _ _) fun _ => h.bind_closes (h.returnIf fun _ => by simp) fun _ =>
    h.bind_closes (h.writeFileHeader _) fun _ => h.bind_closes h.startProgress fun _ =>
    h.bind_closes h.sinkBytesWritten fun _ => h.bind_closes (h.loop h.compressRound _ _) fun _ =>
    h.bind_closes (h.writeTerminator _) fun _ => Proc.Lockstep.bind (h.cancels _) fun _ =>
    Proc.Lockstep.bind (h.commits _) fun r =>
    Proc.Lockstep.bind (.get fun _ _ hC => ⟨h.bytesWritten_eq (.inr hC.2),hC⟩) fun produced =>
    h.reportDone { r with outputBytes := produced } rfl _

/-! ### Decompression -/

theorem readFileHeader (result : CompressionResult) : h.Walks (readFileHeader ctx result)
    (readFileHeader (ctx.withSink sink' cancelRequested') result) :=
  h.bind (h.readOrReturn _ _ _) fun _ => h.bind (h.check _ _) fun _ =>
    h.bind (h.returnIf fun _ => by simp) fun _ => h.bind (h.returnIf fun _ => by simp) fun _ =>
    h.bind (h.returnIf fun _ => by simp) fun _ => h.pure _

theorem writeRawBlock (v : DecompressVars) (blockHeader : EscBlockHeader) :
    h.Walks (writeRawBlock ctx v blockHeader)
      (writeRawBlock (ctx.withSink sink' cancelRequested') v blockHeader) :=
  h.bind (h.returnIf fun _ => by simp) fun _ => h.bind (h.returnIf fun _ => by simp) fun _ =>
    h.bind (h.writes _ _) fun _ => h.pure _

variable (decoder : List UInt8 → ℕ → Proc CompressionError BufferState CompressionError)

theorem writeLzBlockBy (v : DecompressVars) (blockHeader : EscBlockHeader) :
    h.Walks (writeLzBlockBy decoder ctx v blockHeader)
      (writeLzBlockBy decoder (ctx.withSink sink' cancelRequested') v blockHeader) :=
  h.bind (h.callWith _ _) fun _ => h.bind (h.check _ _) fun _ =>
    h.bind (h.returnIf fun _ => by simp) fun _ => h.bind (h.writes _ _) fun _ => h.pure _

theorem readPayload (v : DecompressVars) (storedSize : ℕ) : h.Walks (readPayload ctx v storedSize)
    (readPayload (ctx.withSink sink' cancelRequested') v storedSize) :=
  h.bind (h.onBuffer _ _) fun _ => h.bind (h.returnIf fun _ => by simp) fun _ =>
    h.ite (h.bind (h.readOrReturn _ _ _) fun _ => h.pure _) (h.pure _)

theorem writeBlockBy (v : DecompressVars) (blockHeader : EscBlockHeader) :
    h.Walks (writeBlockBy decoder ctx v blockHeader)
      (writeBlockBy decoder (ctx.withSink sink' cancelRequested') v blockHeader) :=
  h.ite (h.writeRawBlock _ _) (h.writeLzBlockBy _ _ _)

theorem decompressRoundBy (header : EscHeader) (v : DecompressVars) :
    h.Walks (decompressRoundBy decoder ctx header v)
      (decompressRoundBy decoder (ctx.withSink sink' cancelRequested') header v) :=
  h.bind (h.shouldAbortForCancel _) fun _ => h.bind (h.readOrReturn _ _ _) fun _ => h.bind (h.check _ _) fun _ =>
    h.bind (h.returnIf fun _ => by simp) fun _ => h.bind (h.readPayload _ _) fun _ =>
    h.bind (h.writeBlockBy _ _ _) fun _ =>
    h.bind (h.emitProgress _ _ _) fun _ => h.pure _

/-- What follows the last block of a decompression. -/
theorem decompressed (header : EscHeader) (v : DecompressVars) :
    h.Closes
      (do
        Proc.returnIf (header.flags &&& kEscHeaderFlagUnknownOriginalSize = 0 ∧
          v.result.outputBytes ≠ header.originalSize) { v.result with error := .corruptData }
        Compressor.shouldAbortForCancel ctx v.result
        let result ← commitSession ctx v.result
        let result := { result with inputBytes := v.processedCompressedInput }
        let _ ← Compressor.emitProgress { v.progress with
          processedInputBytes := result.inputBytes, producedOutputBytes := result.outputBytes } result true
        Pure.pure result)
      (do
        Proc.returnIf (header.flags &&& kEscHeaderFlagUnknownOriginalSize = 0 ∧
          v.result.outputBytes ≠ header.originalSize) { v.result with error := .corruptData }
        Compressor.shouldAbortForCancel (ctx.withSink sink' cancelRequested') v.result
        let result ← commitSession (ctx.withSink sink' cancelRequested') v.result
        let result := { result with inputBytes := v.processedCompressedInput }
        let _ ← Compressor.emitProgress { v.progress with
          processedInputBytes := result.inputBytes, producedOutputBytes := result.outputBytes } result true
        Pure.pure result) :=
  h.bind_closes (h.returnIf fun _ => by simp) fun _ => Proc.Lockstep.bind (h.cancels _) fun _ =>
    Proc.Lockstep.bind (h.commits _) fun r =>
    h.reportDone { r with inputBytes := v.processedCompressedInput } rfl _

theorem decompressSessionBy (result : CompressionResult) (fuel : ℕ) :
    h.Closes (decompressSessionBy decoder ctx result fuel)
      (decompressSessionBy decoder (ctx.withSink sink' cancelRequested') result fuel) :=
  h.bind_closes (h.readFileHeader _) fun p => h.bind_closes h.startProgress fun _ =>
    h.bind_closes (h.loop (h.decompressRoundBy decoder _) _ _) fun v => h.decompressed p.1 v

/-! ### Whole runs -/

/-- Two jobs that are admitted alike and open alike. -/
theorem runSyncJob {P : RunState σ κ → RunState σ κ' → Prop}
    {Final Stopped : CompressionResult → RunState σ κ → RunState σ κ' → Prop}
    (hadmitted : ∀ s t, P s t → ctx.sink.isTransactional s.sink = sink'.isTransactional t.sink)
    (hrejects : ∀ s t, P s t → ∀ r : CompressionResult, r.error = .invalidArgument → Final r s t)
    (hopens : ∀ r, Proc.Lockstep (sessionExits R Ret Stop) P (openSession ctx r)
      (openSession (ctx.withSink sink' cancelRequested') r) fun _ => R)
    (hreturns : ∀ r s t, Ret r s t → Final r (destroySession ctx s)
      (destroySession (ctx.withSink sink' cancelRequested') t))
    (hcloses : ∀ (r : CompressionResult) s t, r.error = .ok ∧ C s t → Final r (destroySession ctx s)
      (destroySession (ctx.withSink sink' cancelRequested') t))
    (hstops : ∀ r s t, Stop r s t → Stopped r (destroySession ctx s) t) (fuel : ℕ) :
    Proc.Lockstep (sessionExits R Final Stopped) P (runSyncJob ctx fuel)
      (runSyncJob (ctx.withSink sink' cancelRequested') fuel) Final := by
  have hlater : ∀ t, (sessionExits R Ret Stop).later t
      (destroySession (ctx.withSink sink' cancelRequested') t) := by
    intro t
    change t.trace <+: _
    unfold destroySession
    split_ifs
    · exact (List.prefix_append _ _).trans (List.prefix_append _ _)
    · exact List.prefix_append _ _
  have hsession : ∀ {m : Proc CompressionResult (RunState σ κ) CompressionResult}
      {n : Proc CompressionResult (RunState σ κ') CompressionResult} (result : CompressionResult),
      h.Closes m n → Proc.Lockstep (sessionExits R Final Stopped) P
        (Proc.destroying (destroySession ctx) (do openSession ctx result; m))
        (Proc.destroying (destroySession (ctx.withSink sink' cancelRequested'))
          (do openSession (ctx.withSink sink' cancelRequested') result; n)) Final :=
    fun result hm => (Proc.Lockstep.bind (hopens result) fun _ => hm).destroying hlater hcloses hreturns
      hstops
  have hrequire : ∀ result : CompressionResult, Proc.Lockstep (sessionExits R Final Stopped) P
      (requireTransactional ctx result)
      (requireTransactional (ctx.withSink sink' cancelRequested') result) fun _ => P := by
    intro result
    refine Proc.Lockstep.bind (Q := fun _ => P) (.get fun s t hP => ⟨hadmitted s t hP,hP⟩) fun _ => ?_
    exact (Proc.Lockstep.returnIf fun _ s t hP => hrejects s t hP _ rfl).mono (fun _ _ hP => hP)
      fun _ _ _ hP => hP.1
  unfold Compressor.runSyncJob Compressor.runSyncJobBy
  cases ctx.operation with
  | compress =>
    refine Proc.Lockstep.bind (.returnIf fun _ s t hP => hrejects s t hP _ rfl) fun _ => ?_
    refine Proc.Lockstep.bind ((hrequire _).mono (fun _ _ hP => hP.1) fun _ _ _ hP => hP) fun _ => ?_
    exact hsession _ (h.compressSession _ fuel)
  | decompress =>
    exact Proc.Lockstep.bind (hrequire _) fun _ => hsession _ (h.decompressSessionBy _ _ fuel)

end Coupled

end Compressor
end EspCompressor
