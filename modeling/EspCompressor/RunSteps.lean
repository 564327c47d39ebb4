import EspCompressor.Session

/-! The steps that both run loops are made of, by what they do to the output, and the ways in
which they can fail: the sink refuses, memory runs out, or the job is cancelled. -/
namespace EspCompressor

/-! ### What a trace tells about the source -/

/-- How many bytes were delivered, and the end of the furthest request. -/
structure Meter where
  position : ℕ
  furthest : ℕ
  deriving DecidableEq

def IoEvent.meter (m : Meter) : IoEvent → Meter
  | .read requested _ data => ⟨m.position + data.length,max m.furthest (m.position + requested)⟩
  | _ => m

def meter (trace : List IoEvent) : Meter := trace.foldl IoEvent.meter ⟨0,0⟩

@[simp] theorem meter_nil : meter [] = ⟨0,0⟩ := rfl

@[simp] theorem meter_append_singleton (t : List IoEvent) (e : IoEvent) :
    meter (t ++ [e]) = e.meter (meter t) := by simp [meter]

namespace Compressor

variable {σ κ α β : Type}

/-- A run that has ended published what it wrote exactly if it returned `Ok`. -/
theorem EndsSession.published_eq {ctx : RunContext σ κ} {s₀ s : RunState σ κ} {r : CompressionResult}
    (h : EndsSession ctx s₀ r s) :
    published s.trace = if r.error = .ok then some (written s.trace) else none := by
  have hiff := SinkEnding.commits_ok_iff h
  simp only [published,hiff]

/-- Nothing hinders the run: the sink may be used and takes everything, memory suffices for `need`
bytes at a time, and nobody cancels. -/
structure Unhindered (ctx : RunContext σ κ) (k₀ : κ) (heap : Heap) (need : ℕ) : Prop where
  admitted : ctx.sink.isTransactional k₀ = true ∨ ctx.options.allowPartialOutput = true
  accepts : Accepts ctx.sink k₀
  ample : heap.Ample need
  uncancelled : ∀ n, ctx.cancelRequested n = false

/-- An open session that has written `out`. -/
structure Running (ctx : RunContext σ κ) (k₀ : κ) (heap : Heap) (out : List UInt8)
    (s : RunState σ κ) : Prop extends Transfer ctx.sink k₀ s where
  output : written s.trace = out
  supply : heap.SameSupply s.heap

/-- No call to the source was made between the two states. -/
structure SourceKept (s s' : RunState σ κ) : Prop where
  source_eq : s'.source = s.source
  meter_eq : meter s'.trace = meter s.trace

theorem SourceKept.refl (s : RunState σ κ) : SourceKept s s := ⟨rfl,rfl⟩

theorem SourceKept.trans {s s' s'' : RunState σ κ} (h : SourceKept s s') (h' : SourceKept s' s'') :
    SourceKept s s'' := ⟨h'.source_eq.trans h.source_eq,h'.meter_eq.trans h.meter_eq⟩

/-- A statement that makes no call to the source and adds `bytes` to the output; it can fail only
when the run is hindered. -/
def Adds (ctx : RunContext σ κ) (k₀ : κ) (heap : Heap) (need : ℕ) (bytes : List UInt8)
    (m : Proc CompressionResult (RunState σ κ) α) (P : α → Prop) : Prop :=
  ∀ out s, Running ctx k₀ heap out s → Proc.wp m
    (fun a s' => P a ∧ Running ctx k₀ heap (out ++ bytes) s' ∧ SourceKept s s')
    (fun r _ => r.error ≠ .ok ∧ ¬Unhindered ctx k₀ heap need) (fun _ => False) s

variable {ctx : RunContext σ κ} {k₀ : κ} {heap : Heap} {need : ℕ}

section Rules

variable {bytes bytes' : List UInt8} {m : Proc CompressionResult (RunState σ κ) α} {P P' : α → Prop}

theorem Adds.pure {a : α} (h : P a) : Adds ctx k₀ heap need [] (Pure.pure a) P := fun out s hs => by
  rw [Proc.wp_pure,List.append_nil]
  exact ⟨h,hs,.refl s⟩

theorem Adds.bind {Q : β → Prop} {f : α → Proc CompressionResult (RunState σ κ) β}
    (hm : Adds ctx k₀ heap need bytes m P)
    (hf : ∀ a, P a → Adds ctx k₀ heap need bytes' (f a) Q) :
    Adds ctx k₀ heap need (bytes ++ bytes') (m >>= f) Q := fun out s hs => by
  rw [Proc.wp_bind]
  refine Proc.wp_mono (hm out s hs) ?_ (fun _ _ h => h) fun _ h => h
  rintro a s' ⟨ha,hs',hkept⟩
  refine Proc.wp_mono (hf a ha _ s' hs') ?_ (fun _ _ h => h) fun _ h => h
  rintro b s'' ⟨hb,hs'',hkept'⟩
  exact ⟨hb,by rwa [← List.append_assoc],hkept.trans hkept'⟩

theorem Adds.mono (h : Adds ctx k₀ heap need bytes m P) (hP : ∀ a, P a → P' a) :
    Adds ctx k₀ heap need bytes m P' := fun out s hs =>
  Proc.wp_mono (h out s hs) (fun a _ h' => ⟨hP a h'.1,h'.2⟩) (fun _ _ h' => h') fun _ h' => h'

/-- A statement that adds nothing, before others. -/
theorem Adds.bind_nil {Q : β → Prop} {f : α → Proc CompressionResult (RunState σ κ) β}
    (hm : Adds ctx k₀ heap need [] m P) (hf : ∀ a, P a → Adds ctx k₀ heap need bytes (f a) Q) :
    Adds ctx k₀ heap need bytes (m >>= f) Q := hm.bind hf

/-- A return that only a hindered run takes. -/
theorem Adds.returnIf {c : Prop} [Decidable c] {r : CompressionResult}
    (h : c → r.error ≠ .ok ∧ ¬Unhindered ctx k₀ heap need) :
    Adds ctx k₀ heap need [] (Proc.returnIf c r) fun _ => ¬c := fun out s hs => by
  rw [Proc.wp_returnIf,List.append_nil]
  exact ⟨h,fun hc => ⟨hc,hs,.refl s⟩⟩

theorem Adds.check {result : CompressionResult} {e : CompressionError}
    (h : e ≠ .ok → ¬Unhindered ctx k₀ heap need) :
    Adds ctx k₀ heap need [] (check result e) fun _ => e = .ok := by
  have hreturn : Adds ctx k₀ heap need [] (Proc.returnIf (e ≠ .ok) { result with error := e })
      fun _ => ¬e ≠ .ok := Adds.returnIf fun he => ⟨he,h he⟩
  exact hreturn.mono fun _ he => not_not.mp he

theorem Adds.get (f : RunState σ κ → α) : Adds ctx k₀ heap need [] (Proc.get f) fun _ => True :=
  fun out s hs => by
    rw [Proc.wp_get,List.append_nil]
    exact ⟨trivial,hs,.refl s⟩

end Rules

/-- An event that neither reads, writes nor commits. -/
theorem Running.event {out : List UInt8} {s s' : RunState σ κ} (h : Running ctx k₀ heap out s)
    (e : IoEvent) (hsink : s'.sink = s.sink) (hopened : s'.opened = s.opened)
    (hcommitted : s'.committed = s.committed) (hheap : s'.heap = s.heap)
    (htrace : s'.trace = s.trace ++ [e]) (hwritten : e.written = []) (hcommit : e.commits = []) :
    Running ctx k₀ heap out s' := by
  refine ⟨h.toTransfer.frame e hsink hopened hcommitted htrace hwritten hcommit,?_,?_⟩
  · rw [htrace,written_append,written_cons,hwritten,h.output]
    simp
  · rw [hheap]
    exact h.supply

theorem shouldAbortForCancel_adds (result : CompressionResult) :
    Adds ctx k₀ heap need [] (shouldAbortForCancel ctx result) fun _ => True := fun out s hs => by
  simp only [shouldAbortForCancel,Proc.wp_bind,loadCancel,Proc.wp_lift,Proc.wp_returnIf,List.append_nil]
  refine ⟨fun hc => ⟨by simp,fun h => ?_⟩,fun _ => ⟨trivial,?_,rfl,by simp [IoEvent.meter]⟩⟩
  · rw [h.uncancelled] at hc
    exact absurd hc (by simp)
  · exact hs.event _ rfl rfl rfl rfl rfl rfl rfl

theorem emitProgress_adds (progress : CompressionProgress) (result : CompressionResult) (done : Bool) :
    Adds ctx k₀ heap need [] (emitProgress progress result done) fun _ => True := fun out s hs => by
  simp only [emitProgress,Proc.wp_lift,List.append_nil]
  exact ⟨trivial,hs.event _ rfl rfl rfl rfl rfl rfl rfl,rfl,by simp [IoEvent.meter]⟩

theorem writeOrReturn_adds (bytes : List UInt8) (result : CompressionResult) :
    Adds ctx k₀ heap need bytes (writeOrReturn ctx.sink result bytes) fun _ => True := fun out s hs => by
  have htransfer := writeOrReturn_transfers bytes result s hs.toTransfer
  simp only [writeOrReturn,Proc.wp_bind,writeSink,Proc.wp_lift,check,Proc.wp_returnIf] at htransfer ⊢
  refine ⟨fun he => ⟨he,fun h => he (h.accepts.write_ok hs.staged bytes)⟩,fun he => ?_⟩
  have hok : (ctx.sink.write bytes s.sink).1 = .ok := not_not.mp he
  refine ⟨trivial,⟨htransfer.2 he,?_,hs.supply⟩,rfl,by simp [IoEvent.meter]⟩
  simp [hok,IoEvent.written,hs.output]

theorem Running.withHeap {out : List UInt8} {s : RunState σ κ} (h : Running ctx k₀ heap out s)
    {heap' : Heap} (hsupply : s.heap.SameSupply heap') :
    Running ctx k₀ heap out { s with heap := heap' } :=
  ⟨h.toTransfer.withHeap heap',h.output,h.supply.trans hsupply⟩

/-- Resizing a local buffer. -/
theorem resize_adds (buffer : MemoryBuffer) (size : ℕ) :
    Adds ctx k₀ heap need [] (onBuffer buffer (MemoryBuffer.resize size)) fun r =>
      (r.1 = true → r.2.size = size) ∧ (r.1 = false → ¬heap.Ample need) := fun out s hs => by
  simp only [onBuffer,Proc.wp_lift,List.append_nil]
  obtain ⟨hsupply,htrue,hfalse⟩ := MemoryBuffer.resize_spec size ⟨buffer,s.heap⟩
  refine ⟨⟨fun h => (htrue h).1,fun h ha => ?_⟩,hs.withHeap hsupply,rfl,rfl⟩
  have hgrant := (ha.of_sameSupply hs.supply).grants s.heap.calls
  rw [(hfalse h).2] at hgrant
  exact absurd hgrant (by simp)

/-- A call that fills a local buffer. -/
theorem callWith_adds {buffer : MemoryBuffer} {f : Proc CompressionError BufferState CompressionError}
    {P : CompressionError × BufferState → Prop}
    (hf : ∀ h, heap.SameSupply h → Proc.wp f
      (fun e t => h.SameSupply t.heap ∧ P (e,t)) (fun e t => h.SameSupply t.heap ∧ P (e,t))
      (fun _ => False) ⟨buffer,h⟩) :
    Adds ctx k₀ heap need [] (callWith buffer f) P := fun out s hs => by
  rw [callWith,Proc.wp_callOn,List.append_nil]
  refine Proc.wp_mono (hf s.heap hs.supply) ?_ ?_ fun _ h => h
  · exact fun e t h => ⟨h.2,hs.withHeap h.1,rfl,rfl⟩
  · exact fun e t h => ⟨h.2,hs.withHeap h.1,rfl,rfl⟩

/-! ### Around the session -/

@[simp] theorem destroySession_written (s : RunState σ κ) :
    written (destroySession ctx s).trace = written s.trace := by
  unfold destroySession
  split <;> simp [IoEvent.written]

@[simp] theorem destroySession_meter (s : RunState σ κ) :
    meter (destroySession ctx s).trace = meter s.trace := by
  unfold destroySession
  split <;> simp [IoEvent.meter,meter]

/-- A session that opens is one that has written nothing and read nothing; it fails to open only
when the source does, or when the run is hindered. -/
theorem openSession_spec {source : σ} (result : CompressionResult) :
    Proc.wp (openSession ctx result)
      (fun _ s => (ctx.source.open' source).1 = .ok ∧ Running ctx k₀ heap [] s ∧
        s.source = (ctx.source.open' source).2 ∧ meter s.trace = ⟨0,0⟩)
      (fun r _ => r.error ≠ .ok ∧
        ((ctx.source.open' source).1 ≠ .ok ∨ ¬Unhindered ctx k₀ heap need)) (fun _ => False)
      (.start source k₀ heap) := by
  simp only [openSession,openSource,openSink,Proc.wp_bind,Proc.wp_lift,check,Proc.wp_returnIf,
    Proc.wp_modify]
  refine ⟨fun he => ⟨he,.inl he⟩,fun hopen => ⟨fun he => ⟨he,.inr fun h => he h.accepts.open_ok⟩,
    fun he => ⟨not_not.mp hopen,⟨⟨rfl,rfl,?_,rfl,?_⟩,rfl,.refl heap⟩,rfl,rfl⟩⟩⟩
  · simp [RunState.start,sinkOpened,show (ctx.sink.open' k₀).1 = .ok from not_not.mp he]
  · exact Staged.opened (not_not.mp he)

/-- The sink may be used as far as its kind is concerned, or the run is hindered. -/
theorem requireTransactional_spec {s : RunState σ κ} (result : CompressionResult) (hs : s.sink = k₀) :
    Proc.wp (requireTransactional ctx result) (fun _ s' => s' = s)
      (fun r _ => r.error ≠ .ok ∧ ¬Unhindered ctx k₀ heap need) (fun _ => False) s := by
  simp only [requireTransactional,Proc.wp_bind,Proc.wp_get,Proc.wp_returnIf,hs]
  refine ⟨fun hno => ⟨by simp,fun hu => ?_⟩,fun _ => trivial⟩
  rcases hu.admitted with h | h
  · exact absurd (h.symm.trans hno.1) (by simp)
  · exact absurd (h.symm.trans hno.2) (by simp)

/-- The commit, and nothing else that the sink or the source could notice. -/
theorem commitSession_spec {out : List UInt8} {s : RunState σ κ} (result : CompressionResult)
    (h : Running ctx k₀ heap out s) :
    Proc.wp (commitSession ctx result)
      (fun r s' => r = { result with error := .ok } ∧ (ctx.sink.commit s.sink).1 = .ok ∧
        s'.sink = (ctx.sink.commit s.sink).2 ∧ written s'.trace = out ∧
        meter s'.trace = meter s.trace)
      (fun r _ => r.error ≠ .ok ∧ ¬Unhindered ctx k₀ heap need) (fun _ => False) s := by
  simp only [commitSession,Proc.wp_bind,commitSink,Proc.wp_lift,check,Proc.wp_returnIf,Proc.wp_modify,
    Proc.wp_pure]
  refine ⟨fun he => ⟨he,fun hu => he (hu.accepts.commit_ok h.staged)⟩,
    fun he => ⟨?_,not_not.mp he,trivial,?_,?_⟩⟩
  · rw [not_not.mp he]
  · simp [IoEvent.written,h.output]
  · simp [IoEvent.meter]

end Compressor
end EspCompressor
