import EspCompressor.CancelledRuns
import EspCompressor.RoundTrip

/-! Jobs whose sink fails or that are cancelled: up to the first fault they go as they would without it,
and they return its error. -/
namespace EspCompressor

/-- The error with which a call to the sink, or a load of the cancel flag, ends a run. -/
def IoEvent.fault : IoEvent → CompressionError
  | .sinkOpen e => e
  | .write _ e => e
  | .commit e => e
  | .cancelLoad true => .cancelled
  | _ => .ok

/-- The same call without its fault. -/
def IoEvent.cleared : IoEvent → IoEvent
  | .sinkOpen _ => .sinkOpen .ok
  | .write bytes _ => .write bytes .ok
  | .commit _ => .commit .ok
  | .cancelLoad _ => .cancelLoad false
  | e => e

/-- Neither the sink nor the cancel flag has hindered the run so far. -/
def Untroubled (trace : List IoEvent) : Prop := ∀ e ∈ trace, e.fault = .ok

theorem IoEvent.Asks.fault_ok {e : IoEvent} (h : e.Asks) : e.fault = .ok := by
  cases e <;> first | rfl | exact h.elim

theorem IoEvent.EndsSession.fault_ok {e : IoEvent} (h : e.EndsSession) : e.fault = .ok := by
  cases e <;> first | rfl | exact h.elim

theorem IoEvent.EndsSession.written_nil {e : IoEvent} (h : e.EndsSession) : e.written = [] := by
  cases e <;> first | rfl | exact h.elim

theorem IoEvent.written_of_fault {e : IoEvent} (h : e.fault ≠ .ok) : e.written = [] := by
  cases e with
  | write bytes e =>
    cases e with
    | ok => exact absurd rfl h
    | _ => rfl
  | _ => rfl

theorem Untroubled.more {trace : List IoEvent} (h : Untroubled trace) {e : IoEvent} (he : e.fault = .ok) :
    Untroubled (trace ++ [e]) := by
  intro x hx
  obtain hx | hx := List.mem_append.mp hx
  · exact h x hx
  · rw [List.mem_singleton.mp hx]
    exact he

theorem written_mono {trace more : List IoEvent} (h : trace <+: more) : written trace <+: written more := by
  obtain ⟨after,rfl⟩ := h
  rw [written_append]
  exact List.prefix_append _ _

/-- The sink that does the same and reports no error. -/
def CompressionSink.faultless {κ : Type} (sink : CompressionSink κ) : CompressionSink κ where
  open' k := (.ok,(sink.open' k).2)
  write bytes k := (.ok,(sink.write bytes k).2)
  commit k := (.ok,(sink.commit k).2)
  abort := sink.abort
  close := sink.close
  bytesWritten := sink.bytesWritten
  isTransactional := sink.isTransactional

theorem CompressionSink.faultless_accepts {κ : Type} (sink : CompressionSink κ) (k₀ : κ) :
    Accepts sink.faultless k₀ := ⟨rfl,fun _ _ => rfl,fun _ => rfl⟩

/-- The same job into a sink without faults, never cancelled. -/
abbrev RunContext.faultless {σ κ : Type} (ctx : RunContext σ κ) : RunContext σ κ :=
  ctx.withSink ctx.sink.faultless fun _ => false

/-- A trace that ends with a fault: the calls before it, that call, and the end of the session. -/
structure FaultyTrace (trace before : List IoEvent) (failed : IoEvent) (error : CompressionError) : Prop where
  trace_eq : ∃ last, trace = before ++ failed :: last ∧ ∀ e ∈ last, e.EndsSession
  before_ok : Untroubled before
  fault_eq : failed.fault = error
  error_ne : error ≠ .ok

theorem FaultyTrace.written_eq {trace before : List IoEvent} {failed : IoEvent} {error : CompressionError}
    (h : FaultyTrace trace before failed error) : written trace = written before := by
  obtain ⟨last,rfl,hlast⟩ := h.trace_eq
  have hfailed : failed.written = [] := IoEvent.written_of_fault (by rw [h.fault_eq]; exact h.error_ne)
  have hends : written last = [] := List.flatMap_eq_nil_iff.mpr fun e he => (hlast e he).written_nil
  rw [written_append,written_cons,hfailed,hends,List.append_nil,List.append_nil]

/-- When a commit is what fails, it is the last call but for the end of the session. -/
theorem FaultyTrace.failed_eq {trace before : List IoEvent} {failed : IoEvent} {error e : CompressionError}
    (h : FaultyTrace trace before failed error) (he : .commit e ∈ trace) (hne : e ≠ .ok) : failed = .commit e := by
  obtain ⟨last,rfl,hlast⟩ := h.trace_eq
  obtain hmem | hmem := List.mem_append.mp he
  · exact absurd (h.before_ok _ hmem) hne
  · obtain rfl | hmem := List.mem_cons.mp hmem
    · rfl
    · exact (hlast _ hmem).elim

namespace Compressor

variable {σ κ α : Type} {ctx : RunContext σ κ}

/-- The same run twice, with no fault so far. -/
abbrev SameCourse : RunState σ κ → RunState σ κ → Prop := Both fun s => Untroubled s.trace

/-- A run that a fault has stopped, and the same run without that fault. -/
def Faulted (r : CompressionResult) (s t : RunState σ κ) : Prop :=
  ∃ before failed, FaultyTrace s.trace before failed r.error ∧ t.trace = before ++ [failed.cleared]

abbrev faultExits (σ κ : Type) : Proc.Exits CompressionResult (RunState σ κ) (RunState σ κ) :=
  sessionExits SameCourse (fun _ => SameCourse) Faulted

/-- A fault in the call that comes after `s`. -/
theorem faulted_at {s s' t : RunState σ κ} (h : Untroubled s.trace) {failed : IoEvent} {r : CompressionResult}
    (hs : s'.trace = s.trace ++ [failed]) (ht : t.trace = s.trace ++ [failed.cleared])
    (hfault : failed.fault = r.error) (herror : r.error ≠ .ok) : Faulted r s' t :=
  ⟨s.trace,failed,⟨⟨[],hs,by simp⟩,h,hfault,herror⟩,ht⟩

/-- A call to the sink. -/
def callSink {ρ : Type} (call : κ → CompressionError × κ) (event : CompressionError → IoEvent) :
    Proc ρ (RunState σ κ) CompressionError :=
  Proc.lift fun s => ((call s.sink).1,{ s with
    sink := (call s.sink).2, trace := s.trace ++ [event (call s.sink).1] })

/-- A call to the sink with its check, and what comes after it. -/
theorem callSink_then {call : κ → CompressionError × κ} (event : CompressionError → IoEvent)
    {Q : α → RunState σ κ → RunState σ κ → Prop} {m n : CompressionError → Proc CompressionResult (RunState σ κ) α}
    (r : CompressionResult) (hfault : ∀ e, (event e).fault = e) (hcleared : ∀ e, (event e).cleared = event .ok)
    (hrest : Proc.Lockstep (faultExits σ κ) SameCourse (m .ok) (n .ok) Q) :
    Proc.Lockstep (faultExits σ κ) SameCourse
      (do
        let e ← callSink call event
        check r e
        m e)
      (do
        let e ← callSink (fun k => (.ok,(call k).2)) event
        check r e
        n e) Q := by
  let next (t : RunState σ κ) : RunState σ κ :=
    { t with sink := (call t.sink).2, trace := t.trace ++ [event .ok] }
  have hsecond : ∀ t : RunState σ κ, (do
      let e ← callSink (fun k => (.ok,(call k).2)) event
      check r e
      n e : Proc CompressionResult (RunState σ κ) α) t = n .ok (next t) := by
    intro t
    simp [callSink,check,Proc.bind_apply,Proc.lift,Proc.returnIf,next]
    rfl
  refine ⟨fun t => ?_,?_⟩
  · rw [hsecond]
    exact (List.prefix_append t.trace [event .ok]).trans (hrest.later (next t))
  rintro s _ ⟨rfl,h⟩
  rw [hsecond]
  by_cases hok : (call s.sink).1 = .ok
  · have hfirst : (do
        let e ← callSink call event
        check r e
        m e : Proc CompressionResult (RunState σ κ) α) s = m .ok (next s) := by
      simp [callSink,check,Proc.bind_apply,Proc.lift,Proc.returnIf,next,hok]
      rfl
    rw [hfirst]
    exact hrest.ends _ _ ⟨rfl,h.more (hfault .ok)⟩
  · have hfirst : (do
        let e ← callSink call event
        check r e
        m e : Proc CompressionResult (RunState σ κ) α) s = (.returned { r with error := (call s.sink).1 },{ s with
          sink := (call s.sink).2, trace := s.trace ++ [event (call s.sink).1] }) := by
      simp [callSink,check,Proc.bind_apply,Proc.lift,Proc.returnIf,Proc.ret,hok]
    rw [hfirst]
    exact .stopped (t := next s) (faulted_at h rfl (by rw [hcleared]) (hfault _) hok) (hrest.later (next s))

theorem writeOrReturn_faults (r : CompressionResult) (bytes : List UInt8) :
    Proc.Lockstep (faultExits σ κ) SameCourse (writeOrReturn ctx.sink r bytes)
      (writeOrReturn ctx.sink.faultless r bytes) fun _ => SameCourse := by
  have hunit : ∀ sink : CompressionSink κ, (writeOrReturn sink r bytes : Proc _ (RunState σ κ) Unit) = (do
      let e ← writeSink sink bytes
      check r e
      pure ()) := by
    intro sink
    funext s
    simp [writeOrReturn,writeSink,Proc.bind_apply,Proc.lift,check,Proc.returnIf]
    split_ifs <;> rfl
  rw [hunit,hunit]
  exact callSink_then (m := fun _ => pure ()) (n := fun _ => pure ()) (.write bytes) r (fun _ => rfl)
    (fun _ => rfl) (.pure fun _ _ h => h)

theorem commitSession_faults (r : CompressionResult) :
    Proc.Lockstep (faultExits σ κ) SameCourse (commitSession ctx r) (commitSession ctx.faultless r)
      fun r' s t => r'.error = .ok ∧ SameCourse s t := by
  refine callSink_then .commit r (fun _ => rfl) (fun _ => rfl) ?_
  refine Proc.Lockstep.bind (Q := fun _ => SameCourse) (.modify (fun _ => List.prefix_refl _) ?_) fun _ =>
    .pure fun _ _ h => ⟨rfl,h⟩
  rintro s _ ⟨rfl,h⟩
  exact ⟨rfl,h⟩

theorem openSession_faults (r : CompressionResult) :
    Proc.Lockstep (faultExits σ κ) SameCourse (openSession ctx r) (openSession ctx.faultless r)
      fun _ => SameCourse := by
  have hopened : Proc.Lockstep (faultExits σ κ) SameCourse (Proc.modify fun s => { s with opened := true })
      (Proc.modify fun s => { s with opened := true }) fun _ => SameCourse := by
    refine .modify (fun _ => List.prefix_refl _) ?_
    rintro s _ ⟨rfl,h⟩
    exact ⟨rfl,h⟩
  refine call_then (R := SameCourse) id r (fun _ => List.prefix_append _ _) ?_ fun _ => ?_
  · rintro s _ ⟨rfl,h⟩
    have hmore : Untroubled (s.trace ++ [.sourceOpen (ctx.source.open' s.source).1]) := h.more rfl
    exact ⟨rfl,fun _ => ⟨rfl,hmore⟩,fun _ _ _ => ⟨rfl,hmore⟩⟩
  · exact (callSink_then .sinkOpen r (fun _ => rfl) (fun _ => rfl) hopened).mono (fun _ _ h => h.1)
      fun _ _ _ h => h

theorem shouldAbortForCancel_faults (r : CompressionResult) :
    Proc.Lockstep (faultExits σ κ) SameCourse (shouldAbortForCancel ctx r)
      (shouldAbortForCancel ctx.faultless r) fun _ => SameCourse := by
  refine ⟨fun t => List.prefix_append _ _,?_⟩
  rintro s _ ⟨rfl,h⟩
  have hclear : shouldAbortForCancel ctx.faultless r s = (.done (),{ s with
      loads := s.loads + 1, trace := s.trace ++ [.cancelLoad false] }) := by
    simp [shouldAbortForCancel,Proc.bind_apply,loadCancel,Proc.lift,Proc.returnIf]
    rfl
  rw [hclear]
  cases hflag : ctx.cancelRequested s.loads with
  | false =>
    have hsame : shouldAbortForCancel ctx r s = (.done (),{ s with
        loads := s.loads + 1, trace := s.trace ++ [.cancelLoad false] }) := by
      simp [shouldAbortForCancel,Proc.bind_apply,loadCancel,Proc.lift,hflag,Proc.returnIf]
      rfl
    rw [hsame]
    exact .done ⟨rfl,h.more rfl⟩
  | true =>
    have hstop : shouldAbortForCancel ctx r s = (.returned { r with error := .cancelled },
        { s with loads := s.loads + 1, trace := s.trace ++ [.cancelLoad true] }) := by
      simp [shouldAbortForCancel,Proc.bind_apply,loadCancel,Proc.lift,hflag,Proc.returnIf,Proc.ret]
    rw [hstop]
    exact .stopped (faulted_at h rfl rfl rfl (by simp)) (List.prefix_refl _)

/-- What the calls do to a run and the same run without faults. -/
theorem faultedRun (ctx : RunContext σ κ) : Coupled ctx ctx.sink.faultless (fun _ => false) SameCourse SameCourse
    SameCourse (fun _ => SameCourse) Faulted where
  source_eq h := by rw [h.1]
  heap_eq h := by rw [h.1]
  bytesWritten_eq h := by
    obtain h | h := h
    · rw [h.1]
      rfl
    · rw [h.1]
      rfl
  returns h _ _ := h
  asks := by
    rintro s _ ⟨rfl,h⟩ source e he
    exact ⟨rfl,h.more he.fault_ok⟩
  readFails := by
    rintro s _ ⟨rfl,h⟩ source n e data _ r _
    exact ⟨rfl,h.more rfl⟩
  allocates := by
    rintro s _ ⟨rfl,h⟩ heap
    exact ⟨rfl,h⟩
  cancels := shouldAbortForCancel_faults
  checked h := h
  writes := writeOrReturn_faults
  commits := commitSession_faults
  reports := by
    rintro s _ ⟨rfl,h⟩ report
    exact ⟨rfl,h.more rfl⟩

/-- The end of a session adds no fault. -/
theorem destroySession_ends (ctx : RunContext σ κ) (s : RunState σ κ) :
    ∃ last, (destroySession ctx s).trace = s.trace ++ last ∧ ∀ e ∈ last, e.EndsSession := by
  unfold destroySession
  split_ifs
  · exact ⟨[.abort,.sinkClose,.sourceClose],by simp,by simp [IoEvent.EndsSession]⟩
  · exact ⟨[.sinkClose,.sourceClose],rfl,by simp [IoEvent.EndsSession]⟩

theorem SameCourse.destroy {s t : RunState σ κ} (h : SameCourse s t) :
    SameCourse (destroySession ctx s) (destroySession ctx.faultless t) := by
  obtain ⟨rfl,h⟩ := h
  obtain ⟨last,htrace,hlast⟩ := destroySession_ends ctx s
  refine ⟨rfl,?_⟩
  dsimp only
  rw [htrace]
  intro e he
  obtain he | he := List.mem_append.mp he
  · exact h e he
  · exact (hlast e he).fault_ok

theorem Faulted.destroy {r : CompressionResult} {s t : RunState σ κ} (h : Faulted r s t) :
    Faulted r (destroySession ctx s) t := by
  obtain ⟨before,failed,⟨⟨last,htrace,hlast⟩,hbefore,hfault,herror⟩,ht⟩ := h
  obtain ⟨last',htrace',hlast'⟩ := destroySession_ends ctx s
  refine ⟨before,failed,⟨⟨last ++ last',by rw [htrace',htrace]; simp,?_⟩,hbefore,hfault,herror⟩,ht⟩
  intro e he
  obtain he | he := List.mem_append.mp he
  · exact hlast e he
  · exact hlast' e he

theorem runSyncJob_faults (fuel : ℕ) :
    Proc.Lockstep (faultExits σ κ) SameCourse (runSyncJob ctx fuel) (runSyncJob ctx.faultless fuel)
      fun _ => SameCourse := by
  refine (faultedRun ctx).runSyncJob ?_ (fun _ _ h _ _ => h) openSession_faults (fun _ _ _ h => SameCourse.destroy h)
    (fun _ _ _ h => SameCourse.destroy h.2) (fun _ _ _ h => h.destroy) fuel
  rintro s _ ⟨rfl,_⟩
  rfl

/-- A job goes as it would without faults, or its first fault ends it where the other run goes on. -/
theorem same_or_faulted (ctx : RunContext σ κ) (fuel : ℕ) (source : σ) (k₀ : κ) (heap : Heap) :
    jobRun ctx fuel source k₀ heap = jobRun ctx.faultless fuel source k₀ heap ∧
        Untroubled (jobRun ctx fuel source k₀ heap).2.trace ∨
      ∃ r s before failed, jobRun ctx fuel source k₀ heap = (some r,s) ∧
        FaultyTrace s.trace before failed r.error ∧
        before ++ [failed.cleared] <+: (jobRun ctx.faultless fuel source k₀ heap).2.trace := by
  have hends := (@runSyncJob_faults _ _ ctx fuel).ends (.start source k₀ heap) (.start source k₀ heap)
    ⟨rfl,by simp [Untroubled,RunState.start]⟩
  unfold jobRun Proc.exec
  have hsafe := @runSyncJob_ends _ _ k₀ ctx fuel source heap
  unfold Proc.wp at hsafe
  generalize runSyncJob ctx fuel (.start source k₀ heap) = x at hends hsafe ⊢
  generalize runSyncJob ctx.faultless fuel (.start source k₀ heap) = y at hends ⊢
  cases hends with
  | done hsame =>
    obtain ⟨rfl,hok⟩ := hsame
    exact .inl ⟨rfl,hok⟩
  | returned hsame =>
    obtain ⟨rfl,hok⟩ := hsame
    exact .inl ⟨rfl,hok⟩
  | pending hsame =>
    obtain ⟨rfl,hok⟩ := hsame
    exact .inl ⟨rfl,hok⟩
  | undefined => exact hsafe.elim
  | @stopped r s t t' o hstopped hlater =>
    obtain ⟨before,failed,hfaulty,ht⟩ := hstopped
    refine .inr ⟨r,s,before,failed,rfl,hfaulty,?_⟩
    rw [← ht]
    cases o <;> exact hlater

/-! ### What comes of a job -/

/-- How a job ends whose calls ought to give `expected` and to write `output`: so they did, without any fault, or
the first fault ended them, and then nothing is published and only the front of the output is written. -/
inductive Verdict (expected : CompressionError × Option (List UInt8)) (output : List UInt8) (r : CompressionResult)
    (trace : List IoEvent) : Prop
  | undisturbed : Untroubled trace → (r.error,published trace) = expected → written trace = output →
      Verdict expected output r trace
  | faulted {before : List IoEvent} {failed : IoEvent} : FaultyTrace trace before failed r.error →
      published trace = none → written trace <+: output → Verdict expected output r trace

/-- What the job without faults comes to decides what the job comes to. -/
theorem verdict_of_faultless {fuel : ℕ} {source : σ} {k₀ : κ} {heap : Heap} {r : CompressionResult} {t : RunState σ κ}
    (hrun : jobRun ctx.faultless fuel source k₀ heap = (some r,t)) :
    ∃ r' s, jobRun ctx fuel source k₀ heap = (some r',s) ∧
      Verdict (r.error,published t.trace) (written t.trace) r' s.trace := by
  obtain ⟨hsame,hok⟩ | ⟨r',s,before,failed,hstopped,hfaulty,hlater⟩ := same_or_faulted ctx fuel source k₀ heap
  · rw [hsame,hrun] at hok
    exact ⟨r,t,hsame.trans hrun,.undisturbed hok rfl rfl⟩
  · rw [hrun] at hlater
    refine ⟨r',s,hstopped,.faulted hfaulty ?_ ?_⟩
    · have hends := Proc.exec_of_wp (runSyncJob_ends ctx fuel source heap) hstopped
      rw [hends.published_eq,if_neg hfaulty.error_ne]
    · rw [hfaulty.written_eq]
      exact written_mono ((List.prefix_append before [failed.cleared]).trans hlater)

/-- A compression from an honest source, into any sink and under any cancel flag: the configuration is valid, the
sink may be used and there is memory for the run itself. -/
structure CompressAttempt (d : List UInt8) extends CompressRun d where
  operation_eq : ctx.operation = .compress
  valid : ValidConfig ctx.config
  open_ok : (ctx.source.open' source).1 = .ok
  admitted : ctx.sink.isTransactional k₀ = true ∨ ctx.options.allowPartialOutput = true
  ample : heap.Ample (blockNeed ctx.config.blockSize)
  fuel_gt : d.length < fuel

namespace CompressAttempt

variable {d : List UInt8}

/-- The same compression without faults. -/
def faultless (job : CompressAttempt d) : CompressJob d where
  σ := job.σ
  κ := job.κ
  ctx := job.ctx.faultless
  source := job.source
  k₀ := job.k₀
  heap := job.heap
  fuel := job.fuel
  known := job.known
  Inv := job.Inv
  honest := job.honest
  opened := job.opened
  valid := job.valid
  open_ok := job.open_ok
  unhindered := ⟨job.admitted,job.ctx.sink.faultless_accepts job.k₀,job.ample,fun _ => rfl⟩
  fuel_gt := job.fuel_gt

theorem run_eq (job : CompressAttempt d) :
    job.run = jobRun job.ctx job.fuel job.source job.k₀ job.heap ∧
      job.faultless.run = jobRun job.ctx.faultless job.fuel job.source job.k₀ job.heap := by
  unfold jobRun runSyncJob runSyncJobBy
  rw [job.operation_eq]
  exact ⟨rfl,rfl⟩

/-- Without faults it publishes its container. -/
theorem faultless_returns (job : CompressAttempt d) : ∃ c r t, job.container = some c ∧
    Container.decode c = .ok (d,[]) ∧ job.faultless.run = (some r,t) ∧ r.error = .ok ∧
    published t.trace = some c ∧ written t.trace = c := by
  obtain ⟨r,t,hrun,hok⟩ := job.faultless.returns
  obtain ⟨c,hcontainer,hpublished,hdecode,-⟩ := job.faultless.result hrun hok
  obtain ⟨-,hall⟩ := compressed_of_exec hrun hok
  rw [hpublished] at hall
  exact ⟨c,r,t,hcontainer,hdecode,hrun,hok,hpublished,(Option.some.inj hall).symm⟩

end CompressAttempt

/-- Whatever the sink and the cancel flag do, a compression from an honest source returns: with `Ok` and a container
that they have no part in, published whole, or with the error of the first fault, and the front of that container
written. -/
theorem compress_despite_faults {d : List UInt8} (job : CompressAttempt d) :
    ∃ c, job.container = some c ∧ Container.decode c = .ok (d,[]) ∧
      ∃ r s, job.run = (some r,s) ∧ Verdict (.ok,some c) c r s.trace := by
  obtain ⟨c,r,t,hcontainer,hdecode,hrun,hok,hpublished,hwritten⟩ := job.faultless_returns
  refine ⟨c,hcontainer,hdecode,?_⟩
  rw [job.run_eq.2] at hrun
  have hverdict := verdict_of_faultless hrun
  rw [hok,hpublished,hwritten] at hverdict
  rw [job.run_eq.1]
  exact hverdict

/-- A device that takes no more than 2 bytes of its `n`-th write. -/
def cutDevice (n : ℕ) : PrintSink := { print := ⟨[],fun i => if i = n then 2 else 1000,0⟩ }

theorem mixedSource_honest : Honest BufferSource.source mixedData true (BufferSource.Remains mixedData) :=
  BufferSource.honest mixedData
theorem mixedSource_opened : BufferSource.Remains mixedData mixedData (BufferSource.source.open' ⟨mixedData,0,false⟩).2 :=
  BufferSource.remains_open mixedData

/-- An encoded block and a raw one, onto such a device. -/
def cutRun (n : ℕ) : CompressRun mixedData where
  σ := BufferSource
  κ := PrintSink
  ctx :=
    { config := { blockSize := 16, windowSize := 16 }
      operation := .compress
      options := { allowPartialOutput := true }
      source := BufferSource.source
      sink := PrintSink.sink }
  source := ⟨mixedData,0,false⟩
  k₀ := cutDevice n
  heap := .granting 32
  fuel := 20
  known := true
  Inv := BufferSource.Remains mixedData
  honest := mixedSource_honest
  opened := mixedSource_opened

theorem cutRun_valid (n : ℕ) : ValidConfig (cutRun n).ctx.config :=
  show ValidConfig { blockSize := 16, windowSize := 16 } from ⟨by decide,by decide,by decide⟩
theorem cutRun_ample (n : ℕ) : (cutRun n).heap.Ample (blockNeed (cutRun n).ctx.config.blockSize) :=
  Heap.granting_ample (show blockNeed 16 < 2 ^ 32 by decide)
theorem cutRun_fuel (n : ℕ) : mixedData.length < (cutRun n).fuel := show mixedData.length < 20 by decide

def cutAttempt (n : ℕ) : CompressAttempt mixedData :=
  ⟨cutRun n,rfl,cutRun_valid n,rfl,.inr rfl,cutRun_ample n,cutRun_fuel n⟩

theorem cutAttempt_container (n : ℕ) : (cutAttempt n).container = some mixedContainer := by
  have hsame : (cutAttempt n).container = (cutAttempt 0).container := rfl
  rw [hsame]
  decide +kernel

/-- When the device takes all, the container is published; when it cuts the first payload, the headers before it
have been written. -/
theorem compress_despite_faults_cut :
    (∃ r s, (cutAttempt 9).run = (some r,s) ∧ r.error = .ok ∧ published s.trace = some mixedContainer) ∧
    ∃ r s, (cutAttempt 2).run = (some r,s) ∧ r.error = .writeFailed ∧ published s.trace = none ∧
      (written s.trace).length = 37 ∧ written s.trace <+: mixedContainer := by
  constructor
  · obtain ⟨c,hcontainer,-,r,s,hrun,hverdict⟩ := compress_despite_faults (cutAttempt 9)
    obtain rfl : c = mixedContainer := Option.some.inj (hcontainer.symm.trans (cutAttempt_container 9))
    have hok : (cutAttempt 9).run.1.map CompressionResult.error = some .ok := by decide +kernel
    rw [hrun] at hok
    obtain ⟨-,hall,-⟩ | ⟨hfaulty,-,-⟩ := hverdict
    · exact ⟨r,s,hrun,(Prod.mk.inj hall).1,(Prod.mk.inj hall).2⟩
    · exact absurd (Option.some.inj hok) hfaulty.error_ne
  · obtain ⟨c,hcontainer,-,r,s,hrun,hverdict⟩ := compress_despite_faults (cutAttempt 2)
    obtain rfl : c = mixedContainer := Option.some.inj (hcontainer.symm.trans (cutAttempt_container 2))
    have hfailed : (cutAttempt 2).run.1.map CompressionResult.error = some .writeFailed := by decide +kernel
    have hlength : (written (cutAttempt 2).run.2.trace).length = 37 := by decide +kernel
    rw [hrun] at hfailed hlength
    obtain ⟨-,hall,-⟩ | ⟨-,hnone,hfront⟩ := hverdict
    · have hok := (Prod.mk.inj hall).1
      rw [show r.error = .writeFailed from Option.some.inj hfailed] at hok
      exact absurd hok (by decide)
    · exact ⟨r,s,hrun,Option.some.inj hfailed,hnone,hlength,hfront⟩

end Compressor
end EspCompressor
