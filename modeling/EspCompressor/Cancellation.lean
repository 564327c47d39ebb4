import EspCompressor.BuiltinIo
import EspCompressor.CallProtocol
import EspCompressor.FileJobs

/-! A job against the same job with a cancel flag that stays clear. -/
namespace EspCompressor

def IoEvent.isLoad : IoEvent → Bool
  | .cancelLoad _ => true
  | _ => false

theorem IoEvent.Asks.not_load {e : IoEvent} (h : e.Asks) : e.isLoad = false := by
  cases e <;> first | rfl | exact h.elim

/-- How often the cancel flag was loaded. -/
def loads (trace : List IoEvent) : ℕ := trace.countP IoEvent.isLoad

/-- The `n`-th load gives what the flag is then. -/
def Answers (cancelRequested : ℕ → Bool) (before : List IoEvent) : IoEvent → Prop
  | .cancelLoad answer => answer = cancelRequested (loads before)
  | _ => True

/-- The call before a commit is a load of the flag, which is clear then. -/
def CommitsClear (cancelRequested : ℕ → Bool) (before : List IoEvent) : IoEvent → Prop
  | .commit _ => ∃ checks, before = checks ++ [.cancelLoad false] ∧ cancelRequested (loads checks) = false
  | _ => True

/-- The call before a commit is a load of the flag. -/
def ChecksCommit (before : List IoEvent) : IoEvent → Prop
  | .commit _ => Checked before
  | _ => True

theorem checksCommit_of_goesOn {body : List IoEvent} (h : ∀ x ∈ body, x.GoesOn) :
    Histories.Each ChecksCommit (opens ++ body) := by
  refine Histories.each_append.mpr ⟨?_,Histories.each_of_forall fun before _ e he => ?_⟩
  · simp [opens,Histories.each_cons,Histories.each_nil,ChecksCommit]
  · cases e with
    | commit _ => exact (h _ he).not_commit.elim
    | _ => trivial

theorem checksCommit_append {body last : List IoEvent} (h : ∀ x ∈ body, x.GoesOn) {e : IoEvent}
    (he : ChecksCommit (opens ++ body) e) (hlast : ∀ x ∈ last, ∀ e, x ≠ .commit e) :
    Histories.Each ChecksCommit (opens ++ body ++ e :: last) := by
  rw [Histories.each_append,Histories.each_cons,List.append_nil]
  refine ⟨checksCommit_of_goesOn h,he,Histories.each_of_forall fun before _ x hx => ?_⟩
  cases x with
  | commit answer => exact absurd rfl (hlast _ hx answer)
  | _ => trivial

theorem Checked.after {body : List IoEvent} (h : Checked body) (before : List IoEvent) :
    Checked (before ++ body) := by
  obtain ⟨checks,rfl⟩ := h
  exact ⟨before ++ checks,(List.append_assoc _ _ _).symm⟩

theorem LastCall.checksCommit {body : List IoEvent} {e : IoEvent} (h : LastCall body [e]) :
    ChecksCommit (opens ++ body) e := by
  cases h with
  | commit hchecked _ => exact hchecked.after opens
  | _ => trivial

theorem RunTrace.checksCommit {trace : List IoEvent} {error : CompressionError} (h : RunTrace trace error) :
    Histories.Each ChecksCommit trace := by
  cases h with
  | sourceFailed _ => simp [Histories.each_cons,Histories.each_nil,ChecksCommit]
  | sinkFailed _ => simp [Histories.each_cons,Histories.each_nil,ChecksCommit]
  | @aborted body last _ hbody hlast _ =>
    have hends : ∀ x ∈ [IoEvent.abort,.sinkClose,.sourceClose], ∀ e, x ≠ .commit e := by simp
    rw [← List.append_assoc]
    rcases hlast.cases_eq with rfl | ⟨e,rfl,-,-⟩
    · rw [List.append_nil]
      exact checksCommit_append hbody trivial (by simp)
    · rw [List.append_assoc]
      exact checksCommit_append hbody hlast.checksCommit hends
  | @committed body reports hbody hchecked =>
    rw [← List.append_assoc,List.append_assoc,List.cons_append]
    refine checksCommit_append hbody (hchecked.after opens) ?_
    simp only [List.mem_append,List.mem_map,List.mem_cons,List.not_mem_nil,or_false]
    rintro x (⟨_,_,rfl⟩ | rfl | rfl) <;> simp

/-- A trace that holds what the flag answered commits only while the flag is clear. -/
theorem commitsClear {cancelRequested : ℕ → Bool} {trace : List IoEvent}
    (hanswers : Histories.Each (Answers cancelRequested) trace)
    (hchecks : Histories.Each ChecksCommit trace) :
    Histories.Each (CommitsClear cancelRequested) trace := by
  intro before e after htrace
  cases e with
  | commit answer =>
    obtain ⟨checks,hbefore⟩ := hchecks before _ after htrace
    refine ⟨checks,hbefore,?_⟩
    rw [hbefore,List.append_assoc] at htrace
    exact (hanswers checks _ _ htrace).symm
  | _ => trivial

/-- A run that found the flag set was aborted right after that. -/
theorem RunTrace.cancelled {trace : List IoEvent} {error : CompressionError} (h : RunTrace trace error)
    (hset : .cancelLoad true ∈ trace) :
    ∃ body, trace = opens ++ (body ++ [.cancelLoad true]) ++ [.abort,.sinkClose,.sourceClose] ∧
      ∀ x ∈ body, x.GoesOn := by
  have hopens : IoEvent.cancelLoad true ∉ opens := by simp [opens]
  have hgoes : ∀ {body : List IoEvent}, (∀ x ∈ body, x.GoesOn) → IoEvent.cancelLoad true ∉ body :=
    fun hbody hmem => absurd (hbody _ hmem) (show ¬(true = false) by simp)
  cases h with
  | sourceFailed _ => simp at hset
  | sinkFailed _ => simp at hset
  | @aborted body last _ hbody hlast _ =>
    cases hlast with
    | cancelled => exact ⟨body,rfl,hbody⟩
    | none => simp [hopens,hgoes hbody] at hset
    | read _ _ _ => simp [hopens,hgoes hbody] at hset
    | write _ _ => simp [hopens,hgoes hbody] at hset
    | commit _ _ => simp [hopens,hgoes hbody] at hset
  | @committed body reports hbody _ => simp [hopens,hgoes hbody] at hset

theorem commits_eq_nil {trace : List IoEvent} (h : ∀ e, .commit e ∉ trace) : commits trace = [] := by
  refine List.flatMap_eq_nil_iff.mpr fun e he => ?_
  cases e with
  | commit answer => exact absurd he (h answer)
  | _ => rfl

/-- What a sink promises that can be aborted: before its commit, an abort leaves its destination as it was. -/
def Discards {κ δ : Type} (sink : CompressionSink κ) (k₀ : κ) (destination : κ → δ) : Prop :=
  ∀ {bytes k}, Unfinished sink k₀ [] bytes k → destination (sink.close (sink.abort k)) = destination k₀

theorem Transactional.discards {κ δ : Type} {sink : CompressionSink κ} {k₀ : κ} {destination : κ → δ}
    (h : Transactional sink k₀ destination) : Discards sink k₀ destination :=
  fun hunfinished => h (.aborted (e := .cancelled) (by simp) hunfinished) (by simp)

theorem FileSink.Prior.discards {p : Path} {s₀ : DiskState} {k : FileSink DiskState} (h : Prior p s₀ k) :
    (close diskFileSystem (abort diskFileSystem k)).fs.disk p = s₀.disk p := by
  obtain ⟨es,hruns,hes⟩ := h.runs
  obtain ⟨es',htail,-⟩ := abort_tail h.path_eq
  rw [htail.disk_path]
  exact hruns.chain.frame fun e he => (hes e he).not_touches

/-- An aborted `FileSink` has not touched the file at its path, whichever of its calls failed. -/
theorem FileSink.discards (k₀ : FileSink DiskState) :
    Discards (sink diskFileSystem) k₀ fun k => k.fs.disk k₀.path := by
  intro bytes k h
  cases h with
  | staged hstaged => exact (staged_writing hstaged).toPrior.discards
  | writeFailed more hstaged _ => exact (write_spec (staged_writing hstaged) more).1.discards

/-- The same job, never cancelled. -/
abbrev RunContext.uncancelled {σ κ : Type} (ctx : RunContext σ κ) : RunContext σ κ :=
  ctx.withSink ctx.sink fun _ => false

namespace Compressor

variable {σ κ : Type} {ctx : RunContext σ κ}

/-- The loads so far gave what the flag was. -/
structure Answered (ctx : RunContext σ κ) (s : RunState σ κ) : Prop where
  loads_eq : s.loads = loads s.trace
  answers : Histories.Each (Answers ctx.cancelRequested) s.trace

/-- A call that is no load. -/
theorem Answered.more {s s' : RunState σ κ} (h : Answered ctx s) (e : IoEvent) (he : e.isLoad = false)
    (hloads : s'.loads = s.loads) (htrace : s'.trace = s.trace ++ [e]) : Answered ctx s' := by
  refine ⟨?_,?_⟩
  · rw [hloads,htrace,h.loads_eq,loads,loads,List.countP_append]
    simp [he]
  · rw [htrace,Histories.each_concat]
    refine ⟨h.answers,?_⟩
    cases e with
    | cancelLoad _ => simp [IoEvent.isLoad] at he
    | _ => trivial

theorem Answered.load {s : RunState σ κ} (h : Answered ctx s) : Answered ctx { s with
    loads := s.loads + 1, trace := s.trace ++ [.cancelLoad (ctx.cancelRequested s.loads)] } := by
  refine ⟨?_,Histories.each_concat.mpr ⟨h.answers,?_⟩⟩
  · rw [h.loads_eq,loads,loads,List.countP_append]
    rfl
  · exact congrArg ctx.cancelRequested h.loads_eq

/-- A run that the flag has stopped. -/
structure CancelledRun (ctx : RunContext σ κ) (r : CompressionResult) (s : RunState σ κ) : Prop where
  error_eq : r.error = .cancelled
  answered : Answered ctx s
  seen : .cancelLoad true ∈ s.trace

/-- The same run twice, with and without the flag. -/
abbrev SameRun (ctx : RunContext σ κ) : RunState σ κ → RunState σ κ → Prop := Both (Answered ctx)

abbrev flagExits (ctx : RunContext σ κ) : Proc.Exits CompressionResult (RunState σ κ) (RunState σ κ) :=
  sessionExits (SameRun ctx) (fun _ => SameRun ctx) fun r s _ => CancelledRun ctx r s

/-- The check of the flag is passed by both runs, or it stops the one that looks at the flag. -/
theorem shouldAbortForCancel_lockstep (r : CompressionResult) :
    Proc.Lockstep (flagExits ctx) (SameRun ctx) (shouldAbortForCancel ctx r)
      (shouldAbortForCancel ctx.uncancelled r) fun _ => SameRun ctx := by
  refine ⟨fun t => List.prefix_append _ _,?_⟩
  rintro s _ ⟨rfl,h⟩
  have hload := h.load
  cases hflag : ctx.cancelRequested s.loads with
  | false =>
    rw [hflag] at hload
    have hsame : shouldAbortForCancel ctx r s = shouldAbortForCancel ctx.uncancelled r s := by
      simp [shouldAbortForCancel,Proc.bind_apply,loadCancel,Proc.lift,hflag]
    rw [hsame]
    exact .done ⟨rfl,hload⟩
  | true =>
    rw [hflag] at hload
    have hstop : shouldAbortForCancel ctx r s = (.returned { r with error := .cancelled },
        { s with loads := s.loads + 1, trace := s.trace ++ [.cancelLoad true] }) := by
      simp [shouldAbortForCancel,Proc.bind_apply,loadCancel,Proc.lift,hflag,Proc.returnIf,Proc.ret]
    rw [hstop]
    exact .stopped (t := s) ⟨rfl,hload,by simp⟩ (List.prefix_append _ _)

/-- After a call both runs are still the same one. -/
theorem Answered.afterCall {s : RunState σ κ} (h : Answered ctx s) (e : CompressionError) :
    AfterCall (SameRun ctx) (fun _ => SameRun ctx) e s s :=
  ⟨fun _ => ⟨rfl,h⟩,fun _ _ _ => ⟨rfl,h⟩⟩

/-- What the calls do to a run and the same run without a flag. -/
theorem sameRun (ctx : RunContext σ κ) : Coupled ctx ctx.sink (fun _ => false) (SameRun ctx) (SameRun ctx)
    (SameRun ctx) (fun _ => SameRun ctx) fun r s _ => CancelledRun ctx r s where
  source_eq h := by rw [h.1]
  heap_eq h := by rw [h.1]
  bytesWritten_eq h := by rcases h with h | h <;> rw [h.1]
  returns h _ _ := h
  asks := by
    rintro s _ ⟨rfl,h⟩ source e he
    exact ⟨rfl,h.more e he.not_load rfl rfl⟩
  readFails := by
    rintro s _ ⟨rfl,h⟩ source n e data _ r _
    exact ⟨rfl,h.more _ rfl rfl rfl⟩
  allocates := by
    rintro s _ ⟨rfl,h⟩ heap
    exact ⟨rfl,h.loads_eq,h.answers⟩
  cancels := shouldAbortForCancel_lockstep
  checked h := h
  writes r bytes := by
    refine writeOrReturn_alike r bytes (fun _ _ h => h) ?_
    rintro s _ ⟨rfl,h⟩
    have hmore : Answered ctx { s with
        sink := (ctx.sink.write bytes s.sink).2
        trace := s.trace ++ [.write bytes (ctx.sink.write bytes s.sink).1] } :=
      h.more (.write bytes (ctx.sink.write bytes s.sink).1) rfl rfl rfl
    exact ⟨rfl,hmore.afterCall _⟩
  commits r := by
    refine commitSession_alike r (fun _ _ h => h) ?_
    rintro s _ ⟨rfl,h⟩
    have hmore : Answered ctx { s with
        sink := (ctx.sink.commit s.sink).2
        trace := s.trace ++ [.commit (ctx.sink.commit s.sink).1] } :=
      h.more (.commit (ctx.sink.commit s.sink).1) rfl rfl rfl
    exact ⟨rfl,fun _ => ⟨rfl,hmore.loads_eq,hmore.answers⟩,fun _ _ _ => ⟨rfl,hmore⟩⟩
  reports := by
    rintro s _ ⟨rfl,h⟩ report
    exact ⟨rfl,h.more _ rfl rfl rfl⟩

theorem Answered.destroy {s : RunState σ κ} (h : Answered ctx s) : Answered ctx (destroySession ctx s) := by
  have hclose : ∀ s : RunState σ κ, Answered ctx s → Answered ctx { s with
      sink := ctx.sink.close s.sink
      source := ctx.source.close s.source
      trace := s.trace ++ [.sinkClose,.sourceClose] } := by
    intro s h
    have hsink : Answered ctx { s with trace := s.trace ++ [.sinkClose] } := h.more .sinkClose rfl rfl rfl
    exact hsink.more .sourceClose rfl rfl (by simp)
  unfold destroySession
  split_ifs
  · exact hclose _ (h.more .abort rfl rfl rfl)
  · exact hclose _ h

theorem CancelledRun.destroy {r : CompressionResult} {s : RunState σ κ} (h : CancelledRun ctx r s) :
    CancelledRun ctx r (destroySession ctx s) := by
  refine ⟨h.error_eq,h.answered.destroy,?_⟩
  unfold destroySession
  split_ifs <;> simp [h.seen]

theorem openSession_lockstep (r : CompressionResult) : Proc.Lockstep (flagExits ctx) (SameRun ctx)
    (openSession ctx r) (openSession ctx.uncancelled r) fun _ => SameRun ctx := by
  have hopened : Proc.Lockstep (flagExits ctx) (SameRun ctx) (Proc.modify fun s => { s with opened := true })
      (Proc.modify fun s => { s with opened := true }) fun _ => SameRun ctx := by
    refine .modify (fun _ => List.prefix_refl _) ?_
    rintro s _ ⟨rfl,h⟩
    exact ⟨rfl,h.loads_eq,h.answers⟩
  refine call_then (R := SameRun ctx) id r (fun _ => List.prefix_append _ _) ?_ fun _ => ?_
  · rintro s _ ⟨rfl,h⟩
    have hmore : Answered ctx { s with
        source := (ctx.source.open' s.source).2
        trace := s.trace ++ [.sourceOpen (ctx.source.open' s.source).1] } :=
      h.more (.sourceOpen (ctx.source.open' s.source).1) rfl rfl rfl
    exact ⟨rfl,hmore.afterCall _⟩
  · refine call_then (R := SameRun ctx) id r (fun _ => List.prefix_append _ _) ?_ fun _ =>
      hopened.mono (fun _ _ h => h.1) fun _ _ _ h => h
    rintro s _ ⟨⟨rfl,h⟩,_⟩
    have hmore : Answered ctx { s with
        sink := (ctx.sink.open' s.sink).2
        trace := s.trace ++ [.sinkOpen (ctx.sink.open' s.sink).1] } :=
      h.more (.sinkOpen (ctx.sink.open' s.sink).1) rfl rfl rfl
    exact ⟨rfl,hmore.afterCall _⟩

/-- The job goes as it would without the flag, or the flag stops it. -/
theorem runSyncJob_lockstep (fuel : ℕ) :
    Proc.Lockstep (flagExits ctx) (SameRun ctx) (runSyncJob ctx fuel) (runSyncJob ctx.uncancelled fuel)
      fun _ => SameRun ctx := by
  have hdestroy : ∀ s t, SameRun ctx s t → SameRun ctx (destroySession ctx s)
      (destroySession ctx.uncancelled t) := by
    rintro s _ ⟨rfl,h⟩
    exact ⟨rfl,h.destroy⟩
  refine (sameRun ctx).runSyncJob ?_ (fun _ _ h _ _ => h) openSession_lockstep (fun _ => hdestroy)
    (fun _ s t h => hdestroy s t h.2) (fun _ _ _ h => h.destroy) fuel
  rintro s _ ⟨rfl,_⟩
  rfl

variable (ctx)

/-- The start of a run. -/
theorem Answered.start (source : σ) (k₀ : κ) (heap : Heap) : Answered ctx (.start source k₀ heap) :=
  ⟨rfl,Histories.each_nil⟩

theorem same_or_cancelled (fuel : ℕ) (source : σ) (k₀ : κ) (heap : Heap) :
    runSyncJob ctx fuel (.start source k₀ heap) = runSyncJob ctx.uncancelled fuel (.start source k₀ heap) ∧
        Answered ctx (runSyncJob ctx fuel (.start source k₀ heap)).2 ∨
      ∃ r s, runSyncJob ctx fuel (.start source k₀ heap) = (.returned r,s) ∧ CancelledRun ctx r s := by
  have hends := (runSyncJob_lockstep fuel).ends _ _ ⟨rfl,Answered.start ctx source k₀ heap⟩
  have hsafe := @runSyncJob_calls _ _ ctx k₀ fuel source heap
  unfold Proc.wp at hsafe
  generalize runSyncJob ctx fuel (.start source k₀ heap) = x at hends hsafe ⊢
  generalize runSyncJob ctx.uncancelled fuel (.start source k₀ heap) = y at hends ⊢
  cases hends with
  | done hsame =>
    obtain ⟨rfl,hanswered⟩ := hsame
    exact .inl ⟨rfl,hanswered⟩
  | returned hsame =>
    obtain ⟨rfl,hanswered⟩ := hsame
    exact .inl ⟨rfl,hanswered⟩
  | pending hsame =>
    obtain ⟨rfl,hanswered⟩ := hsame
    exact .inl ⟨rfl,hanswered⟩
  | undefined => exact hsafe.elim
  | stopped hstopped _ => exact .inr ⟨_,_,rfl,hstopped⟩

theorem Calls.checksCommit {ctx : RunContext σ κ} {k₀ : κ} {r : CompressionResult} {s : RunState σ κ} (h : Calls ctx k₀ r s) :
    Histories.Each ChecksCommit s.trace := by
  rcases h with ⟨-,htrace,-⟩ | ⟨-,htrace⟩
  · rw [htrace]
    exact Histories.each_nil
  · exact htrace.checksCommit

/-- Every commit of a job, and of one that is still running, comes right after a load of the flag. -/
theorem runSyncJob_checksCommit (fuel : ℕ) (source : σ) (k₀ : κ) (heap : Heap) :
    Histories.Each ChecksCommit (Proc.exec (runSyncJob ctx fuel) (.start source k₀ heap)).2.trace := by
  rcases Proc.exec_cases (@runSyncJob_calls _ _ ctx k₀ fuel source heap) with ⟨r,-,hcalls⟩ | ⟨-,hopened⟩
  · exact hcalls.checksCommit
  · obtain ⟨body,htrace,hbody⟩ := hopened.trace_eq
    rw [htrace]
    exact checksCommit_of_goesOn hbody

/-- A job with a cancel flag goes exactly as it would without it, or it is cancelled: the sink is aborted
and its destination stays. It commits only when the flag was clear at the check right before. -/
theorem cancel_all_or_nothing {k₀ : κ} {δ : Type} {destination : κ → δ}
    (hsink : Discards ctx.sink k₀ destination) (fuel : ℕ) (source : σ) (heap : Heap) :
    (Proc.exec (runSyncJob ctx fuel) (.start source k₀ heap) =
        Proc.exec (runSyncJob ctx.uncancelled fuel) (.start source k₀ heap) ∨
      ∃ r s calls, Proc.exec (runSyncJob ctx fuel) (.start source k₀ heap) = (some r,s) ∧
        r.error = .cancelled ∧ destination s.sink = destination k₀ ∧
        s.trace = calls ++ [.cancelLoad true,.abort,.sinkClose,.sourceClose] ∧ ∀ e, .commit e ∉ calls) ∧
    Histories.Each (CommitsClear ctx.cancelRequested)
      (Proc.exec (runSyncJob ctx fuel) (.start source k₀ heap)).2.trace := by
  have hchecks := runSyncJob_checksCommit ctx fuel source k₀ heap
  rcases same_or_cancelled ctx fuel source k₀ heap with ⟨hsame,hanswered⟩ | ⟨r,s,hrun,hcancelled⟩
  · have hexec : Proc.exec (runSyncJob ctx fuel) (.start source k₀ heap) =
        Proc.exec (runSyncJob ctx.uncancelled fuel) (.start source k₀ heap) := by
      unfold Proc.exec
      rw [hsame]
    have hstate : (Proc.exec (runSyncJob ctx fuel) (.start source k₀ heap)).2 =
        (runSyncJob ctx fuel (.start source k₀ heap)).2 := by
      unfold Proc.exec
      rcases runSyncJob ctx fuel (.start source k₀ heap) with ⟨o,s⟩
      cases o <;> rfl
    refine ⟨.inl hexec,commitsClear ?_ hchecks⟩
    rw [hstate]
    exact hanswered.answers
  · have hexec : Proc.exec (runSyncJob ctx fuel) (.start source k₀ heap) = (some r,s) := by
      unfold Proc.exec
      rw [hrun]
    have hends := Proc.exec_of_wp (runSyncJob_ends ctx fuel source heap) hexec
    have hcalls := Proc.exec_of_wp (runSyncJob_calls ctx fuel source heap) hexec
    rw [hexec] at hchecks ⊢
    refine ⟨.inr ?_,commitsClear hcancelled.answered.answers hchecks⟩
    rcases hcalls with ⟨-,htrace,-⟩ | ⟨-,htrace⟩
    · have hseen := hcancelled.seen
      rw [htrace] at hseen
      exact absurd hseen List.not_mem_nil
    · obtain ⟨body,htrace,hbody⟩ := htrace.cancelled hcancelled.seen
      have hcommits : ∀ e, .commit e ∉ opens ++ body := by
        intro e he
        rcases List.mem_append.mp he with he | he
        · simp [opens] at he
        · exact (hbody _ he).not_commit
      refine ⟨r,s,opens ++ body,rfl,hcancelled.error_eq,?_,by simp [htrace],hcommits⟩
      have hnone : commits s.trace = [] := by
        rw [htrace,← List.append_assoc,commits_append,commits_append,commits_eq_nil hcommits]
        rfl
      have hopened : sinkOpened s.trace = true := by simp [sinkOpened,htrace,opens]
      unfold EndsSession at hends
      rw [hnone,hopened,hcancelled.error_eq] at hends
      generalize s.sink = k at hends ⊢
      cases hends with
      | aborted _ hunfinished => exact hsink hunfinished

/-- A compression into a vector that is cancelled before its second look at the flag. -/
theorem cancel_all_or_nothing_vector :
    let ctx : RunContext BufferSource DynamicBufferSink := {
      operation := .compress
      source := BufferSource.source
      sink := DynamicBufferSink.sink
      cancelRequested := fun n => decide (1 ≤ n) }
    let start : RunState BufferSource DynamicBufferSink := .start ⟨[1,2,3],0,false⟩ ⟨[7],.new,false,.unlimited⟩ .unlimited
    (Proc.exec (runSyncJob ctx 5) start = Proc.exec (runSyncJob ctx.uncancelled 5) start ∨
      ∃ r s calls, Proc.exec (runSyncJob ctx 5) start = (some r,s) ∧ r.error = .cancelled ∧ s.sink.out = [7] ∧
        s.trace = calls ++ [.cancelLoad true,.abort,.sinkClose,.sourceClose] ∧ ∀ e, .commit e ∉ calls) ∧
    Histories.Each (CommitsClear ctx.cancelRequested) (Proc.exec (runSyncJob ctx 5) start).2.trace :=
  cancel_all_or_nothing _ (Transactional.discards (DynamicBufferSink.transactional _)) 5 _ _

end Compressor
end EspCompressor
