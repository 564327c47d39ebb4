import EspCompressor.CallsEnd
import EspCompressor.CancelLatency

/-! Jobs that have been cancelled come to their end, also on sources that never end. -/
namespace EspCompressor
namespace Compressor

variable {σ κ : Type} {ctx : RunContext σ κ}

/-! ### A run and the same run without the flag -/

/-- A run that the flag has stopped, and the same run without a flag, which goes on. -/
def Halted (ctx : RunContext σ κ) (_ : CompressionResult) (s t : RunState σ κ) : Prop :=
  Answered ctx s ∧ ∃ before last, s.trace = before ++ .cancelLoad true :: last ∧ t.trace = before ++ [.cancelLoad false]

abbrev haltExits (ctx : RunContext σ κ) : Proc.Exits CompressionResult (RunState σ κ) (RunState σ κ) :=
  sessionExits (SameRun ctx) (fun _ => SameRun ctx) (Halted ctx)

theorem shouldAbortForCancel_halts (r : CompressionResult) :
    Proc.Lockstep (haltExits ctx) (SameRun ctx) (shouldAbortForCancel ctx r)
      (shouldAbortForCancel ctx.uncancelled r) fun _ => SameRun ctx := by
  refine ⟨fun t => List.prefix_append _ _,?_⟩
  rintro s _ ⟨rfl,h⟩
  have hload := h.load
  have hclear : shouldAbortForCancel ctx.uncancelled r s = (.done (),{ s with
      loads := s.loads + 1, trace := s.trace ++ [.cancelLoad false] }) := by
    simp [shouldAbortForCancel,Proc.bind_apply,loadCancel,Proc.lift,Proc.returnIf]
    rfl
  rw [hclear]
  cases hflag : ctx.cancelRequested s.loads with
  | false =>
    rw [hflag] at hload
    have hsame : shouldAbortForCancel ctx r s = (.done (),{ s with
        loads := s.loads + 1, trace := s.trace ++ [.cancelLoad false] }) := by
      simp [shouldAbortForCancel,Proc.bind_apply,loadCancel,Proc.lift,hflag,Proc.returnIf]
      rfl
    rw [hsame]
    exact .done ⟨rfl,hload⟩
  | true =>
    rw [hflag] at hload
    have hstop : shouldAbortForCancel ctx r s = (.returned { r with error := .cancelled },
        { s with loads := s.loads + 1, trace := s.trace ++ [.cancelLoad true] }) := by
      simp [shouldAbortForCancel,Proc.bind_apply,loadCancel,Proc.lift,hflag,Proc.returnIf,Proc.ret]
    rw [hstop]
    exact .stopped ⟨hload,s.trace,[],rfl,rfl⟩ (List.prefix_refl _)

/-- What the calls do to a run and the same run without a flag, up to the load that finds it set. -/
theorem haltedRun (ctx : RunContext σ κ) : Coupled ctx ctx.sink (fun _ => false) (SameRun ctx) (SameRun ctx)
    (SameRun ctx) (fun _ => SameRun ctx) (Halted ctx) where
  source_eq := (sameRun ctx).source_eq
  heap_eq := (sameRun ctx).heap_eq
  bytesWritten_eq := (sameRun ctx).bytesWritten_eq
  returns := (sameRun ctx).returns
  asks := (sameRun ctx).asks
  readFails := (sameRun ctx).readFails
  allocates := (sameRun ctx).allocates
  cancels := shouldAbortForCancel_halts
  checked := (sameRun ctx).checked
  writes r bytes := by
    refine writeOrReturn_alike r bytes (fun _ _ h => h) ?_
    rintro s _ ⟨rfl,h⟩
    have hmore : Answered ctx { s with
        sink := (ctx.sink.write bytes s.sink).2
        trace := s.trace ++ [.write bytes (ctx.sink.write bytes s.sink).1] } :=
      h.more (.write bytes (ctx.sink.write bytes s.sink).1) rfl rfl rfl
    exact ⟨rfl,hmore.afterCall _⟩
  commits r := by
    refine commitSession_alike r (fun _ _ h => h) ?_
    rintro s _ ⟨rfl,h⟩
    have hmore : Answered ctx { s with
        sink := (ctx.sink.commit s.sink).2
        trace := s.trace ++ [.commit (ctx.sink.commit s.sink).1] } :=
      h.more (.commit (ctx.sink.commit s.sink).1) rfl rfl rfl
    exact ⟨rfl,fun _ => ⟨rfl,hmore.loads_eq,hmore.answers⟩,fun _ _ _ => ⟨rfl,hmore⟩⟩
  reports := (sameRun ctx).reports

theorem openSession_halts (r : CompressionResult) : Proc.Lockstep (haltExits ctx) (SameRun ctx)
    (openSession ctx r) (openSession ctx.uncancelled r) fun _ => SameRun ctx := by
  refine ⟨(openSession_lockstep r).later,?_⟩
  rintro s _ ⟨rfl,h⟩
  have hends := (openSession_lockstep r).ends s s ⟨rfl,h⟩
  rw [show openSession ctx.uncancelled r = openSession ctx r from rfl] at hends ⊢
  generalize openSession ctx r s = x at hends ⊢
  rcases x with ⟨o,s'⟩
  cases o with
  | done a =>
    cases hends with
    | done hsame => exact .done hsame
  | returned r' =>
    cases hends with
    | returned hsame => exact .returned hsame
    | stopped hstopped _ => exact .returned ⟨rfl,hstopped.answered⟩
  | pending =>
    cases hends with
    | pending hsame => exact .pending hsame
  | undefined => exact .undefined

theorem Halted.destroy {r : CompressionResult} {s t : RunState σ κ} (h : Halted ctx r s t) :
    Halted ctx r (destroySession ctx s) t := by
  obtain ⟨hanswered,before,last,hs,ht⟩ := h
  refine ⟨hanswered.destroy,before,?_⟩
  unfold destroySession
  split_ifs
  · exact ⟨last ++ [.abort] ++ [.sinkClose,.sourceClose],by simp [hs],ht⟩
  · exact ⟨last ++ [.sinkClose,.sourceClose],by simp [hs],ht⟩

theorem runSyncJob_halts (fuel : ℕ) :
    Proc.Lockstep (haltExits ctx) (SameRun ctx) (runSyncJob ctx fuel) (runSyncJob ctx.uncancelled fuel)
      fun _ => SameRun ctx := by
  have hdestroy : ∀ s t, SameRun ctx s t → SameRun ctx (destroySession ctx s)
      (destroySession ctx.uncancelled t) := by
    rintro s _ ⟨rfl,h⟩
    exact ⟨rfl,h.destroy⟩
  refine (haltedRun ctx).runSyncJob ?_ (fun _ _ h _ _ => h) openSession_halts (fun _ => hdestroy)
    (fun _ s t h => hdestroy s t h.2) (fun _ _ _ h => h.destroy) fuel
  rintro s _ ⟨rfl,_⟩
  rfl

/-- The run of a job. -/
def jobRun (ctx : RunContext σ κ) (fuel : ℕ) (source : σ) (k₀ : κ) (heap : Heap) :
    Option CompressionResult × RunState σ κ :=
  Proc.exec (runSyncJob ctx fuel) (.start source k₀ heap)

/-- A job goes as it would without the flag, or a load finds the flag set where the other run goes on. -/
theorem same_or_halted (ctx : RunContext σ κ) (fuel : ℕ) (source : σ) (k₀ : κ) (heap : Heap) :
    jobRun ctx fuel source k₀ heap = jobRun ctx.uncancelled fuel source k₀ heap ∧
        Answered ctx (jobRun ctx fuel source k₀ heap).2 ∨
      ∃ r s before last, jobRun ctx fuel source k₀ heap = (some r,s) ∧ Answered ctx s ∧
        s.trace = before ++ .cancelLoad true :: last ∧
        before ++ [.cancelLoad false] <+: (jobRun ctx.uncancelled fuel source k₀ heap).2.trace := by
  have hends := (runSyncJob_halts fuel).ends _ _ ⟨rfl,Answered.start ctx source k₀ heap⟩
  unfold jobRun Proc.exec
  have hsafe := @runSyncJob_calls _ _ ctx k₀ fuel source heap
  unfold Proc.wp at hsafe
  generalize runSyncJob ctx fuel (.start source k₀ heap) = x at hends hsafe ⊢
  generalize runSyncJob ctx.uncancelled fuel (.start source k₀ heap) = y at hends ⊢
  cases hends with
  | done hsame =>
    obtain ⟨rfl,hanswered⟩ := hsame
    exact .inl ⟨rfl,hanswered⟩
  | returned hsame =>
    obtain ⟨rfl,hanswered⟩ := hsame
    exact .inl ⟨rfl,hanswered⟩
  | pending hsame =>
    obtain ⟨rfl,hanswered⟩ := hsame
    exact .inl ⟨rfl,hanswered⟩
  | undefined => exact hsafe.elim
  | @stopped r s t t' o hhalted hlater =>
    obtain ⟨hanswered,before,last,hs,ht⟩ := hhalted
    refine .inr ⟨r,s,before,last,rfl,hanswered,hs,?_⟩
    rw [← ht]
    cases o <;> exact hlater

/-! ### More rounds -/

/-- The trace of the second state goes on from that of the first. -/
abbrev goesOn (ctx : RunContext σ κ) : RunState σ κ → RunState σ κ → Prop := (haltExits ctx).later

theorem destroySession_goesOn (s : RunState σ κ) : goesOn ctx s (destroySession ctx s) := by
  change s.trace <+: _
  unfold destroySession
  split_ifs
  · exact (List.prefix_append _ _).trans (List.prefix_append _ _)
  · exact List.prefix_append _ _

/-- What comes after the block loop of a compression. -/
theorem compressEnd_goesOn (v : CompressVars) (s : RunState σ κ) : goesOn ctx s ((do
    let result ← writeTerminator ctx.uncancelled v
    shouldAbortForCancel ctx.uncancelled result
    let result ← commitSession ctx.uncancelled result
    let produced ← sinkBytesWritten ctx.sink
    let result := { result with outputBytes := produced }
    let _ ← emitProgress { v.progress with
      processedInputBytes := result.inputBytes, producedOutputBytes := produced } result true
    pure result : Proc CompressionResult (RunState σ κ) CompressionResult) s).2 := by
  have hcoupled := haltedRun ctx
  exact (Proc.Lockstep.bind (hcoupled.writeTerminator v) fun _ => Proc.Lockstep.bind (hcoupled.cancels _) fun _ =>
    Proc.Lockstep.bind (hcoupled.commits _) fun r =>
    Proc.Lockstep.bind (.get fun _ _ hC => ⟨hcoupled.bytesWritten_eq (.inr hC.2),hC⟩) fun produced =>
    hcoupled.reportDone { r with outputBytes := produced } rfl _).later s

/-- What comes after the block loop of a decompression. -/
theorem decompressEnd_goesOn (header : EscHeader) (v : DecompressVars) (s : RunState σ κ) : goesOn ctx s ((do
    Proc.returnIf (header.flags &&& kEscHeaderFlagUnknownOriginalSize = 0 ∧
      v.result.outputBytes ≠ header.originalSize) { v.result with error := .corruptData }
    shouldAbortForCancel ctx.uncancelled v.result
    let result ← commitSession ctx.uncancelled v.result
    let result := { result with inputBytes := v.processedCompressedInput }
    let _ ← emitProgress { v.progress with
      processedInputBytes := result.inputBytes, producedOutputBytes := result.outputBytes } result true
    pure result : Proc CompressionResult (RunState σ κ) CompressionResult) s).2 := by
  have hcoupled := haltedRun ctx
  exact (Proc.Lockstep.bind (hcoupled.returnIf fun _ => by simp) fun _ =>
    Proc.Lockstep.bind (hcoupled.cancels _) fun _ => Proc.Lockstep.bind (hcoupled.commits _) fun r =>
    hcoupled.reportDone { r with inputBytes := v.processedCompressedInput } rfl _).later s

/-- With one round more a job without a flag goes on from where it was left. -/
theorem runSyncJob_prolongs (ctx : RunContext σ κ) (fuel : ℕ) :
    Proc.Prolongs (goesOn ctx) (runSyncJob ctx.uncancelled fuel) (runSyncJob ctx.uncancelled (fuel + 1)) := by
  have hcoupled := haltedRun ctx
  cases hop : ctx.operation with
  | compress =>
    simp only [runSyncJob,runSyncJobBy,hop,runCompress]
    refine .after fun _ => .after fun _ => .destroying (.after fun _ => ?_) destroySession_goesOn
    exact .after fun _ => .after fun _ => .after fun _ => .after fun _ => .after fun _ =>
      .bind (.loop (fun v s => (hcoupled.compressRound v).later s) fuel _) compressEnd_goesOn
  | decompress =>
    simp only [runSyncJob,runSyncJobBy,hop,runDecompressBy]
    refine .after fun _ => .destroying (.after fun _ => ?_) destroySession_goesOn
    exact .after fun opened => .after fun _ =>
      .bind (.loop (fun v s => (hcoupled.decompressRoundBy Codec.decompressLzLiteBlock opened.1 v).later s) fuel _)
        (decompressEnd_goesOn opened.1)

section Uncancelled

variable (ctx) (source : σ) (k₀ : κ) (heap : Heap)

theorem uncancelled_grows {m n : ℕ} (h : m ≤ n) :
    (jobRun ctx.uncancelled m source k₀ heap).2.trace <+: (jobRun ctx.uncancelled n source k₀ heap).2.trace := by
  induction n, h using Nat.le_induction with
  | base => exact List.prefix_refl _
  | succ n _ ih =>
    obtain ⟨_,hsame⟩ | ⟨_,hlater⟩ := (runSyncJob_prolongs ctx n).exec (.start source k₀ heap)
    · unfold jobRun at ih ⊢
      rw [hsame]
      exact ih
    · exact ih.trans hlater

theorem uncancelled_answered (n : ℕ) : Answered ctx.uncancelled (jobRun ctx.uncancelled n source k₀ heap).2 := by
  obtain ⟨_,hanswered⟩ | ⟨r,s,before,last,hrun,hanswered,_⟩ := same_or_halted ctx.uncancelled n source k₀ heap
  · exact hanswered
  · rw [hrun]
    exact hanswered

/-- A job that is still running has begun every round, and each has made a call. -/
theorem uncancelled_long {n : ℕ} (h : (jobRun ctx.uncancelled n source k₀ heap).1 = none) :
    n ≤ (jobRun ctx.uncancelled n source k₀ heap).2.trace.length := by
  have hanswered := uncancelled_answered ctx source k₀ heap n
  obtain ⟨r,hr,_⟩ | ⟨_,_,hclear⟩ := Proc.exec_cases (runSyncJob_prompt ctx.uncancelled n source k₀ heap)
  · unfold jobRun at h
    rw [h] at hr
    cases hr
  · have hloads := hanswered.loads_eq
    have hbegun := hclear.loads
    unfold jobRun at hloads ⊢
    calc n = loads (Proc.exec (runSyncJob ctx.uncancelled n) (.start source k₀ heap)).2.trace := by rw [← hloads,hbegun]
      _ ≤ _ := List.countP_le_length

end Uncancelled

/-- A part of a run in which no load has found the flag set is a part of the run without the flag. -/
theorem prefix_uncancelled {fuel : ℕ} {source : σ} {k₀ : κ} {heap : Heap} {trace : List IoEvent}
    (h : trace <+: (jobRun ctx fuel source k₀ heap).2.trace) (hclear : .cancelLoad true ∉ trace) :
    trace <+: (jobRun ctx.uncancelled fuel source k₀ heap).2.trace := by
  obtain ⟨hsame,_⟩ | ⟨r,s,before,last,hrun,_,htrace,hlater⟩ := same_or_halted ctx fuel source k₀ heap
  · rwa [hsame] at h
  · rw [hrun] at h
    rw [htrace] at h
    have hbefore : before <+: before ++ .cancelLoad true :: last := List.prefix_append _ _
    obtain hlt | hle := Nat.lt_or_ge before.length trace.length
    · refine absurd ?_ hclear
      have hset : before ++ [.cancelLoad true] <+: trace := by
        have hfound : before ++ [.cancelLoad true] <+: before ++ .cancelLoad true :: last := ⟨last,by simp⟩
        exact List.prefix_of_prefix_length_le hfound h (by simpa using hlt)
      exact hset.subset (by simp)
    · exact (List.prefix_of_prefix_length_le h hbefore hle).trans ((List.prefix_append _ _).trans hlater)

/-! ### A run goes on -/

/-- What the flag answers next is what it answered in another run so far. -/
theorem Answered.next {s : RunState σ κ} (h : Answered ctx s) {trace : List IoEvent} {e : IoEvent}
    (hnext : trace ++ [e] <+: s.trace) {answer : Bool} (he : e = .cancelLoad answer) :
    answer = ctx.cancelRequested (loads trace) := by
  obtain ⟨after,hafter⟩ := hnext
  have hanswers := h.answers trace e after (by rw [← hafter,List.append_assoc,List.singleton_append])
  rw [he] at hanswers
  exact hanswers

/-- A run that has come this far under some flag can make one more call, a load of the flag giving `flag`, or it
has returned. -/
def CanGoOn (ctx : RunContext σ κ) (source : σ) (k₀ : κ) (trace : List IoEvent) (flag : Bool) : Prop :=
  ∃ fuel cancelRequested heap, let run := jobRun (ctx.withSink ctx.sink cancelRequested) fuel source k₀ heap
    (∃ e, trace ++ [e] <+: run.2.trace ∧ ∀ answer, e = .cancelLoad answer → answer = flag) ∨
      ∃ r, run.1 = some r ∧ run.2.trace = trace

theorem next_of_prefix {trace whole : List IoEvent} (h : trace <+: whole) :
    trace = whole ∨ ∃ e, trace ++ [e] <+: whole := by
  obtain ⟨after,rfl⟩ := h
  cases after with
  | nil => exact .inl (List.append_nil _).symm
  | cons e after => exact .inr ⟨e,after,by simp⟩

/-- A run that returns, or that goes further. -/
theorem CanGoOn.of_run {source : σ} {k₀ : κ} {trace : List IoEvent} {flag : Bool} (fuel : ℕ)
    (cancelRequested : ℕ → Bool) (heap : Heap) {run : Option CompressionResult × RunState σ κ}
    (hrun : jobRun (ctx.withSink ctx.sink cancelRequested) fuel source k₀ heap = run) (h : trace <+: run.2.trace)
    (hends : trace = run.2.trace → ∃ r, run.1 = some r)
    (hflag : ∀ e, trace ++ [e] <+: run.2.trace → ∀ answer, e = .cancelLoad answer → answer = flag) :
    CanGoOn ctx source k₀ trace flag := by
  refine ⟨fuel,cancelRequested,heap,?_⟩
  rw [hrun]
  obtain hsame | ⟨e,hnext⟩ := next_of_prefix h
  · obtain ⟨r,hr⟩ := hends hsame
    exact .inr ⟨r,hr,hsame.symm⟩
  · exact .inl ⟨e,hnext,hflag e hnext⟩

section GoesOn

variable {fuel : ℕ} {source : σ} {k₀ : κ} {heap : Heap} {trace : List IoEvent}

/-- The calls of a run that a load has found cancelled: that load is the only such one, and three follow it. -/
theorem run_cancelled (hset : .cancelLoad true ∈ (jobRun ctx fuel source k₀ heap).2.trace) :
    ∃ r s body, jobRun ctx fuel source k₀ heap = (some r,s) ∧
      s.trace = body ++ .cancelLoad true :: [.abort,.sinkClose,.sourceClose] ∧ .cancelLoad true ∉ body := by
  have hclear : ∀ {body : List IoEvent}, (∀ x ∈ body, x.GoesOn) → IoEvent.cancelLoad true ∉ opens ++ body := by
    intro body hbody hmem
    obtain hmem | hmem := List.mem_append.mp hmem
    · simp [opens] at hmem
    · exact absurd (hbody _ hmem) (show ¬(true = false) by simp)
  unfold jobRun at hset ⊢
  obtain ⟨r,hr,hcalls⟩ | ⟨_,hopened⟩ := Proc.exec_cases (@runSyncJob_calls _ _ ctx k₀ fuel source heap)
  · obtain ⟨_,hnone,_⟩ | ⟨_,htrace⟩ := hcalls
    · rw [hnone] at hset
      exact absurd hset List.not_mem_nil
    · obtain ⟨body,hbody,hgoes⟩ := htrace.cancelled hset
      exact ⟨r,_,opens ++ body,Prod.ext hr rfl,by simp [hbody],hclear hgoes⟩
  · obtain ⟨body,htrace,hbody⟩ := hopened.trace_eq
    rw [htrace] at hset
    exact absurd hset (hclear hbody)

/-- After a load that has found the flag set a run closes its session and returns. -/
theorem CanGoOn.cancelled (h : trace <+: (jobRun ctx fuel source k₀ heap).2.trace) (hset : .cancelLoad true ∈ trace)
    (flag : Bool) : CanGoOn ctx source k₀ trace flag := by
  obtain ⟨r,s,body,hrun,htrace,hbody⟩ := run_cancelled (h.subset hset)
  rw [hrun] at h
  refine .of_run fuel ctx.cancelRequested heap hrun h (fun _ => ⟨r,rfl⟩) fun e hnext answer he => ?_
  -- The next call is one of the last three.
  obtain ⟨before,after,rfl⟩ := List.append_of_mem hset
  obtain ⟨rest,hrest⟩ := hnext
  rw [htrace,List.append_assoc,List.append_assoc,List.cons_append,eq_comm] at hrest
  obtain ⟨_,_,hlast⟩ := (List.append_cons_inj_of_notMem hbody (by simp)).mp hrest
  have hmem : e ∈ [IoEvent.abort,.sinkClose,.sourceClose] := by
    rw [hlast]
    simp
  subst he
  simp at hmem

/-- While the flag is clear. -/
theorem CanGoOn.clear (h : trace <+: (jobRun ctx fuel source k₀ heap).2.trace) (hclear : .cancelLoad true ∉ trace) :
    CanGoOn ctx source k₀ trace false := by
  have hpre := (prefix_uncancelled h hclear).trans
    (uncancelled_grows ctx source k₀ heap (le_max_left fuel (trace.length + 1)))
  have hlong := @uncancelled_long _ _ ctx source k₀ heap (max fuel (trace.length + 1))
  refine .of_run (max fuel (trace.length + 1)) (fun _ => false) heap rfl hpre (fun hsame => ?_)
    fun e hnext answer he => (uncancelled_answered ctx source k₀ heap _).next hnext he
  rw [← Option.isSome_iff_exists,Option.isSome_iff_ne_none]
  intro hnone
  have hlength := hlong hnone
  rw [← congrArg List.length hsame] at hlength
  omega

/-- The flag is set where the next load is. -/
theorem CanGoOn.set (h : trace <+: (jobRun ctx fuel source k₀ heap).2.trace) (hclear : .cancelLoad true ∉ trace) :
    CanGoOn ctx source k₀ trace true := by
  have hpre := (prefix_uncancelled h hclear).trans
    (uncancelled_grows ctx source k₀ heap (le_max_left fuel (loads trace + 1)))
  let late : RunContext σ κ := ctx.withSink ctx.sink fun n => decide (loads trace ≤ n)
  have hset : ∀ {answer}, answer = late.cancelRequested (loads trace) → answer = true := fun h => by simpa [late] using h
  obtain ⟨hsame,hanswered⟩ | ⟨r,s,before,last,hrun,hanswered,htrace,hlater⟩ :=
    same_or_halted late (max fuel (loads trace + 1)) source k₀ heap
  · -- The run has begun the round of that load, so it does not go on for ever.
    have hreturns : ∃ r, (jobRun late (max fuel (loads trace + 1)) source k₀ heap).1 = some r := by
      obtain ⟨r,hr,_⟩ | ⟨_,_,hnone⟩ := Proc.exec_cases (runSyncJob_prompt late (max fuel (loads trace + 1)) source k₀ heap)
      · exact ⟨r,hr⟩
      · have hfalse := hnone.clear (loads trace) (by omega)
        simp [late] at hfalse
    refine .of_run (max fuel (loads trace + 1)) late.cancelRequested heap rfl ?_ (fun _ => hreturns)
      fun e hnext answer he => hset (hanswered.next hnext he)
    change trace <+: (jobRun late _ source k₀ heap).2.trace
    rw [hsame]
    exact hpre
  · have hbefore : before <+: s.trace := by
      rw [htrace]
      exact List.prefix_append _ _
    obtain hlt | hle := Nat.lt_or_ge before.length trace.length
    · -- The flag was set before that load.
      have hgoes : before ++ [.cancelLoad false] <+: trace :=
        List.prefix_of_prefix_length_le hlater hpre (by simpa using hlt)
      have hloads : loads (before ++ [.cancelLoad false]) ≤ loads trace := hgoes.sublist.countP_le
      have hfound : true = decide (loads trace ≤ loads before) := hanswered.answers before _ last htrace
      have hcount : loads (before ++ [.cancelLoad false]) = loads before + 1 := by simp [loads,IoEvent.isLoad]
      have hle := of_decide_eq_true hfound.symm
      omega
    · have hprior : trace <+: before :=
        List.prefix_of_prefix_length_le hpre ((List.prefix_append _ _).trans hlater) hle
      exact .of_run (max fuel (loads trace + 1)) late.cancelRequested heap hrun (hprior.trans hbefore)
        (fun _ => ⟨r,rfl⟩) fun e hnext answer he => hset (hanswered.next hnext he)

theorem canGoOn (h : trace <+: (jobRun ctx fuel source k₀ heap).2.trace) (flag : Bool) :
    CanGoOn ctx source k₀ trace flag := by
  by_cases hset : .cancelLoad true ∈ trace
  · exact .cancelled h hset flag
  · cases flag with
    | false => exact .clear h hset
    | true => exact .set h hset

end GoesOn

end Compressor

namespace JobControl

open Transitions

/-- Every job goes on until it returns. -/
theorem Body.IsRun.goesOn {body : Body} (h : body.IsRun) : body.GoesOn := by
  obtain ⟨σ,κ,operation,source,sink,options,s₀,k₀,rfl⟩ := h
  intro config trace flag htrace
  let ctx : RunContext σ κ := { config, operation, source, sink, options, cancelRequested := fun _ => false }
  have hgoes : Compressor.CanGoOn ctx s₀ k₀ trace flag := by
    obtain rfl | ⟨fuel,cancelRequested,heap,hpre⟩ := htrace
    · exact @Compressor.canGoOn _ _ ctx 0 s₀ k₀ .unlimited [] List.nil_prefix flag
    · exact @Compressor.canGoOn _ _ (ctx.withSink sink cancelRequested) fuel s₀ k₀ heap trace hpre flag
  obtain ⟨fuel,cancelRequested,heap,⟨e,hnext,hflag⟩ | ⟨r,hr,htrace⟩⟩ := hgoes
  · exact .inl ⟨e,⟨fuel,cancelRequested,heap,hnext⟩,hflag⟩
  · exact .inr ⟨r,fuel,cancelRequested,heap,_,Prod.ext hr rfl,htrace⟩

/-- The calls that a run makes at most between two looks at the flag, whatever it is given. -/
theorem callBound_le (operation : CompressionOperation) (trace : List IoEvent) :
    Compressor.callBound operation trace ≤ 2 ^ 32 + 30 := by
  cases operation with
  | compress => exact Nat.le_add_left 11 (2 ^ 32 + 19)
  | decompress =>
    have hsize := (EscFormat.decodeEscHeader ((delivered trace).take kEscEncodedHeaderSize) {}).2.blockSize.toNat_lt
    change 31 + announcedBlockSize trace ≤ 2 ^ 32 + 30
    unfold announcedBlockSize
    omega

theorem sinceLoad_append {trace more : List IoEvent} (h : ∀ e ∈ more, e.isLoad = false) :
    sinceLoad (trace ++ more) = sinceLoad trace + more.length := by
  induction more using List.reverseRecOn with
  | nil => simp
  | append_singleton more e ih =>
    rw [← List.append_assoc,sinceLoad_concat,h e (by simp),ih fun e he => h e (by simp [he])]
    simp [Nat.add_assoc]

/-- A job whose flag is set makes few more calls. -/
theorem Call.endsBy_of_flag {config : ESPCompressorConfig} {x : Call} (h : x.args.body.IsRun) (hflag : x.flag = true) :
    x.EndsBy config (x.trace.length + 2 ^ 32 + 34) := by
  intro es hes hanswers
  obtain ⟨σ,κ,operation,source,sink,options,s₀,k₀,hbody⟩ := h
  rw [hbody] at hes
  obtain ⟨fuel,cancelRequested,heap,hpre⟩ := hes
  let ctx : RunContext σ κ := { config, operation, source, sink, options, cancelRequested }
  change _ <+: (Compressor.jobRun ctx fuel s₀ k₀ heap).2.trace at hpre
  have hprompt : Prompt (2 ^ 32 + 30) (Compressor.jobRun ctx fuel s₀ k₀ heap).2.trace := by
    unfold Compressor.jobRun
    obtain ⟨_,_,hprompt⟩ | ⟨_,hprompt,_⟩ := Proc.exec_cases (Compressor.runSyncJob_prompt ctx fuel s₀ k₀ heap)
    · exact hprompt.mono (callBound_le _ _)
    · exact hprompt.mono (callBound_le _ _)
  -- What is done before the next look at the flag.
  have hquiet : ∀ more, (∀ e ∈ more, e.isLoad = false) → x.trace ++ more <+: x.trace ++ es → more.length ≤ 2 ^ 32 + 30 := by
    intro more hmore hgrown
    have hsince := hprompt _ (hgrown.trans hpre)
    rw [sinceLoad_append hmore] at hsince
    omega
  rw [List.length_append]
  cases hload : es.find? IoEvent.isLoad with
  | none =>
    have hlength := hquiet es (fun e he => by simpa using List.find?_eq_none.mp hload e he) (List.prefix_refl _)
    omega
  | some e =>
    obtain ⟨hisLoad,first,last,rfl,hfirst⟩ := List.find?_eq_some_iff_append.mp hload
    have hlength := hquiet first (fun e he => by simpa using hfirst e he) ⟨e :: last,by simp⟩
    obtain ⟨answer,rfl⟩ : ∃ answer, e = .cancelLoad answer := by
      cases e with
      | cancelLoad answer => exact ⟨answer,rfl⟩
      | _ => simp [IoEvent.isLoad] at hisLoad
    obtain rfl := hanswers hflag answer (by simp)
    have hset : .cancelLoad true ∈ (Compressor.jobRun ctx fuel s₀ k₀ heap).2.trace := hpre.subset (by simp)
    obtain ⟨r,s,body,hrun,htrace,hbody⟩ := Compressor.run_cancelled hset
    rw [hrun] at hpre
    obtain ⟨rest,hrest⟩ := hpre
    have hsplit : body ++ .cancelLoad true :: [.abort,.sinkClose,.sourceClose] =
        (x.trace ++ first) ++ .cancelLoad true :: (last ++ rest) := by
      rw [← htrace,← hrest]
      simp
    obtain ⟨_,_,hlast⟩ := (List.append_cons_inj_of_notMem hbody (by simp)).mp hsplit
    have hcalls := congrArg List.length hlast
    simp only [List.length_append,List.length_cons,List.length_nil] at hcalls ⊢
    omega

/-- Once the flag is set for the jobs in progress, all calls and `deinit` come to an end, whatever the sources and
the sinks do. -/
theorem cancelled_calls_end {s : State} (h : Reachable Step Initial s)
    (hruns : ∀ c, (s.calls c).pc ≠ .absent → (s.calls c).args.body.IsRun)
    (hcancelled : ∀ c, (s.calls c).pc.mayRun = true → (s.calls c).flag = true) : ∃ bound, Completes s bound := by
  refine Bounded.completes (n := fun c => (s.calls c).trace.length + 2 ^ 32 + 34) ⟨h,fun c hc => ?_⟩
    fun c hc => (hruns c hc).goesOn
  exact Call.endsBy_of_flag (hruns c fun habsent => by simp [habsent,Pc.mayRun] at hc) (hcancelled c hc)

/-- The compression of an endless source. -/
def endlessJob : CallArgs where
  async := true
  operation := .compress
  body := .ofRun .compress Compressor.endlessSource PrintSink.sink { allowPartialOutput := true } () ⟨⟨[],id,0⟩,0,false⟩

/-- A `deinit` that has cancelled that job. -/
theorem cancelled_calls_end_endless : ∃ s bound, Completes s bound ∧ (s.calls 0).args = endlessJob ∧
    (s.calls 0).pc = .running ∧ s.deinits 0 = .polling 0 := by
  have hrun : ∃ s, Steps Step .new [.init {} .ok, .call 0 (.enter endlessJob), .call 0 .create,
      .call 0 .readConfig, .deinit 0 .begin, .deinit 0 .cancel] s ∧ (s.calls 0).args = endlessJob ∧
      (s.calls 0).pc = .running ∧ (s.calls 0).flag = true ∧ (∀ c, c ≠ 0 → (s.calls c).pc = .absent) ∧
      s.deinits 0 = .polling 0 :=
    ⟨_,.cons (.init defaultConfig_valid rfl) <| .cons (.call (.acceptSubmission rfl rfl rfl)) <|
      .cons (.call (.create rfl)) <| .cons (.call (.readConfig rfl)) <| .cons (.begin rfl) <| .one (.cancel rfl),
      rfl,rfl,rfl,fun c hc => by simp [State.setDeinit,State.setShared,hc,State.new],rfl⟩
  obtain ⟨s,hsteps,hargs,hpc,hflag,hothers,hdeinit⟩ := hrun
  have hmade : ∀ c, (s.calls c).pc ≠ .absent → c = 0 := fun c hc => by
    by_contra hne
    exact hc (hothers c hne)
  obtain ⟨bound,hbound⟩ := cancelled_calls_end ⟨_,_,State.new_initial,hsteps⟩
    (fun c hc => by
      rw [hmade c hc,hargs]
      exact ⟨Unit,PrintSink,.compress,_,_,_,_,_,rfl⟩)
    fun c hc => by
      obtain rfl := hmade c fun habsent => by simp [habsent,Pc.mayRun] at hc
      exact hflag
  exact ⟨s,bound,hbound,hargs,hpc,hdeinit⟩

end JobControl
end EspCompressor
