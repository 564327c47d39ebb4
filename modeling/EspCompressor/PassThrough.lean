import EspCompressor.Salvage

/-! Sinks that hand on what is written at once, as the print device does: what has gone out when a job
ends, however it ends, and what a decompression at the other end makes of it. -/
namespace EspCompressor

variable {σ κ : Type}

/-! ### A sink and the calls made to it -/

/-- What a call does to the sink. -/
def IoEvent.onSink (sink : CompressionSink κ) (k : κ) : IoEvent → κ
  | .sinkOpen _ => (sink.open' k).2
  | .write bytes _ => (sink.write bytes k).2
  | .commit _ => (sink.commit k).2
  | .abort => sink.abort k
  | .sinkClose => sink.close k
  | _ => k

/-- The call reports what the sink answers. -/
def IoEvent.AnsweredBy (sink : CompressionSink κ) (k : κ) : IoEvent → Prop
  | .sinkOpen e => (sink.open' k).1 = e
  | .write bytes e => (sink.write bytes k).1 = e
  | .commit e => (sink.commit k).1 = e
  | _ => True

/-- The sink after the calls of a trace. -/
def play (sink : CompressionSink κ) (k₀ : κ) (trace : List IoEvent) : κ :=
  trace.foldl (IoEvent.onSink sink) k₀

@[simp] theorem play_nil (sink : CompressionSink κ) (k₀ : κ) : play sink k₀ [] = k₀ := rfl

@[simp] theorem play_append (sink : CompressionSink κ) (k₀ : κ) (trace more : List IoEvent) :
    play sink k₀ (trace ++ more) = play sink (play sink k₀ trace) more := List.foldl_append

@[simp] theorem play_cons (sink : CompressionSink κ) (k₀ : κ) (e : IoEvent) (trace : List IoEvent) :
    play sink k₀ (e :: trace) = play sink (e.onSink sink k₀) trace := rfl

/-- The sink of a run is what the calls have made of it, and each call reports its answer. -/
structure Played (sink : CompressionSink κ) (k₀ : κ) (s : RunState σ κ) : Prop where
  sink_eq : s.sink = play sink k₀ s.trace
  answers : Histories.Each (fun before e => e.AnsweredBy sink (play sink k₀ before)) s.trace

/-- One call more. -/
theorem Played.more {sink : CompressionSink κ} {k₀ : κ} {s s' : RunState σ κ} (h : Played sink k₀ s) (e : IoEvent)
    (hanswer : e.AnsweredBy sink s.sink) (hsink : s'.sink = e.onSink sink s.sink)
    (htrace : s'.trace = s.trace ++ [e]) : Played sink k₀ s' := by
  refine ⟨?_,?_⟩
  · rw [hsink,htrace,play_append,← h.sink_eq]
    rfl
  · rw [htrace,Histories.each_concat,← h.sink_eq]
    exact ⟨h.answers,hanswer⟩

/-- A call that the sink takes no part in. -/
theorem IoEvent.Asks.onSink_eq {e : IoEvent} (h : e.Asks) (sink : CompressionSink κ) (k : κ) :
    e.onSink sink k = k ∧ e.AnsweredBy sink k := by
  cases e <;> first | exact ⟨rfl,trivial⟩ | exact h.elim

namespace Compressor

variable {ctx : RunContext σ κ} {k₀ : κ}

/-- The same run twice. -/
abbrev Replays (sink : CompressionSink κ) (k₀ : κ) : RunState σ κ → RunState σ κ → Prop := Both (Played sink k₀)

/-- What the calls of a session do to the sink is on record. -/
theorem replayed (ctx : RunContext σ κ) (k₀ : κ) : Coupled ctx ctx.sink ctx.cancelRequested (Replays ctx.sink k₀)
    (Replays ctx.sink k₀) (Replays ctx.sink k₀) (fun _ => Replays ctx.sink k₀) fun _ _ _ => False where
  source_eq h := by rw [h.1]
  heap_eq h := by rw [h.1]
  bytesWritten_eq h := by obtain h | h := h <;> rw [h.1]
  returns h _ _ := h
  asks := by
    rintro s _ ⟨rfl,h⟩ source e he
    obtain ⟨hsink,hanswer⟩ := he.onSink_eq ctx.sink s.sink
    exact ⟨rfl,h.more e hanswer hsink.symm rfl⟩
  readFails := by
    rintro s _ ⟨rfl,h⟩ source n e data _ r _
    exact ⟨rfl,h.more (.read n e data) trivial rfl rfl⟩
  allocates := by
    rintro s _ ⟨rfl,h⟩ heap
    exact ⟨rfl,h.sink_eq,h.answers⟩
  cancels r := by
    refine Proc.Lockstep.bind (Q := fun _ => Replays ctx.sink k₀) (.lift (fun _ => List.prefix_append _ _) ?_)
      fun _ => (Proc.Lockstep.returnIf fun _ _ _ h => h).mono (fun _ _ h => h) fun _ _ _ h => h.1
    rintro s _ ⟨rfl,h⟩
    exact ⟨rfl,rfl,h.more (.cancelLoad (ctx.cancelRequested s.loads)) trivial rfl rfl⟩
  checked h := h
  writes r bytes := by
    refine writeOrReturn_alike r bytes (fun _ _ h => h) ?_
    rintro s _ ⟨rfl,h⟩
    have hmore : Played ctx.sink k₀ { s with
        sink := (ctx.sink.write bytes s.sink).2
        trace := s.trace ++ [.write bytes (ctx.sink.write bytes s.sink).1] } :=
      h.more (.write bytes (ctx.sink.write bytes s.sink).1) rfl rfl rfl
    exact ⟨rfl,fun _ => ⟨rfl,hmore⟩,fun _ _ _ => ⟨rfl,hmore⟩⟩
  commits r := by
    refine commitSession_alike r (fun _ _ h => h) ?_
    rintro s _ ⟨rfl,h⟩
    have hmore : Played ctx.sink k₀ { s with
        sink := (ctx.sink.commit s.sink).2
        trace := s.trace ++ [.commit (ctx.sink.commit s.sink).1] } :=
      h.more (.commit (ctx.sink.commit s.sink).1) rfl rfl rfl
    exact ⟨rfl,fun _ => ⟨rfl,hmore.sink_eq,hmore.answers⟩,fun _ _ _ => ⟨rfl,hmore⟩⟩
  reports := by
    rintro s _ ⟨rfl,h⟩ report
    exact ⟨rfl,h.more (.progress report) trivial rfl rfl⟩

theorem destroySession_played {s : RunState σ κ} (h : Played ctx.sink k₀ s) :
    Played ctx.sink k₀ (destroySession ctx s) := by
  have hclose : ∀ s : RunState σ κ, Played ctx.sink k₀ s → Played ctx.sink k₀ { s with
      sink := ctx.sink.close s.sink
      source := ctx.source.close s.source
      trace := s.trace ++ [.sinkClose,.sourceClose] } := by
    intro s h
    have hsink : Played ctx.sink k₀ { s with
        sink := ctx.sink.close s.sink
        trace := s.trace ++ [.sinkClose] } := h.more .sinkClose trivial rfl rfl
    exact hsink.more .sourceClose trivial rfl (by simp)
  unfold destroySession
  split_ifs
  · exact hclose { s with sink := ctx.sink.abort s.sink, trace := s.trace ++ [.abort] } (h.more .abort trivial rfl rfl)
  · exact hclose s h

theorem openSession_replays (r : CompressionResult) :
    Proc.Lockstep (sessionExits (Replays ctx.sink k₀) (fun _ => Replays ctx.sink k₀) fun _ _ _ => False)
      (Replays ctx.sink k₀) (openSession ctx r) (openSession ctx r) fun _ => Replays ctx.sink k₀ := by
  refine call_then (R := Replays ctx.sink k₀) id r (fun _ => List.prefix_append _ _) ?_ fun _ => ?_
  · rintro s _ ⟨rfl,h⟩
    have hmore : Played ctx.sink k₀ { s with
        source := (ctx.source.open' s.source).2
        trace := s.trace ++ [.sourceOpen (ctx.source.open' s.source).1] } :=
      h.more (.sourceOpen (ctx.source.open' s.source).1) trivial rfl rfl
    exact ⟨rfl,fun _ => ⟨rfl,hmore⟩,fun _ _ _ => ⟨rfl,hmore⟩⟩
  · refine call_then (R := Replays ctx.sink k₀) id r (fun _ => List.prefix_append _ _) ?_ fun _ => ?_
    · rintro s _ ⟨⟨rfl,h⟩,_⟩
      have hmore : Played ctx.sink k₀ { s with
          sink := (ctx.sink.open' s.sink).2
          trace := s.trace ++ [.sinkOpen (ctx.sink.open' s.sink).1] } :=
        h.more (.sinkOpen (ctx.sink.open' s.sink).1) rfl rfl rfl
      exact ⟨rfl,fun _ => ⟨rfl,hmore⟩,fun _ _ _ => ⟨rfl,hmore⟩⟩
    · refine .modify (fun _ => List.prefix_refl _) ?_
      rintro s _ ⟨⟨rfl,h⟩,_⟩
      exact ⟨rfl,h.sink_eq,h.answers⟩

/-- The job, replayed. -/
theorem runSyncJob_replays (fuel : ℕ) :
    Proc.Lockstep (sessionExits (Replays ctx.sink k₀) (fun _ => Replays ctx.sink k₀) fun _ _ _ => False)
      (Replays ctx.sink k₀) (runSyncJob ctx fuel) (runSyncJob ctx fuel) fun _ => Replays ctx.sink k₀ := by
  have hdestroy : ∀ s t, Replays ctx.sink k₀ s t → Replays ctx.sink k₀ (destroySession ctx s) (destroySession ctx t) := by
    rintro s _ ⟨rfl,h⟩
    exact ⟨rfl,destroySession_played h⟩
  refine (replayed ctx k₀).runSyncJob ?_ (fun _ _ h _ _ => h) openSession_replays (fun _ => hdestroy)
    (fun _ s t h => hdestroy s t h.2) (fun _ _ _ hno => hno) fuel
  rintro s _ ⟨rfl,_⟩
  rfl

/-- Whatever a job has come to, its sink is what the calls have made of it. -/
theorem jobRun_played (ctx : RunContext σ κ) (fuel : ℕ) (source : σ) (k₀ : κ) (heap : Heap) :
    Played ctx.sink k₀ (jobRun ctx fuel source k₀ heap).2 := by
  have hstart : Replays ctx.sink k₀ (RunState.start source k₀ heap) (.start source k₀ heap) :=
    ⟨rfl,rfl,Histories.each_nil⟩
  have hsafe : Proc.wp (runSyncJob ctx fuel) (fun _ _ => True) (fun _ _ => True) (fun _ => True)
      (.start source k₀ heap) :=
    Proc.wp_mono (runSyncJob_ends ctx fuel source heap) (fun _ _ _ => trivial) (fun _ _ _ => trivial) fun _ _ => trivial
  have hself := (runSyncJob_replays fuel).wp_self hstart (fun _ _ _ hno => hno) hsafe
  obtain ⟨_,_,_,hplayed⟩ | ⟨_,_,hplayed⟩ := Proc.exec_cases hself
  · exact hplayed
  · exact hplayed

end Compressor

/-! ### What has gone out -/

/-- A sink that hands on what is written at once: the rest of a session changes nothing of what has been received, and
of a write that fails some front may have gone out. -/
structure HandsOn (sink : CompressionSink κ) (received : κ → List UInt8) : Prop where
  opens : ∀ k, received (sink.open' k).2 = received k
  writes : ∀ bytes k, (sink.write bytes k).1 = .ok → received (sink.write bytes k).2 = received k ++ bytes
  fails : ∀ bytes k, ∃ sent, sent <+: bytes ∧ received (sink.write bytes k).2 = received k ++ sent
  commits : ∀ k, received (sink.commit k).2 = received k
  aborts : ∀ k, received (sink.abort k) = received k
  closes : ∀ k, received (sink.close k) = received k

/-- The print device receives what the sink writes, or as much of it as it takes. -/
theorem PrintSink.handsOn : HandsOn PrintSink.sink fun k => k.print.received where
  opens _ := rfl
  writes bytes k hok := by
    simp only [sink] at hok ⊢
    split_ifs at hok ⊢ with hclosed hempty hall
    · rw [List.length_eq_zero_iff.mp hempty,List.append_nil]
    · have hall : min (k.print.accepts k.print.calls) bytes.length = bytes.length := not_not.mp hall
      simp only [Print.write]
      rw [List.take_of_length_le (by omega)]
  fails bytes k := by
    simp only [sink]
    split_ifs with hclosed hempty hall
    · exact ⟨[], List.nil_prefix,(List.append_nil _).symm⟩
    · exact ⟨[], List.nil_prefix,(List.append_nil _).symm⟩
    · exact ⟨_, List.take_prefix _ _,rfl⟩
    · exact ⟨_, List.take_prefix _ _,rfl⟩
  commits _ := rfl
  aborts _ := rfl
  closes _ := rfl

namespace HandsOn

variable {sink : CompressionSink κ} {received : κ → List UInt8}

theorem call_ok (h : HandsOn sink received) {e : IoEvent} {k : κ} (hanswer : e.AnsweredBy sink k) (hok : e.fault = .ok) :
    received (e.onSink sink k) = received k ++ e.written := by
  cases e with
  | write bytes e =>
    obtain rfl : e = .ok := hok
    exact h.writes bytes k hanswer
  | sinkOpen e => exact (h.opens k).trans (List.append_nil _).symm
  | commit e => exact (h.commits k).trans (List.append_nil _).symm
  | abort => exact (h.aborts k).trans (List.append_nil _).symm
  | sinkClose => exact (h.closes k).trans (List.append_nil _).symm
  | _ => exact (List.append_nil _).symm

/-- Of a call that fails, some front of what would have gone out. -/
theorem call_fails (h : HandsOn sink received) (e : IoEvent) (k : κ) :
    ∃ sent, sent <+: e.cleared.written ∧ received (e.onSink sink k) = received k ++ sent := by
  cases e with
  | write bytes e => exact h.fails bytes k
  | sinkOpen e => exact ⟨[], List.nil_prefix,(h.opens k).trans (List.append_nil _).symm⟩
  | commit e => exact ⟨[], List.nil_prefix,(h.commits k).trans (List.append_nil _).symm⟩
  | abort => exact ⟨[], List.nil_prefix,(h.aborts k).trans (List.append_nil _).symm⟩
  | sinkClose => exact ⟨[], List.nil_prefix,(h.closes k).trans (List.append_nil _).symm⟩
  | _ => exact ⟨[], List.nil_prefix,(List.append_nil _).symm⟩

/-- Without faults, what has been written. -/
theorem play_untroubled (h : HandsOn sink received) {k₀ : κ} {trace : List IoEvent}
    (hanswers : Histories.Each (fun before e => e.AnsweredBy sink (play sink k₀ before)) trace) (hok : Untroubled trace) :
    received (play sink k₀ trace) = received k₀ ++ written trace := by
  induction trace using List.reverseRecOn with
  | nil => exact (List.append_nil _).symm
  | append_singleton trace e ih =>
    obtain ⟨hbefore,hanswer⟩ := Histories.each_concat.mp hanswers
    have hih := ih hbefore fun x hx => hok x (List.mem_append_left _ hx)
    rw [play_append,play_cons,play_nil,h.call_ok hanswer (hok e (by simp)),hih,written_append,written_cons,written_nil,
      List.append_nil,List.append_assoc]

theorem play_ends (h : HandsOn sink received) {last : List IoEvent} (hlast : ∀ e ∈ last, e.EndsSession) (k : κ) :
    received (play sink k last) = received k := by
  induction last generalizing k with
  | nil => rfl
  | cons e last ih =>
    rw [play_cons,ih fun x hx => hlast x (List.mem_cons_of_mem _ hx)]
    have he := hlast e List.mem_cons_self
    cases e with
    | abort => exact h.aborts k
    | sinkClose => exact h.closes k
    | sourceClose => rfl
    | _ => exact he.elim

/-- Up to a fault, some front of what would have been written. -/
theorem play_faulty (h : HandsOn sink received) {k₀ : κ} {trace before : List IoEvent} {failed : IoEvent}
    {error : CompressionError} (hfaulty : FaultyTrace trace before failed error)
    (hanswers : Histories.Each (fun before e => e.AnsweredBy sink (play sink k₀ before)) trace) :
    ∃ sent, sent <+: written (before ++ [failed.cleared]) ∧ received (play sink k₀ trace) = received k₀ ++ sent := by
  obtain ⟨last,rfl,hlast⟩ := hfaulty.trace_eq
  obtain ⟨sent,hsent,hfailed⟩ := h.call_fails failed (play sink k₀ before)
  refine ⟨written before ++ sent,?_,?_⟩
  · rw [written_append,List.prefix_append_right_inj,written_cons,written_nil,List.append_nil]
    exact hsent
  · rw [play_append,play_cons,h.play_ends hlast,hfailed,
      h.play_untroubled (Histories.each_append.mp hanswers).1 hfaulty.before_ok,List.append_assoc]

end HandsOn

namespace Compressor

open Container

variable {ctx : RunContext σ κ} {received : κ → List UInt8}

/-- Whatever a job has come to, some front of what it has written without faults by the same moment has gone out, and
all of it if the job returns `Ok`. -/
theorem jobRun_handsOn (h : HandsOn ctx.sink received) (fuel : ℕ) (source : σ) (k₀ : κ) (heap : Heap) :
    ∃ calls sent, calls <+: (jobRun ctx.faultless fuel source k₀ heap).2.trace ∧
      delivered calls = delivered (jobRun ctx fuel source k₀ heap).2.trace ∧ sent <+: written calls ∧
      received (jobRun ctx fuel source k₀ heap).2.sink = received k₀ ++ sent ∧
      ∀ r, (jobRun ctx fuel source k₀ heap).1 = some r → r.error = .ok →
        sent = written (jobRun ctx fuel source k₀ heap).2.trace := by
  have hplayed := jobRun_played ctx fuel source k₀ heap
  obtain ⟨hsame,hok⟩ | ⟨r,s,before,failed,hrun,hfaulty,hlater⟩ := same_or_faulted ctx fuel source k₀ heap
  · refine ⟨(jobRun ctx fuel source k₀ heap).2.trace,_,?_,rfl,List.prefix_refl _,?_,fun _ _ _ => rfl⟩
    · rw [hsame]
    · rw [hplayed.sink_eq]
      exact h.play_untroubled hplayed.answers hok
  · rw [hrun] at hplayed ⊢
    obtain ⟨sent,hsent,hreceived⟩ := h.play_faulty hfaulty hplayed.answers
    refine ⟨before ++ [failed.cleared],sent,hlater,hfaulty.delivered_eq.symm,hsent,?_,fun r' hr' hok => ?_⟩
    · rw [hplayed.sink_eq]
      exact hreceived
    · obtain rfl : r = r' := Option.some.inj hr'
      exact absurd hok hfaulty.error_ne

/-- A decompression sends the front of the data of the sound records that have been delivered; and it returns `Ok` only
when one container is all that has been delivered, and all of its data has been sent. -/
theorem decompress_handsOn (hoperation : ctx.operation = .decompress) (h : HandsOn ctx.sink received) (fuel : ℕ)
    (source : σ) (k₀ : κ) (heap : Heap) :
    let run := jobRun ctx fuel source k₀ heap
    ∃ sent, received run.2.sink = received k₀ ++ sent ∧ sent <+: salvage (delivered run.2.trace) ∧
      ∀ r, run.1 = some r → r.error = .ok → decode (delivered run.2.trace) = .ok (sent,[]) := by
  intro run
  have hruns : ∀ ctx : RunContext σ κ, ctx.operation = .decompress →
      jobRun ctx fuel source k₀ heap = Proc.exec (runDecompress ctx fuel) (.start source k₀ heap) := by
    intro ctx hoperation
    rw [jobRun,runSyncJob,runSyncJobBy,hoperation]
    rfl
  obtain ⟨calls,sent,hcalls,hdelivered,hsent,hreceived,hall⟩ := jobRun_handsOn h fuel source k₀ heap
  refine ⟨sent,hreceived,?_,fun r hr hok => ?_⟩
  · obtain ⟨hvouched,-⟩ := exec_vouched ctx.faultless fuel source k₀ heap
    rw [← hruns ctx.faultless hoperation] at hvouched
    rw [← hdelivered]
    exact hsent.trans (hvouched calls hcalls)
  · obtain ⟨-,hdecodes⟩ := exec_vouched ctx fuel source k₀ heap
    rw [← hruns ctx hoperation] at hdecodes
    rw [hall r hr hok]
    exact hdecodes r hr hok

/-- A container is not the front of another one. -/
theorem eq_of_decode {c front d out : List UInt8} (hc : decode c = .ok (d,[])) (hfront : decode front = .ok (out,[]))
    (h : front <+: c) : front = c ∧ out = d := by
  obtain ⟨rest,rfl⟩ := h
  have hexact : decode (front ++ []) = .ok (out,[]) := by rwa [List.append_nil]
  rw [decode_append hexact rest] at hc
  obtain ⟨rfl,rfl⟩ := Prod.mk.inj (Except.ok.inj hc)
  exact ⟨(List.append_nil front).symm,rfl⟩

end Compressor
end EspCompressor
