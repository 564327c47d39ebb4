import EspCompressor.ResultOrder

/-! What is left to run of a job after its terminal state has been stored, and after the slot has been
released: what a look at `done()` and the return of `deinit` do not wait for. -/
namespace EspCompressor
namespace JobControl

open Transitions

/-! ### After the terminal state -/

/-- The job has released the slot, has written its result and has made its call of `onComplete`. -/
structure Finished (s : State) (c : ℕ) : Prop where
  released : (s.calls c).pc.owns = false
  free : s.shared.busy = true → ∃ c', c' ≠ c ∧ (s.calls c').pc.owns = true
  written : (c,(s.calls c).result) ∈ s.shared.writes
  notified : (s.calls c).args.onComplete = true → (s.calls c).completions = [(s.calls c).result]

/-- The worker is between the store of the terminal state and the end of `finishAsyncJob`. -/
def Call.Finishing (x : Call) : Prop :=
  x.pc = .copying ∨ (∃ r, x.pc = .publishing r) ∨ (∃ r, x.pc = .notifying r) ∧ x.args.onComplete = true

theorem Call.Finishing.not_finished {s : State} {c : ℕ} (h : (s.calls c).Finishing)
    (hcoherent : (s.calls c).Coherent) : ¬Finished s c := by
  intro hfinished
  have hreleased := hfinished.released
  obtain hpc | ⟨r,hpc⟩ | ⟨⟨r,hpc⟩,hcallback⟩ := h
  · simp [hpc,Pc.owns] at hreleased
  · simp [hpc,Pc.owns] at hreleased
  · have hcompletions := hfinished.notified hcallback
    rw [(hcoherent.notifying hpc).1] at hcompletions
    cases hcompletions

/-- A finished job that can be seen and is past its last step has left nothing to do. -/
theorem Call.Coherent.past {x : Call} (h : x.Coherent) (hasync : x.args.async = true) (hhanded : x.handed = true)
    (hdone : x.state.done = true) (hpast : ¬x.Finishing) :
    x.pc.owns = false ∧ (∀ r, x.pc ≠ .storingLast r) ∧
      (x.args.onComplete = true → x.completions = [x.result]) := by
  cases hpc : x.pc <;> simp_all [Call.Coherent,Call.Finishing,Pc.owns,CompressionJobState.done]

/-- When `done()` returns true for an accepted job, the job is finished exactly if its worker is not between
the store of the terminal state and the end of `finishAsyncJob`. -/
theorem done_iff_finished {s : State} (h : Reachable Step Initial s) {c : ℕ}
    (hasync : (s.calls c).args.async = true) (haccepted : (s.calls c).accepted = true)
    (hhanded : (s.calls c).handed = true) (hdone : (s.calls c).state.done = true) :
    Finished s c ↔ ¬(s.calls c).Finishing := by
  obtain ⟨b,hb⟩ := tracks_of_reachable h
  constructor
  · intro hfinished hfinishing
    exact hfinishing.not_finished (hb.coherent c) hfinished
  · intro hpast
    obtain ⟨howns,hlate,hnotified⟩ := (hb.coherent c).past hasync hhanded hdone hpast
    exact {
      released := howns
      free := fun hbusy => by
        obtain ⟨c',hc'⟩ := hb.busy_iff.mp hbusy
        refine ⟨c',fun hsame => ?_,hc'⟩
        rw [hsame,howns] at hc'
        cases hc'
      written := hb.written_of_ended haccepted howns hlate
      notified := hnotified }

/-- A job whose worker has made its callback. -/
theorem done_iff_finished_ended : ∃ s, Finished s 0 ∧ (s.calls 0).state = .failed ∧
    (s.calls 0).completions = [makeResult .compress .invalidArgument] := by
  have hrun : ∃ s, Steps Step .new [.init {} .ok, .call 0 (.enter (printJob true .compress true)), .call 0 .create,
      .call 0 .handOut, .call 0 .readConfig, .call 0 .leave, .call 0 .storeResult, .call 0 .storeState,
      .call 0 .copy, .call 0 .publish, .call 0 (.complete (makeResult .compress .invalidArgument))] s ∧
      (s.calls 0).args.async = true ∧ (s.calls 0).accepted = true ∧ (s.calls 0).handed = true ∧
      (s.calls 0).pc = .ended ∧ (s.calls 0).state = .failed ∧
      (s.calls 0).completions = [makeResult .compress .invalidArgument] :=
    ⟨_,.cons (.init defaultConfig_valid rfl) <| .cons (.call (.acceptSubmission rfl rfl rfl)) <|
      .cons (.call (.create rfl)) <| .cons (.call (.handOut rfl rfl (.inl rfl))) <| .cons (.call (.readConfig rfl)) <|
      .cons (.call (.leave rfl (printJob_returns true .compress true))) <| .cons (.call (.storeResult rfl)) <|
      .cons (.call (.storeState rfl)) <| .cons (.call (.copy rfl)) <| .cons (.call (.publish rfl)) <|
      .one (.call (.complete rfl rfl)),rfl,rfl,rfl,rfl,rfl,rfl⟩
  obtain ⟨s,hsteps,hasync,haccepted,hhanded,hpc,hstate,hcompletions⟩ := hrun
  have hdone : (s.calls 0).state.done = true := by rw [hstate]; rfl
  have hpast : ¬(s.calls 0).Finishing := by simp [Call.Finishing,hpc]
  exact ⟨s,(done_iff_finished ⟨_,_,State.new_initial,hsteps⟩ hasync haccepted hhanded hdone).mpr hpast,hstate,
    hcompletions⟩

/-- The worker has stored the state of a job and not yet begun `finishAsyncJob`: `done()` returns true, and a
submission is refused because of the job, whose result is not in `_lastResult` and whose callback is to come. -/
theorem done_before_finished : ∃ s, Steps Step .new [.init {} .ok, .call 0 (.enter (printJob true .compress true)),
      .call 0 .create, .call 0 .handOut, .call 0 .readConfig, .call 0 .leave, .call 0 .storeResult,
      .call 0 .storeState] s ∧
    (s.calls 0).accepted = true ∧ (s.calls 0).handed = true ∧ (s.calls 0).state.done = true ∧
    submitRefusal s.shared (printJob true .compress false) = some .busy ∧ s.shared.lastResult ≠ (s.calls 0).result ∧
    (s.calls 0).completions = [] ∧ ¬Finished s 0 := by
  refine ⟨_,.cons (.init defaultConfig_valid rfl) <| .cons (.call (.acceptSubmission rfl rfl rfl)) <|
    .cons (.call (.create rfl)) <| .cons (.call (.handOut rfl rfl (.inl rfl))) <| .cons (.call (.readConfig rfl)) <|
    .cons (.call (.leave rfl (printJob_returns true .compress true))) <| .cons (.call (.storeResult rfl)) <|
    .one (.call (.storeState rfl)),rfl,rfl,rfl,rfl,?_,rfl,fun hfinished => ?_⟩
  · intro hsame
    cases hsame
  · cases hfinished.released

/-! ### After the slot -/

/-- A job that has released the slot and is still to touch the compressor or a callback: a synchronous call
before its write, or a submission before its callback. -/
def Call.Outstanding (x : Call) : Prop :=
  (∃ r, x.pc = .storingLast r) ∨ (∃ r, x.pc = .notifying r) ∧ x.args.onComplete = true

/-- Nothing that an accepted call still does, when no new call is made, touches the compressor or a callback. -/
def Quiescent (s : State) : Prop :=
  ∀ ls s', Steps Step s ls s' → (∀ l ∈ ls, ¬l.Starts) →
    ∀ c a, .call c a ∈ ls → (s.calls c).accepted = true → ¬a.Touches

/-- A call with nothing left to do but to return and to be cancelled. -/
def Call.Idle (x : Call) : Prop := x.pc = .ended ∨ (∃ r, x.pc = .notifying r) ∧ x.args.onComplete = false

theorem CallStep.idle {c : ℕ} {m m' : Shared} {x x' : Call} {a : Action} (h : CallStep c m x a m' x')
    (hstart : ¬(Label.call c a).Starts) :
    x'.accepted = x.accepted ∧ (x.Idle → x'.Idle ∧ ¬a.Touches) := by
  cases h <;> simp_all [Call.Idle,Label.Starts,Action.Touches]

/-- The accepted calls stay idle, and no other call becomes an accepted one. -/
theorem Step.idle {s s' : State} {l : Label} {accepted : ℕ → Bool} (h : Step s l s') (hstart : ¬l.Starts)
    (hs : ∀ c, (s.calls c).accepted = accepted c ∧ (accepted c = true → (s.calls c).Idle)) :
    (∀ c, (s'.calls c).accepted = accepted c ∧ (accepted c = true → (s'.calls c).Idle)) ∧
      ∀ c a, l = .call c a → accepted c = true → ¬a.Touches := by
  constructor
  · intro c
    obtain ⟨haccepted,hidle⟩ := hs c
    obtain hsame | hcancelled | ⟨a,rfl,hcall⟩ := h.call_cases c
    · rw [hsame]
      exact ⟨haccepted,hidle⟩
    · rw [hcancelled]
      exact ⟨haccepted,hidle⟩
    · obtain ⟨hsame,hnext⟩ := hcall.idle hstart
      exact ⟨hsame.trans haccepted,fun hc => (hnext (hidle hc)).1⟩
  · intro c a hl hc
    subst hl
    cases h with
    | call hcall => exact ((hcall.idle hstart).2 ((hs c).2 hc)).2

theorem quiescent_of_idle {s : State} (hs : ∀ c, (s.calls c).accepted = true → (s.calls c).Idle) : Quiescent s := by
  intro ls s' hrun hls c a ha haccepted
  have hlabels := (hrun.restrict hls).forall_labels
    (I := fun t => ∀ c, (t.calls c).accepted = (s.calls c).accepted ∧ ((s.calls c).accepted = true → (t.calls c).Idle))
    (P := fun l => ∀ c a, l = .call c a → (s.calls c).accepted = true → ¬a.Touches)
    (fun t l t' ⟨hstart,hstep⟩ ht => hstep.idle hstart ht) fun c => ⟨rfl,hs c⟩
  exact hlabels _ ha c a rfl haccepted

/-- An outstanding call has a step to take. -/
theorem Call.Outstanding.not_quiescent {s : State} {c : ℕ} (h : (s.calls c).Outstanding)
    (haccepted : (s.calls c).accepted = true) : ¬Quiescent s := by
  intro hquiescent
  obtain ⟨r,hpc⟩ | ⟨⟨r,hpc⟩,hcallback⟩ := h
  · exact hquiescent _ _ (.one (.call (.storeLast hpc))) (by simp [Label.Starts]) c .storeLast (by simp) haccepted trivial
  · exact hquiescent _ _ (.one (.call (.complete hpc hcallback))) (by simp [Label.Starts]) c (.complete r) (by simp)
      haccepted trivial

/-- When the slot is free, an accepted call is outstanding or idle. -/
theorem Call.Coherent.outstanding_or_idle {x : Call} (h : x.Coherent) (haccepted : x.accepted = true)
    (howns : x.pc.owns = false) : x.Outstanding ∨ x.Idle := by
  cases hpc : x.pc <;> simp_all [Call.Coherent,Call.Outstanding,Call.Idle,Pc.owns]

/-- A return of `deinit` is a barrier exactly if no accepted call is outstanding at that moment. -/
theorem deinit_barrier_iff {s s' : State} (h : Reachable Step Initial s) {d : ℕ}
    (hreturn : Step s (.deinit d .return) s') :
    Quiescent s' ↔ ∀ c, (s.calls c).accepted = true → ¬(s.calls c).Outstanding := by
  obtain ⟨b,hb⟩ := tracks_of_reachable h
  have hreturned : s.shared.busy = false ∧ s'.calls = s.calls := by
    cases hreturn with
    | «return» _ hfree => exact ⟨hfree,rfl⟩
  obtain ⟨hfree,hcalls⟩ := hreturned
  constructor
  · intro hquiescent c haccepted houtstanding
    rw [← hcalls] at haccepted houtstanding
    exact houtstanding.not_quiescent haccepted hquiescent
  · intro hnone
    refine quiescent_of_idle fun c haccepted => ?_
    rw [hcalls] at haccepted ⊢
    have howns : (s.calls c).pc.owns = false := by
      by_contra howns
      have hbusy := hb.busy_iff.mpr ⟨c,by simpa using howns⟩
      rw [hfree] at hbusy
      cases hbusy
    exact ((hb.coherent c).outstanding_or_idle haccepted howns).resolve_left (hnone c haccepted)

/-- A synchronous call that has returned before `deinit`. -/
theorem deinit_barrier_iff_ended : ∃ s, Quiescent s ∧ (s.calls 0).accepted = true ∧
    s.shared.lastResult = makeResult .compress .invalidArgument := by
  have hrun : ∃ s s', Steps Step .new [.init {} .ok, .call 0 (.enter (printJob false .compress false)), .call 0 .leave,
      .call 0 .release, .call 0 .storeLast, .deinit 0 .begin] s ∧ Step s (.deinit 0 .return) s' ∧
      (∀ c, (s.calls c).accepted = true → (s.calls c).pc = .ended) ∧ (s'.calls 0).accepted = true ∧
      s'.shared.lastResult = makeResult .compress .invalidArgument := by
    refine ⟨_,_,.cons (.init defaultConfig_valid rfl) <| .cons (.call (.accept rfl rfl rfl)) <|
      .cons (.call (.leave rfl (printJob_returns false .compress false))) <| .cons (.call (.release rfl)) <|
      .cons (.call (.storeLast rfl)) <| .one (.begin rfl),.return rfl rfl,fun c hc => ?_,rfl,rfl⟩
    cases c with
    | zero => rfl
    | succ c => cases hc
  obtain ⟨s,s',hsteps,hreturn,hended,hshown⟩ := hrun
  have hnone : ∀ c, (s.calls c).accepted = true → ¬(s.calls c).Outstanding := fun c hc => by
    simp [Call.Outstanding,hended c hc]
  exact ⟨s',(deinit_barrier_iff ⟨_,_,State.new_initial,hsteps⟩ hreturn).mpr hnone,hshown⟩

/-- `deinit` returns before the callback of a job, and before the write of a synchronous call. -/
theorem deinit_returns_early :
    (∃ s s', Steps Step .new [.init {} .ok, .call 0 (.enter (printJob true .compress true)), .call 0 .create,
        .call 0 .readConfig, .call 0 .leave, .call 0 .storeResult, .call 0 .storeState, .call 0 .copy,
        .call 0 .publish, .deinit 0 .begin, .deinit 0 .return] s ∧
      Step s (.call 0 (.complete (makeResult .compress .invalidArgument))) s' ∧
      (s.calls 0).accepted = true ∧ ¬Quiescent s) ∧
    ∃ s s', Steps Step .new [.init {} .ok, .call 0 (.enter (printJob false .compress false)), .call 0 .leave,
        .call 0 .release, .deinit 0 .begin, .deinit 0 .return] s ∧
      Step s (.call 0 .storeLast) s' ∧ (s.calls 0).accepted = true ∧ ¬Quiescent s := by
  constructor
  · refine ⟨_,_,.cons (.init defaultConfig_valid rfl) <| .cons (.call (.acceptSubmission rfl rfl rfl)) <|
      .cons (.call (.create rfl)) <| .cons (.call (.readConfig rfl)) <|
      .cons (.call (.leave rfl (printJob_returns true .compress true))) <| .cons (.call (.storeResult rfl)) <|
      .cons (.call (.storeState rfl)) <| .cons (.call (.copy rfl)) <| .cons (.call (.publish rfl)) <|
      .cons (.begin rfl) <| .one (.return rfl rfl),.call (.complete rfl rfl),rfl,?_⟩
    exact Call.Outstanding.not_quiescent (c := 0) (.inr ⟨⟨_,rfl⟩,rfl⟩) rfl
  · refine ⟨_,_,.cons (.init defaultConfig_valid rfl) <| .cons (.call (.accept rfl rfl rfl)) <|
      .cons (.call (.leave rfl (printJob_returns false .compress false))) <| .cons (.call (.release rfl)) <|
      .cons (.begin rfl) <| .one (.return rfl rfl),.call (.storeLast rfl),rfl,?_⟩
    exact Call.Outstanding.not_quiescent (c := 0) (.inl ⟨_,rfl⟩) rfl

end JobControl
end EspCompressor
