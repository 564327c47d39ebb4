import EspCompressor.JobControl

/-! The life cycle of a call, whatever the other threads do in between. -/
namespace EspCompressor
namespace JobControl

open Transitions

/-- State and result agree: with what the run returned, or with a refusal when there was no run. -/
def Call.Agrees (x : Call) : Prop :=
  x.ran = true ∧ x.state = finalState x.result.error ∨
    x.ran = false ∧ x.state = .rejected ∧ x.result.error ≠ .ok ∧ x.result.error ≠ .cancelled

/-- The worker could not be created. -/
def SetupError (e : CompressionError) : Prop := e = .noMemory ∨ e = .internalError

/-- What is known of a call from where it is. -/
def Call.Coherent (x : Call) : Prop :=
  (x.ran = false → x.trace = []) ∧ (x.accepted = false → x.ran = false) ∧
  match x.pc with
  | .absent => x.handed = false ∧ x.worker = false ∧ x.accepted = false ∧ x.completions = []
  | .setup => x.args.async = true ∧ x.accepted = true ∧ x.state = .running ∧ x.worker = false ∧
      x.handed = false ∧ x.ran = false ∧ x.completions = []
  | .rejecting e => SetupError e ∧ x.args.async = true ∧ x.accepted = true ∧ x.worker = false ∧
      x.handed = false ∧ x.ran = false ∧ x.completions = []
  | .rejectingResult e => SetupError e ∧ x.args.async = true ∧ x.accepted = true ∧ x.state = .rejected ∧
      x.worker = false ∧ x.handed = false ∧ x.ran = false ∧ x.completions = []
  | .starting => x.args.async = true ∧ x.accepted = true ∧ x.state = .running ∧ x.worker = true ∧
      x.completions = []
  | .running => x.accepted = true ∧ x.ran = true ∧ x.completions = [] ∧
      (x.args.async = true → x.state = .running ∧ x.worker = true) ∧ (x.args.async = false → x.handed = false)
  | .storing _ => x.args.async = true ∧ x.accepted = true ∧ x.ran = true ∧ x.completions = [] ∧
      x.state = .running ∧ x.worker = true
  | .settingState r => x.args.async = true ∧ x.accepted = true ∧ x.ran = true ∧ x.completions = [] ∧
      x.state = .running ∧ x.worker = true ∧ r = x.result
  | .copying => x.args.async = true ∧ x.accepted = true ∧ x.Agrees ∧ x.completions = []
  | .publishing r => x.args.async = true ∧ x.accepted = true ∧ x.Agrees ∧ x.completions = [] ∧ r = x.result
  | .notifying r => x.args.async = true ∧ x.Agrees ∧ x.completions = [] ∧ r = x.result
  | .releasing _ => x.args.async = false ∧ x.accepted = true ∧ x.completions = [] ∧ x.handed = false
  | .storingLast _ => x.args.async = false ∧ x.accepted = true ∧ x.completions = [] ∧ x.handed = false
  | .ended => (x.args.async = true → x.Agrees ∧
        x.completions = if x.args.onComplete = true then [x.result] else []) ∧
      (x.args.async = false → x.handed = false ∧ x.completions = [])

section Coherent

variable {x : Call} {r : CompressionResult}

theorem Call.Coherent.accepted_of_absent (h : x.Coherent) (hpc : x.pc = .absent) : x.accepted = false := by
  simp only [Call.Coherent,hpc] at h
  exact h.2.2.2.2.1

theorem Call.Coherent.setupError {e : CompressionError} (h : x.Coherent) (hpc : x.pc = .rejectingResult e) :
    SetupError e := by
  simp only [Call.Coherent,hpc] at h
  exact h.2.2.1

theorem Call.Coherent.settingState (h : x.Coherent) (hpc : x.pc = .settingState r) :
    x.state = .running ∧ x.ran = true ∧ x.result = r := by
  simp only [Call.Coherent,hpc] at h
  exact ⟨h.2.2.2.2.2.2.1,h.2.2.2.2.1,h.2.2.2.2.2.2.2.2.symm⟩

theorem Call.Coherent.notifying (h : x.Coherent) (hpc : x.pc = .notifying r) :
    x.completions = [] ∧ x.result = r := by
  simp only [Call.Coherent,hpc] at h
  exact ⟨h.2.2.2.2.1,h.2.2.2.2.2.symm⟩

theorem Call.Coherent.releasing (h : x.Coherent) (hpc : x.pc = .releasing r) : x.args.async = false := by
  simp only [Call.Coherent,hpc] at h
  exact h.2.2.1

end Coherent

theorem submitRefusal_error {m : Shared} {args : CallArgs} {e : CompressionError}
    (h : submitRefusal m args = some e) : e ≠ .ok ∧ e ≠ .cancelled := by
  unfold submitRefusal at h
  split_ifs at h <;> simp_all <;> subst h <;> simp

theorem SetupError.error {e : CompressionError} (h : SetupError e) : e ≠ .ok ∧ e ≠ .cancelled := by
  obtain rfl | rfl := h <;> simp

/-- A step of the call keeps what is known of it. -/
theorem CallStep.coherent {c : ℕ} {m m' : Shared} {x x' : Call} {a : Action}
    (h : CallStep c m x a m' x') (hx : x.Coherent) : x'.Coherent := by
  cases h with
  | refuse hpc hasync hrefused => simp_all [Call.Coherent]
  | accept hpc hasync hfree => simp_all [Call.Coherent]
  | refuseSubmission hpc hasync hrefused =>
    have herror := submitRefusal_error hrefused
    simp_all [Call.Coherent,Call.Agrees,makeResult]
  | acceptSubmission hpc hasync hfree => simp_all [Call.Coherent]
  | fail hpc he => simp_all [Call.Coherent,SetupError]
  | create hpc => simp_all [Call.Coherent]
  | storeRejected hpc => simp_all [Call.Coherent]
  | storeError hpc =>
    have herror := (hx.setupError hpc).error
    simp_all [Call.Coherent,Call.Agrees]
  | readConfig hpc => simp_all [Call.Coherent]
  | perform e hpc _ _ => simp_all [Call.Coherent]
  | leave hpc _ => cases hasync : x.args.async <;> simp_all [Call.Coherent]
  | storeResult hpc => simp_all [Call.Coherent]
  | storeState hpc =>
    obtain ⟨_,hran,rfl⟩ := hx.settingState hpc
    simp_all [Call.Coherent,Call.Agrees]
  | copy hpc => simp_all [Call.Coherent,Call.Agrees]
  | publish hpc => simp_all [Call.Coherent,Call.Agrees]
  | complete hpc hcallback => simp_all [Call.Coherent,Call.Agrees]
  | finish hpc hcallback => simp_all [Call.Coherent,Call.Agrees]
  | release hpc => simp_all [Call.Coherent]
  | storeLast hpc => simp_all [Call.Coherent]
  | handOut hasync hhanded hready => cases hpc : x.pc <;> simp_all [Call.Coherent,Call.Agrees]
  | cancel hhanded => cases hpc : x.pc <;> simp_all [Call.Coherent,Call.Agrees]

/-- What a step of the system does to one call: nothing, or `deinit` cancels it, or it is the call's own. -/
theorem Step.call_cases {s s' : State} {l : Label} (h : Step s l s') (c : ℕ) :
    s'.calls c = s.calls c ∨ s'.calls c = { s.calls c with cancelRequested := true } ∨
      ∃ a, l = .call c a ∧ CallStep c s.shared (s.calls c) a s'.shared (s'.calls c) := by
  cases h with
  | @cancel _ job _ =>
    by_cases hc : c = job
    · subst hc
      exact .inr (.inl (by simp))
    · exact .inl (by simp [hc])
  | @call c' a m x hcall =>
    by_cases hc : c = c'
    · subst hc
      exact .inr (.inr ⟨a,rfl,by simpa using hcall⟩)
    · exact .inl (by simp [hc])
  | _ => exact .inl (by simp)

theorem Call.Coherent.cancelled {x : Call} (h : x.Coherent) : { x with cancelRequested := true }.Coherent := by
  cases hpc : x.pc <;> simp_all [Call.Coherent,Call.Agrees]

theorem Step.coherent {s s' : State} {l : Label} (h : Step s l s') (hs : ∀ c, (s.calls c).Coherent) (c : ℕ) :
    (s'.calls c).Coherent := by
  obtain hcall | hcall | ⟨a,_,hcall⟩ := h.call_cases c
  · rw [hcall]
    exact hs c
  · rw [hcall]
    exact (hs c).cancelled
  · exact hcall.coherent (hs c)

theorem coherent_of_reachable {s : State} (h : Reachable Step Initial s) (c : ℕ) : (s.calls c).Coherent := by
  refine h.keeps (I := fun s => ∀ c, (s.calls c).Coherent) (fun s hs c => ?_) (fun s l s' hstep hs => hstep.coherent hs) c
  obtain ⟨args,hargs⟩ := hs.2.1 c
  simp [hargs,Call.Coherent]

/-! ### What a handle shows -/

/-- The terminal state, the error and whether there was a run tell the same outcome. -/
def Call.Consistent (x : Call) : Prop :=
  (x.state = .completed ↔ x.result.error = .ok) ∧ (x.state = .cancelled ↔ x.result.error = .cancelled) ∧
    (x.state = .rejected ↔ x.ran = false) ∧
    (x.state = .failed ↔ x.ran = true ∧ x.result.error ≠ .ok ∧ x.result.error ≠ .cancelled)

/-- What the handle may show after it has shown `x`. -/
def Call.Follows (x x' : Call) : Prop :=
  (x.state.done = true → x'.state = x.state ∧ x'.result = x.result) ∧
    (x.state = .running → x'.state = .running ∨ x'.state = .completed ∨ x'.state = .failed ∨ x'.state = .cancelled)

theorem finalState_done (e : CompressionError) : (finalState e).done = true := by
  unfold finalState
  split_ifs <;> rfl

theorem finalState_cases (e : CompressionError) :
    finalState e = .completed ∨ finalState e = .failed ∨ finalState e = .cancelled := by
  unfold finalState
  split_ifs <;> simp

theorem Call.Agrees.consistent {x : Call} (h : x.Agrees) : x.Consistent := by
  obtain ⟨hran,hstate⟩ | ⟨hran,hstate,hok,hcancelled⟩ := h
  · unfold finalState at hstate
    split_ifs at hstate <;> simp_all [Call.Consistent]
  · simp_all [Call.Consistent]

theorem Call.Agrees.done {x : Call} (h : x.Agrees) : x.state.done = true := by
  obtain ⟨_,hstate⟩ | ⟨_,hstate,_⟩ := h
  · rw [hstate]
    exact finalState_done _
  · rw [hstate]
    rfl

/-- A job that can be seen is running, or its state and result agree. -/
theorem Call.Coherent.running_or_agrees {x : Call} (h : x.Coherent) (hasync : x.args.async = true)
    (hhanded : x.handed = true) : x.state = .running ∨ x.Agrees := by
  cases hpc : x.pc <;> simp_all [Call.Coherent]

theorem Call.Coherent.completions {x : Call} (h : x.Coherent) (hasync : x.args.async = true) :
    x.completions.length ≤ 1 ∧ (∀ r ∈ x.completions, r = x.result ∧ x.Agrees) ∧
      (x.pc = .ended → x.completions = if x.args.onComplete = true then [x.result] else []) := by
  cases hpc : x.pc <;> simp_all [Call.Coherent]
  split_ifs <;> simp

/-- A step of a job that can be seen leaves its state and its final result, or ends its run. -/
theorem CallStep.handle {c : ℕ} {m m' : Shared} {x x' : Call} {a : Action} (h : CallStep c m x a m' x')
    (hx : x.Coherent) (hasync : x.args.async = true) (hhanded : x.handed = true) :
    x'.args = x.args ∧ x'.handed = true ∧
      (x'.state = x.state ∧ (x.state.done = true → x'.result = x.result) ∨
        x.state = .running ∧ ∃ e, x'.state = finalState e) := by
  cases h with
  | storeState hpc =>
    exact ⟨rfl,hhanded,.inr ⟨(hx.settingState hpc).1,_,rfl⟩⟩
  | _ => simp_all [Call.Coherent,CompressionJobState.done]

/-- What the handle shows follows what it has shown. -/
theorem Step.follows {s s' : State} {l : Label} {x : Call} {c : ℕ} (h : Step s l s')
    (hs : ∀ c, (s.calls c).Coherent) (hasync : (s.calls c).args.async = true)
    (hhanded : (s.calls c).handed = true) (hx : x.Follows (s.calls c)) :
    (s'.calls c).args.async = true ∧ (s'.calls c).handed = true ∧ x.Follows (s'.calls c) := by
  obtain hcall | hcall | ⟨a,_,hcall⟩ := h.call_cases c
  · rw [hcall]
    exact ⟨hasync,hhanded,hx⟩
  · rw [hcall]
    exact ⟨hasync,hhanded,hx⟩
  · obtain ⟨hargs,hhanded',⟨hstate,hresult⟩ | ⟨hrunning,e,hfinal⟩⟩ := hcall.handle (hs c) hasync hhanded
    · refine ⟨by rw [hargs,hasync],hhanded',fun hdone => ?_,fun hrun => by rw [hstate]; exact hx.2 hrun⟩
      obtain ⟨hsame,hvalue⟩ := hx.1 hdone
      exact ⟨hstate.trans hsame,(hresult (hsame ▸ hdone)).trans hvalue⟩
    · refine ⟨by rw [hargs,hasync],hhanded',fun hdone => ?_,fun _ => .inr (hfinal ▸ finalState_cases e)⟩
      rw [← (hx.1 hdone).1,hrunning] at hdone
      cases hdone

theorem follows_of_steps {s s' : State} {ls : List Label} {c : ℕ} (h : Steps Step s ls s')
    (hs : ∀ c, (s.calls c).Coherent) (hasync : (s.calls c).args.async = true)
    (hhanded : (s.calls c).handed = true) : (s.calls c).Follows (s'.calls c) := by
  have hkeeps := h.keeps (I := fun t => (∀ c, (t.calls c).Coherent) ∧ (t.calls c).args.async = true ∧
    (t.calls c).handed = true ∧ (s.calls c).Follows (t.calls c))
    (fun t l t' hstep ⟨hcoherent,ha,hh,hf⟩ => ⟨hstep.coherent hcoherent,hstep.follows hcoherent ha hh hf⟩)
    ⟨hs,hasync,hhanded,fun _ => ⟨rfl,rfl⟩,fun hrun => .inl hrun⟩
  exact hkeeps.2.2.2

/-- The life cycle of the asynchronous call number `c`, as it is known in the state `s`. -/
structure LifeCycle (s : State) (c : ℕ) : Prop where
  once : (s.calls c).completions.length ≤ 1
  given : ∀ r ∈ (s.calls c).completions, r = (s.calls c).result ∧ (s.calls c).state.done = true
  complete : (s.calls c).pc = .ended →
    (s.calls c).completions = if (s.calls c).args.onComplete = true then [(s.calls c).result] else []
  shown : (s.calls c).handed = true → (s.calls c).state = .running ∨ (s.calls c).state.done = true
  consistent : (s.calls c).handed = true → (s.calls c).state.done = true →
    (s.calls c).Consistent ∧ ((s.calls c).state = .rejected → (s.calls c).trace = [])
  follows : (s.calls c).handed = true → ∀ ls s', Steps Step s ls s' → (s.calls c).Follows (s'.calls c)

/-- `onComplete` gets the final result once, and from the moment the handle is returned it shows a running
or a finished job; state and result of a finished job are final and agree. -/
theorem async_job_life_cycle {s : State} (h : Reachable Step Initial s) {c : ℕ}
    (hasync : (s.calls c).args.async = true) : LifeCycle s c := by
  have hcoherent := coherent_of_reachable h
  obtain ⟨honce,hvalue,hended⟩ := (hcoherent c).completions hasync
  exact {
    once := honce
    given := fun r hr => ⟨(hvalue r hr).1,(hvalue r hr).2.done⟩
    complete := hended
    shown := fun hhanded => ((hcoherent c).running_or_agrees hasync hhanded).imp_right Call.Agrees.done
    consistent := fun hhanded hdone => by
      obtain hrunning | hagrees := (hcoherent c).running_or_agrees hasync hhanded
      · rw [hrunning] at hdone
        cases hdone
      · exact ⟨hagrees.consistent,fun hrejected => (hcoherent c).1 (hagrees.consistent.2.2.1.mp hrejected)⟩
    follows := fun hhanded ls s' hrun => follows_of_steps hrun hcoherent hasync hhanded }

/-- A call that is given a `Print` and not told that partial output is allowed. -/
def printJob (async : Bool) (operation : CompressionOperation) (onComplete : Bool) : CallArgs where
  async := async
  operation := operation
  onComplete := onComplete
  body := .ofRun operation BufferSource.source PrintSink.sink {} ⟨[1,2,3],0,false⟩ ⟨⟨[],id,0⟩,0,false⟩

theorem printJob_returns (async : Bool) (operation : CompressionOperation) (onComplete : Bool) :
    (printJob async operation onComplete).body.returns {} [] (makeResult operation .invalidArgument) := by
  refine ⟨0,fun _ => false,.unlimited,.start ⟨[1,2,3],0,false⟩ ⟨⟨[],id,0⟩,0,false⟩ .unlimited,?_,rfl⟩
  cases operation <;> rfl

theorem defaultConfig_valid : ({} : ESPCompressorConfig).Valid := by
  unfold ESPCompressorConfig.Valid
  decide

/-- A job that fails and whose handle is looked at after its callback, and one that is refused before it. -/
theorem async_job_life_cycle_failed : ∃ s, LifeCycle s 0 ∧ LifeCycle s 1 ∧
    (s.calls 0).handed = true ∧ (s.calls 0).state = .failed ∧
    (s.calls 0).completions = [makeResult .compress .invalidArgument] ∧
    (s.calls 1).state = .rejected ∧ (s.calls 1).completions = [makeResult .decompress .notInitialized] := by
  have hrun : ∃ s, Steps Step .new [.call 1 (.enter (printJob true .decompress true)),
      .call 1 (.complete (makeResult .decompress .notInitialized)), .init {} .ok,
      .call 0 (.enter (printJob true .compress true)), .call 0 .create, .call 0 .handOut, .call 0 .readConfig,
      .call 0 .leave, .call 0 .storeResult, .call 0 .storeState, .call 0 .copy, .call 0 .publish,
      .call 0 (.complete (makeResult .compress .invalidArgument))] s ∧
      (s.calls 0).args.async = true ∧ (s.calls 1).args.async = true ∧
      (s.calls 0).handed = true ∧ (s.calls 0).state = .failed ∧
      (s.calls 0).completions = [makeResult .compress .invalidArgument] ∧
      (s.calls 1).state = .rejected ∧ (s.calls 1).completions = [makeResult .decompress .notInitialized] :=
    ⟨_,.cons (.call (.refuseSubmission rfl rfl rfl)) <| .cons (.call (.complete rfl rfl)) <|
      .cons (.init defaultConfig_valid rfl) <| .cons (.call (.acceptSubmission rfl rfl rfl)) <|
      .cons (.call (.create rfl)) <| .cons (.call (.handOut rfl rfl (.inl rfl))) <|
      .cons (.call (.readConfig rfl)) <| .cons (.call (.leave rfl (printJob_returns true .compress true))) <|
      .cons (.call (.storeResult rfl)) <| .cons (.call (.storeState rfl)) <| .cons (.call (.copy rfl)) <|
      .cons (.call (.publish rfl)) <| .one (.call (.complete rfl rfl)),rfl,rfl,rfl,rfl,rfl,rfl,rfl⟩
  obtain ⟨s,hsteps,hfirst,hsecond,hshown⟩ := hrun
  have hreachable : Reachable Step Initial s := ⟨_,_,State.new_initial,hsteps⟩
  exact ⟨s,async_job_life_cycle hreachable hfirst,async_job_life_cycle hreachable hsecond,hshown⟩

end JobControl
end EspCompressor
