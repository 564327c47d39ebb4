import EspCompressor.CallProtocol
import EspCompressor.LifeCycle

/-! What `CompressionJobHandle::result` shows before the job is done. -/
namespace EspCompressor
namespace JobControl

open Transitions

/-- The body of a call is a run on some source and some sink. -/
def Body.IsRun (body : Body) : Prop :=
  ∃ (σ κ : Type) (operation : CompressionOperation) (source : CompressionSource σ) (sink : CompressionSink κ)
    (options : CompressionJobOptions) (s₀ : σ) (k₀ : κ), body = .ofRun operation source sink options s₀ k₀

/-- `job->result` has been stored: by the worker, or because there is none. -/
def Pc.stored : Pc → Bool
  | .absent => false
  | .setup => false
  | .rejecting _ => false
  | .rejectingResult _ => false
  | .starting => false
  | .running => false
  | .storing _ => false
  | _ => true

/-- The outcome is open: the result is not stored, and no commit has succeeded. -/
def Call.Unsettled (x : Call) : Prop := x.pc.stored = false ∧ .commit .ok ∉ x.trace

/-- A run that returns `Ok` has committed. -/
theorem Body.IsRun.committed {body : Body} (h : body.IsRun) {config : ESPCompressorConfig}
    {trace : List IoEvent} {r : CompressionResult} (hreturns : body.returns config trace r)
    (hok : r.error = .ok) : .commit .ok ∈ trace := by
  obtain ⟨σ,κ,operation,source,sink,options,s₀,k₀,rfl⟩ := h
  obtain ⟨fuel,cancelRequested,heap,s,hexec,rfl⟩ := hreturns
  have hconforms := Proc.exec_of_wp (Compressor.job_conforms _ fuel s₀ k₀ heap) hexec
  cases hconforms with
  | inl hrejected =>
    rw [hrejected.2.1] at hok
    simp at hok
  | inr haccepted => exact haccepted.2.ok_iff.mp hok

/-- What the result of an asynchronous call tells. -/
def Call.Tells (x : Call) : Prop :=
  x.args.async = true → x.pc ≠ .absent →
    (x.pc.stored = false → x.result.error = .ok) ∧
    (∀ r, x.pc = .storing r → r.error = .ok → .commit .ok ∈ x.trace) ∧
    (x.pc.stored = true → x.result.error = .ok → .commit .ok ∈ x.trace)

theorem CallStep.tells {c : ℕ} {m m' : Shared} {x x' : Call} {a : Action} (h : CallStep c m x a m' x')
    (hcoherent : x.Coherent) (hruns : x'.args.body.IsRun) (hx : x.Tells) : x'.Tells := by
  intro hasync hpresent
  cases h with
  | refuse _ hsync _ => simp_all
  | accept _ hsync _ => simp_all
  | refuseSubmission _ _ hrefused =>
    have herror := (submitRefusal_error hrefused).1
    simp [Pc.stored,makeResult,herror]
  | acceptSubmission _ _ _ => simp [Pc.stored,makeResult]
  | storeError hpc =>
    have herror := (hcoherent.setupError hpc).error.1
    simp [Pc.stored,herror]
  | leave hpc hreturns =>
    have htells := hx hasync (by simp [hpc])
    have hcommitted := hruns.committed hreturns
    simp_all [Pc.stored]
  | release hpc =>
    have hsync := hcoherent.releasing hpc
    simp_all
  | storeLast hpc => simp_all [Call.Coherent]
  | handOut _ _ _ => exact hx hasync hpresent
  | cancel _ => exact hx hasync hpresent
  | _ =>
    have htells := hx hasync (by simp [*])
    simp_all [Pc.stored]

/-- The arguments of a call are those of its first step. -/
theorem CallStep.args {c : ℕ} {m m' : Shared} {x x' : Call} {a : Action} (h : CallStep c m x a m' x') :
    x'.args = x.args ∨ x.pc = .absent := by
  cases h with
  | refuse hpc _ _ => exact .inr hpc
  | accept hpc _ _ => exact .inr hpc
  | refuseSubmission hpc _ _ => exact .inr hpc
  | acceptSubmission hpc _ _ => exact .inr hpc
  | _ => exact .inl rfl

/-- What the results of calls on runs tell. -/
def ResultsTell (s : State) : Prop := ∀ c, (s.calls c).args.body.IsRun → (s.calls c).Tells

theorem Step.resultsTell {s s' : State} {l : Label} (h : Step s l s') (hs : ∀ c, (s.calls c).Coherent)
    (htell : ResultsTell s) : ResultsTell s' := by
  intro c hruns
  obtain hcall | hcall | ⟨a,_,hcall⟩ := h.call_cases c
  · rw [hcall] at hruns ⊢
    exact htell c hruns
  · rw [hcall] at hruns ⊢
    exact htell c hruns
  · apply hcall.tells (hs c) hruns
    cases hcall.args with
    | inl hargs =>
      rw [hargs] at hruns
      exact htell c hruns
    | inr hpc => exact fun _ hpresent => absurd hpc hpresent

theorem resultsTell_of_reachable {s : State} (h : Reachable Step Initial s) : ResultsTell s := by
  have hboth := h.keeps (I := fun s => (∀ c, (s.calls c).Coherent) ∧ ResultsTell s)
    (fun s hs => ⟨coherent_of_reachable ⟨s,[],hs,.nil s⟩,fun c _ _ hpresent => ?_⟩)
    fun s l s' hstep hs => ⟨hstep.coherent hs.1,hstep.resultsTell hs.1 hs.2⟩
  · exact hboth.2
  · obtain ⟨args,hargs⟩ := hs.2.1 c
    rw [hargs] at hpresent
    exact absurd rfl hpresent

/-- A job that is done has its result stored. -/
theorem Call.Coherent.stored {x : Call} (h : x.Coherent) (hasync : x.args.async = true)
    (hhanded : x.handed = true) (hdone : x.state.done = true) : x.pc.stored = true := by
  cases hpc : x.pc <;> simp_all [Call.Coherent,Pc.stored,CompressionJobState.done]

/-- From the moment the handle is returned, its result says `Ok` only after the commit, unless it is
looked at while the outcome is open; it never is once the job is done. -/
theorem ok_shown_after_commit {s : State} (h : Reachable Step Initial s) {c : ℕ}
    (hasync : (s.calls c).args.async = true) (hhanded : (s.calls c).handed = true)
    (hruns : (s.calls c).args.body.IsRun) :
    (((s.calls c).result.error = .ok → .commit .ok ∈ (s.calls c).trace) ↔ ¬(s.calls c).Unsettled) ∧
      ((s.calls c).state.done = true → ¬(s.calls c).Unsettled) := by
  have hcoherent := coherent_of_reachable h c
  have hpresent : (s.calls c).pc ≠ .absent := by
    intro hpc
    simp_all [Call.Coherent]
  obtain ⟨hopen,-,hstored⟩ := resultsTell_of_reachable h c hruns hasync hpresent
  refine ⟨⟨fun hlaw hunsettled => ?_,fun hsettled hok => ?_⟩,fun hdone hunsettled => ?_⟩
  · exact hunsettled.2 (hlaw (hopen hunsettled.1))
  · by_cases hpc : (s.calls c).pc.stored = true
    · exact hstored hpc hok
    · by_contra hcommit
      exact hsettled ⟨Bool.eq_false_of_not_eq_true hpc,hcommit⟩
  · have hpc := hcoherent.stored hasync hhanded hdone
    rw [hunsettled.1] at hpc
    simp at hpc

/-- A job shows `Ok` as soon as its handle is returned, before its worker has done anything, and then
fails. -/
theorem ok_shown_early : ∃ s s' ls, Reachable Step Initial s ∧ (s.calls 0).args.async = true ∧
    (s.calls 0).handed = true ∧ (s.calls 0).args.body.IsRun ∧
    ¬((s.calls 0).result.error = .ok → .commit .ok ∈ (s.calls 0).trace) ∧
    Steps Step s ls s' ∧ (s'.calls 0).state = .failed ∧ .commit .ok ∉ (s'.calls 0).trace := by
  have hstart : ∃ s, Steps Step .new [.init {} .ok, .call 0 (.enter (printJob true .compress false)),
      .call 0 .create, .call 0 .handOut] s ∧
      (∃ s', Steps Step s [.call 0 .readConfig, .call 0 .leave, .call 0 .storeResult, .call 0 .storeState] s' ∧
        (s'.calls 0).state = .failed ∧ (s'.calls 0).trace = []) ∧ (s.calls 0).args.async = true ∧
      (s.calls 0).handed = true ∧ (s.calls 0).args = printJob true .compress false ∧
      (s.calls 0).result.error = .ok ∧ (s.calls 0).trace = [] :=
    ⟨_,.cons (.init defaultConfig_valid rfl) <| .cons (.call (.acceptSubmission rfl rfl rfl)) <|
      .cons (.call (.create rfl)) <| .one (.call (.handOut rfl rfl (.inl rfl))),
      ⟨_,.cons (.call (.readConfig rfl)) <| .cons (.call (.leave rfl (printJob_returns true .compress false))) <|
        .cons (.call (.storeResult rfl)) <| .one (.call (.storeState rfl)),rfl,rfl⟩,rfl,rfl,rfl,rfl,rfl⟩
  obtain ⟨s,hsteps,⟨s',hrest,hfailed,htrace'⟩,hasync,hhanded,hargs,hok,htrace⟩ := hstart
  refine ⟨s,s',_,⟨_,_,State.new_initial,hsteps⟩,hasync,hhanded,?_,fun hlaw => ?_,hrest,hfailed,?_⟩
  · rw [hargs]
    exact ⟨_,_,_,_,_,_,_,_,rfl⟩
  · have hcommit := hlaw hok
    rw [htrace] at hcommit
    exact absurd hcommit List.not_mem_nil
  · rw [htrace']
    exact List.not_mem_nil

/-! ### A job that commits -/

/-- A step of a call that leaves the members as they are. -/
theorem step_setCall {s : State} {c : ℕ} {x x' : Call} {a : Action} (h : CallStep c s.shared x a s.shared x') :
    Step (s.setCall c x) (.call c a) (s.setCall c x') := by
  have hcalls : (s.setCall c x).calls c = x := by simp
  have hstep : Step (s.setCall c x) (.call c a) (((s.setCall c x).setShared s.shared).setCall c x') :=
    .call (by rw [hcalls]; exact h)
  simpa [State.setCall,State.setShared] using hstep

/-- A running call may make the calls of a run one after the other. -/
theorem steps_perform {s : State} {c : ℕ} (es : List IoEvent) {x : Call} (hpc : x.pc = .running)
    (hperforms : ∀ before, before <+: es → x.args.body.performs s.shared.config (x.trace ++ before))
    (hanswers : ∀ e ∈ es, x.Answers e) :
    Steps Step (s.setCall c x) (es.map fun e => .call c (.perform e))
      (s.setCall c { x with trace := x.trace ++ es }) := by
  induction es generalizing x with
  | nil =>
    rw [List.append_nil]
    exact .nil _
  | cons e es ih =>
    have hfirst : CallStep c s.shared x (.perform e) s.shared { x with trace := x.trace ++ [e] } :=
      .perform e hpc (hperforms [e] ⟨es,rfl⟩) (hanswers e List.mem_cons_self)
    have hrest := ih (x := { x with trace := x.trace ++ [e] }) hpc
      (fun before ⟨after,hafter⟩ => by
        rw [List.append_assoc]
        exact hperforms (e :: before) ⟨after,by rw [← hafter]; rfl⟩)
      fun e' he' => hanswers e' (List.mem_cons_of_mem _ he')
    rw [List.append_assoc] at hrest
    exact .cons (step_setCall hfirst) hrest

/-- The worker stores what the run of a running call returns. -/
theorem steps_store {s : State} {c : ℕ} {x : Call} {r : CompressionResult} (hpc : x.pc = .running)
    (hasync : x.args.async = true) (hreturns : x.args.body.returns s.shared.config x.trace r) :
    Steps Step (s.setCall c x) [.call c .leave,.call c .storeResult,.call c .storeState]
      (s.setCall c { x with state := finalState r.error, result := r, pc := .copying }) := by
  have hleave : CallStep c s.shared x .leave s.shared { x with pc := .storing r } := by
    have hstep := CallStep.leave (c := c) hpc hreturns
    rwa [if_pos hasync] at hstep
  have hresult : CallStep c s.shared { x with pc := .storing r } .storeResult s.shared
      { x with result := r, pc := .settingState r } := .storeResult rfl
  have hstate : CallStep c s.shared { x with result := r, pc := .settingState r } .storeState s.shared
      { x with state := finalState r.error, result := r, pc := .copying } := .storeState rfl
  exact .cons (step_setCall hleave) (.cons (step_setCall hresult) (.one (step_setCall hstate)))

/-- The empty input, compressed into a buffer. -/
def bufferJob : RunContext BufferSource DynamicBufferSink where
  operation := .compress
  source := BufferSource.source
  sink := DynamicBufferSink.sink

def bufferRun : Option CompressionResult × RunState BufferSource DynamicBufferSink :=
  Proc.exec (Compressor.runSyncJob bufferJob 1)
    (.start ⟨[],0,false⟩ ⟨[],.new,false,.unlimited⟩ .unlimited)

def bufferCall : CallArgs where
  async := true
  operation := .compress
  body := .ofRun .compress BufferSource.source DynamicBufferSink.sink {} ⟨[],0,false⟩
    ⟨[],.new,false,.unlimited⟩

theorem setCall_calls_self (s : State) (c : ℕ) : s.setCall c (s.calls c) = s := by simp [State.setCall]

/-- The run of that call, up to the state that its worker stores. -/
theorem bufferCall_done : ∃ s, Reachable Step Initial s ∧ (s.calls 0).args = bufferCall ∧
    (s.calls 0).handed = true ∧ (s.calls 0).state = .completed ∧ (s.calls 0).result = {} := by
  have hstart : ∃ s, Steps Step .new [.init {} .ok, .call 0 (.enter bufferCall), .call 0 .create,
      .call 0 .handOut, .call 0 .readConfig] s ∧ (s.calls 0).pc = .running ∧ (s.calls 0).args = bufferCall ∧
      (s.calls 0).handed = true ∧ (s.calls 0).cancelRequested = false ∧ (s.calls 0).trace = [] ∧
      s.shared.config = {} :=
    ⟨_,.cons (.init defaultConfig_valid rfl) <| .cons (.call (.acceptSubmission rfl rfl rfl)) <|
      .cons (.call (.create rfl)) <| .cons (.call (.handOut rfl rfl (.inl rfl))) <|
      .one (.call (.readConfig rfl)),rfl,rfl,rfl,rfl,rfl,rfl⟩
  obtain ⟨s,hsteps,hpc,hargs,hhanded,hcancel,htrace,hconfig⟩ := hstart
  rw [← setCall_calls_self s 0] at hsteps
  generalize s.calls 0 = x at hsteps hpc hargs hhanded hcancel htrace
  have hclear : ∀ answer, .cancelLoad answer ∈ bufferRun.2.trace → answer = false := by decide +kernel
  have hperform := steps_perform (s := s) (c := 0) bufferRun.2.trace hpc
    (fun before hbefore => by
      rw [hargs,hconfig,htrace]
      exact ⟨1,fun _ => false,.unlimited,hbefore⟩)
    fun e he => by
      cases e with
      | cancelLoad answer =>
        change answer = (x.args.async && x.cancelRequested)
        rw [hclear answer he,hcancel,Bool.and_false]
      | _ => trivial
  rw [htrace,List.nil_append] at hperform
  have hasync : x.args.async = true := by rw [hargs]; rfl
  have hreturns : x.args.body.returns s.shared.config bufferRun.2.trace {} := by
    rw [hargs,hconfig]
    exact ⟨1,fun _ => false,.unlimited,bufferRun.2,Prod.ext (by decide +kernel) rfl,rfl⟩
  have hstore := steps_store (s := s) (c := 0) (x := { x with trace := bufferRun.2.trace }) hpc hasync hreturns
  exact ⟨_,⟨_,_,State.new_initial,(hsteps.append hperform).append hstore⟩,by simp [hargs],by simp [hhanded],
    by simp [finalState],by simp⟩

/-- A job that shows `Ok` once it is done, and has committed by then. -/
theorem ok_shown_after_commit_buffer : ∃ s, Reachable Step Initial s ∧ (s.calls 0).state.done = true ∧
    (s.calls 0).result.error = .ok ∧ .commit .ok ∈ (s.calls 0).trace := by
  obtain ⟨s,hreachable,hargs,hhanded,hstate,hresult⟩ := bufferCall_done
  have hdone : (s.calls 0).state.done = true := by rw [hstate]; rfl
  have hok : (s.calls 0).result.error = .ok := by rw [hresult]
  have hlaw := ok_shown_after_commit hreachable (by rw [hargs]; rfl) hhanded
    (by rw [hargs]; exact ⟨_,_,_,_,_,_,_,_,rfl⟩)
  exact ⟨s,hreachable,hdone,hok,hlaw.1.mpr (hlaw.2 hdone) hok⟩

end JobControl
end EspCompressor
