import EspCompressor.EarlyResults
import EspCompressor.Ownership

/-! The jobs of a compressor are serial: their calls to the outside do not interleave, and each of them runs
under one configuration. -/
namespace EspCompressor
namespace JobControl

open Transitions

/-- The call to the outside that a step makes, with the number of the job that makes it. -/
def Label.performs : Label → Option (ℕ × IoEvent)
  | .call c (.perform e) => some (c,e)
  | _ => none

/-- The calls to the outside in a run, in this order. -/
def performed (ls : List Label) : List (ℕ × IoEvent) := ls.filterMap Label.performs

/-- What a successful `init` configures. -/
def Label.configures : Label → Option ESPCompressorConfig
  | .init config .ok => some config
  | _ => none

/-- The configuration of the last successful `init`. -/
def lastConfig (ls : List Label) : Option ESPCompressorConfig := (ls.filterMap Label.configures).getLast?

theorem performed_concat (ls : List Label) (l : Label) :
    performed (ls ++ [l]) = performed ls ++ l.performs.toList := by
  rw [performed,List.filterMap_append]
  cases h : l.performs <;> simp [performed,h]

theorem lastConfig_concat (ls : List Label) (l : Label) :
    lastConfig (ls ++ [l]) = l.configures.or (lastConfig ls) := by
  rw [lastConfig,List.filterMap_append]
  cases h : l.configures <;> simp [lastConfig,h]

/-- The calls of the jobs, job after job. -/
def State.serial (s : State) : List (ℕ × IoEvent) :=
  s.shared.accepted.flatMap fun c => (s.calls c).trace.map (Prod.mk c)

/-- What a step of a call does to the order of the jobs and to its own calls. -/
inductive TraceStep (c : ℕ) (m : Shared) (x : Call) : Action → Shared → Call → Prop
  | perform (e : IoEvent) {x' : Call} : x.pc = .running → x'.trace = x.trace ++ [e] → TraceStep c m x (.perform e) m x'
  | enter (args : CallArgs) {m' : Shared} {x' : Call} : x.pc = .absent → x'.trace = [] →
      m'.accepted = m.accepted ∨ m'.accepted = m.accepted ++ [c] → TraceStep c m x (.enter args) m' x'
  | quiet {a : Action} {m' : Shared} {x' : Call} : (Label.call c a).performs = none → x'.trace = x.trace →
      m'.accepted = m.accepted → TraceStep c m x a m' x'

theorem CallStep.trace {c : ℕ} {m m' : Shared} {x x' : Call} {a : Action} (h : CallStep c m x a m' x') :
    TraceStep c m x a m' x' := by
  cases h with
  | refuse hpc _ _ => exact .enter _ hpc rfl (.inl rfl)
  | accept hpc _ _ => exact .enter _ hpc rfl (.inr rfl)
  | refuseSubmission hpc _ _ => exact .enter _ hpc rfl (.inl rfl)
  | acceptSubmission hpc _ _ => exact .enter _ hpc rfl (.inr rfl)
  | perform e hpc _ _ => exact .perform e hpc rfl
  | _ => exact .quiet rfl rfl rfl

/-- The calls of a job that does not take part in a step are not affected. -/
theorem flatMap_setCall {s : State} {c : ℕ} {x : Call} {cs : List ℕ} (hc : c ∉ cs) :
    (cs.flatMap fun c' => ((s.setCall c x).calls c').trace.map (Prod.mk c')) =
      cs.flatMap fun c' => (s.calls c').trace.map (Prod.mk c') := by
  refine List.flatMap_congr fun c' hc' => ?_
  have hne : c' ≠ c := fun heq => hc (heq ▸ hc')
  simp [hne]

/-- A step adds what it performs to the end of the serial list. -/
theorem Step.serial {s s' : State} {l : Label} {b : Turns.Book ℕ} (h : Step s l s') (hb : Tracks s b) :
    s'.serial = s.serial ++ l.performs.toList := by
  cases h with
  | @call c a m x hcall =>
    have htrace := hcall.trace
    cases htrace with
    | perform e hpc hx =>
      obtain ⟨⟨before,hlast⟩,_⟩ := hb.kept.holder_last c ((hb.owner c).mp (by rw [hpc]; rfl))
      rw [hb.admitted] at hlast
      have hnodup := hb.kept.admitted_nodup
      rw [hb.admitted,hlast] at hnodup
      have hnew : c ∉ before := by grind
      simp only [State.serial,State.setShared_shared,State.setCall_shared,hlast,List.flatMap_append,
        List.flatMap_singleton]
      rw [flatMap_setCall hnew]
      simp [hx,Label.performs]
    | enter args hpc hx haccepted =>
      have hnew : c ∉ s.shared.accepted := by
        have hunaccepted := (hb.coherent c).accepted_of_absent hpc
        simp [← hb.accepted c,hunaccepted]
      have hsame := flatMap_setCall (s := s.setShared m) (x := x) hnew
      obtain haccepted | haccepted := haccepted
      · simpa [State.serial,haccepted,Label.performs] using hsame
      · simpa [State.serial,haccepted,Label.performs,hx] using hsame
    | quiet hquiet hx haccepted =>
      rw [hquiet]
      simp only [State.serial,State.setCall_shared,State.setShared_shared,haccepted,Option.toList_none,List.append_nil]
      refine List.flatMap_congr fun c' _ => ?_
      by_cases hc : c' = c
      · subst hc
        simp [hx]
      · simp [hc]
  | @cancel d job _ =>
    simp only [State.serial,State.setDeinit_shared,State.setDeinit_calls,State.setCall_shared,Label.performs,
      Option.toList_none,List.append_nil]
    refine List.flatMap_congr fun c' _ => ?_
    by_cases hc : c' = job
    · subst hc
      simp
    · simp [hc]
  | _ => simp [State.serial,Label.performs]

/-! ### The configuration of a job -/

/-- What the job has done so far is a run under the configuration, and what it returned is that of a whole one. -/
def Call.RunsUnder (config : ESPCompressorConfig) (x : Call) : Prop :=
  (x.trace = [] ∨ x.args.body.performs config x.trace) ∧
  match x.pc with
  | .storing r => x.args.body.returns config x.trace r
  | .settingState r => x.args.body.returns config x.trace r
  | .releasing r => x.args.body.returns config x.trace r
  | .storingLast r => x.args.body.returns config x.trace r
  | .copying => x.ran = true → x.args.body.returns config x.trace x.result
  | .publishing _ => x.ran = true → x.args.body.returns config x.trace x.result
  | .notifying _ => x.ran = true → x.args.body.returns config x.trace x.result
  | .ended => x.ran = true → x.args.body.returns config x.trace x.result
  | _ => True

theorem Call.RunsUnder.cancelled {config : ESPCompressorConfig} {x : Call} (h : x.RunsUnder config) :
    { x with cancelRequested := true }.RunsUnder config := h

/-- A step of an accepted job keeps this, when the configuration that it sees is that of the job. -/
theorem CallStep.runsUnder {c : ℕ} {m m' : Shared} {x x' : Call} {a : Action} {config : ESPCompressorConfig}
    (h : CallStep c m x a m' x') (hx : x.Coherent) (haccepted : x.accepted = true)
    (hconfig : x.pc.owns = true → m.config = config) (hruns : x.RunsUnder config) : x'.RunsUnder config := by
  have habsent : x.pc ≠ .absent := fun hpc => by simp [hx.accepted_of_absent hpc] at haccepted
  cases h with
  | perform e hpc hperforms _ =>
    rw [hconfig (by rw [hpc]; rfl)] at hperforms
    simp_all [Call.RunsUnder]
  | leave hpc hreturns =>
    rw [hconfig (by rw [hpc]; rfl)] at hreturns
    cases hasync : x.args.async <;> simp_all [Call.RunsUnder]
  | storeError hpc => simp_all [Call.RunsUnder,Call.Coherent]
  | storeState hpc =>
    obtain ⟨_,_,rfl⟩ := hx.settingState hpc
    simp_all [Call.RunsUnder]
  | handOut _ _ _ => exact hruns
  | cancel _ => exact hruns
  | _ => simp_all [Call.RunsUnder]

/-- The job number `c` was accepted after an `init`, and has run under what that configured. -/
structure Configured (ls : List Label) (s : State) (c : ℕ) (config : ESPCompressorConfig) : Prop where
  valid : config.Valid
  last : ∃ before args after, ls = before ++ .call c (.enter args) :: after ∧ lastConfig before = some config
  current : (s.calls c).pc.owns = true → s.shared.config = config
  runs : (s.calls c).RunsUnder config

/-- What is known of the configurations after the labels of a run. -/
structure ConfiguredBy (ls : List Label) (s : State) : Prop where
  valid : s.shared.initialized = true → s.shared.config.Valid ∧ lastConfig ls = some s.shared.config
  accepted : ∀ c ∈ s.shared.accepted, ∃ config, Configured ls s c config

theorem Step.initialized {s s' : State} {l : Label} (h : Step s l s') (hinit : s'.shared.initialized = true) :
    l.configures = some s'.shared.config ∧ s'.shared.config.Valid ∨
      l.configures = none ∧ s.shared.initialized = true ∧ s'.shared.config = s.shared.config := by
  cases h with
  | init hvalid _ => exact .inl ⟨rfl,hvalid⟩
  | refuseInit herror =>
    refine .inr ⟨?_,hinit,rfl⟩
    obtain ⟨_,rfl⟩ | ⟨_,_,rfl⟩ := herror <;> rfl
  | begin _ => simp at hinit
  | @call c a m x hcall =>
    have hconfig := hcall.config
    have hsame : m.initialized = s.shared.initialized := by
      cases hcall <;> rfl
    exact .inr ⟨rfl,hsame ▸ hinit,hconfig⟩
  | _ => exact .inr ⟨rfl,hinit,rfl⟩

/-- A job that has been accepted, in a step of the system. -/
theorem Configured.step {ls : List Label} {s s' : State} {l : Label} {c : ℕ} {config : ESPCompressorConfig}
    (h : Configured ls s c config) (hstep : Step s l s') (hcoherent : (s.calls c).Coherent)
    (haccepted : (s.calls c).accepted = true) (howner : (s'.calls c).pc.owns = true → (s.calls c).pc.owns = true)
    (hbusy : (s.calls c).pc.owns = true → s.shared.busy = true) : Configured (ls ++ [l]) s' c config where
  valid := h.valid
  last := by
    obtain ⟨before,args,after,hls,hconfig⟩ := h.last
    exact ⟨before,args,after ++ [l],by rw [hls,List.append_assoc,List.cons_append],hconfig⟩
  current := by
    intro howns
    have howns := howner howns
    rw [hstep.config (hbusy howns)]
    exact h.current howns
  runs := by
    obtain hcall | hcall | ⟨a,_,hcall⟩ := hstep.call_cases c
    · rw [hcall]
      exact h.runs
    · rw [hcall]
      exact h.runs.cancelled
    · exact hcall.runsUnder hcoherent haccepted h.current h.runs

/-- A job takes the slot once. -/
theorem CallStep.owns {c : ℕ} {m m' : Shared} {x x' : Call} {a : Action} (h : CallStep c m x a m' x')
    (hpc : x.pc ≠ .absent) (howns : x'.pc.owns = true) : x.pc.owns = true := by
  cases h <;> simp_all [Pc.owns]

/-- The job number `c` is accepted in this step. -/
structure Accepts (s : State) (l : Label) (s' : State) (c : ℕ) : Prop where
  enters : ∃ args, l = .call c (.enter args)
  initialized : s.shared.initialized = true
  config : s'.shared.config = s.shared.config
  unstarted : (s'.calls c).trace = [] ∧ ((s'.calls c).pc = .running ∨ (s'.calls c).pc = .setup)

/-- The accepted jobs stay, and a step accepts one at most. -/
theorem Step.accepted {s s' : State} {l : Label} (h : Step s l s') :
    s'.shared.accepted = s.shared.accepted ∨
      ∃ c, s'.shared.accepted = s.shared.accepted ++ [c] ∧ Accepts s l s' c := by
  cases h with
  | @call c a m x hcall =>
    cases hcall with
    | accept hpc hasync hfree => exact .inr ⟨c,rfl,⟨_,rfl⟩,(refusal_eq_none hfree).1,rfl,by simp⟩
    | acceptSubmission hpc hasync hfree =>
      exact .inr ⟨c,rfl,⟨_,rfl⟩,(submitRefusal_eq_none hfree).1,rfl,by simp⟩
    | _ => exact .inl rfl
  | _ => exact .inl rfl

theorem Accepts.configured {ls : List Label} {s s' : State} {l : Label} {c : ℕ} (h : Accepts s l s' c)
    (hls : ConfiguredBy ls s) : Configured (ls ++ [l]) s' c s'.shared.config where
  valid := by
    rw [h.config]
    exact (hls.valid h.initialized).1
  last := by
    obtain ⟨args,rfl⟩ := h.enters
    exact ⟨ls,args,[],rfl,by rw [h.config,(hls.valid h.initialized).2]⟩
  current _ := rfl
  runs := by
    obtain ⟨htrace,hpc | hpc⟩ := h.unstarted <;> simp [Call.RunsUnder,htrace,hpc]

theorem ConfiguredBy.step {ls : List Label} {s s' : State} {l : Label} {b : Turns.Book ℕ} (h : ConfiguredBy ls s)
    (hstep : Step s l s') (hb : Tracks s b) : ConfiguredBy (ls ++ [l]) s' where
  valid hinit := by
    rw [lastConfig_concat]
    obtain ⟨hnew,hvalid⟩ | ⟨hnone,hbefore,hsame⟩ := hstep.initialized hinit
    · exact ⟨hvalid,by rw [hnew]; rfl⟩
    · obtain ⟨hvalid,hlast⟩ := h.valid hbefore
      exact ⟨hsame ▸ hvalid,by rw [hnone,hlast,hsame]; rfl⟩
  accepted := by
    have hold : ∀ c ∈ s.shared.accepted, ∃ config, Configured (ls ++ [l]) s' c config := by
      intro c hc
      obtain ⟨config,hconfigured⟩ := h.accepted c hc
      have haccepted := (hb.accepted c).mpr hc
      have habsent : (s.calls c).pc ≠ .absent := fun hpc => by
        simp [(hb.coherent c).accepted_of_absent hpc] at haccepted
      refine ⟨config,hconfigured.step hstep (hb.coherent c) haccepted (fun howns => ?_)
        fun howns => hb.busy_iff.mpr ⟨c,howns⟩⟩
      obtain hcall | hcall | ⟨a,_,hcall⟩ := hstep.call_cases c
      · rwa [hcall] at howns
      · rwa [hcall] at howns
      · exact hcall.owns habsent howns
    obtain hsame | ⟨c,hnew,haccepts⟩ := hstep.accepted
    · rw [hsame]
      exact hold
    · rw [hnew]
      intro c' hc'
      obtain hc' | rfl : c' ∈ s.shared.accepted ∨ c' = c := by simpa using hc'
      · exact hold c' hc'
      · exact ⟨_,haccepts.configured h⟩

/-! ### The runs of a compressor -/

theorem Step.tracks {s s' : State} {l : Label} {b : Turns.Book ℕ} (h : Step s l s') (hb : Tracks s b) :
    ∃ b', Tracks s' b' := by
  obtain ⟨_,b',_,hb'⟩ := tracks_simulates.steps (.one h) hb
  exact ⟨b',hb'⟩

/-- The accepted jobs run one after the other, each under the configuration of the last `init` before it was
accepted; what it reports as its result is what such a run returns. -/
structure Serial (ls : List Label) (s : State) : Prop where
  once : s.shared.accepted.Nodup
  order : performed ls = s.serial
  configured : ∀ c ∈ s.shared.accepted, ∃ before args after config,
    ls = before ++ .call c (.enter args) :: after ∧ lastConfig before = some config ∧ config.Valid ∧
      ((s.calls c).trace = [] ∨ (s.calls c).args.body.performs config (s.calls c).trace) ∧
      ∀ r, (c,r) ∈ s.shared.writes → (s.calls c).ran = true →
        (s.calls c).args.body.returns config (s.calls c).trace r

/-- A written result is that of the run. -/
theorem Call.RunsUnder.returns {s : State} {b : Turns.Book ℕ} {c : ℕ} {r : CompressionResult}
    {config : ESPCompressorConfig} (h : (s.calls c).RunsUnder config) (hb : Tracks s b)
    (hc : (c,r) ∈ s.shared.writes) (hran : (s.calls c).ran = true) :
    (s.calls c).args.body.returns config (s.calls c).trace r := by
  obtain ⟨haccepted,howns,rfl⟩ := hb.written hc
  have hlate : ¬b.Late c := by
    have hreported : c ∈ b.reported := by
      rw [hb.reported]
      exact List.mem_map_of_mem hc
    exact fun hlate => hlate.2.2 hreported
  rw [hb.late c] at hlate
  have hcoherent := hb.coherent c
  have hruns := h.2
  cases hpc : (s.calls c).pc <;> simp_all [Pc.owns,Call.Coherent]

/-- What is kept along the runs of a compressor. -/
theorem configured_of_steps {s₀ s : State} {ls : List Label} (h₀ : Initial s₀) (h : Steps Step s₀ ls s) :
    (∃ b, Tracks s b) ∧ performed ls = s.serial ∧ ConfiguredBy ls s :=
  h.keeps_history (I := fun ls s => (∃ b, Tracks s b) ∧ performed ls = s.serial ∧ ConfiguredBy ls s)
    (fun before s l s' hstep ⟨⟨b,hb⟩,horder,hconfigured⟩ => by
      refine ⟨hstep.tracks hb,?_,hconfigured.step hstep hb⟩
      rw [performed_concat,horder,hstep.serial hb])
    ⟨⟨_,h₀.tracks⟩,by simp [performed,State.serial,h₀.1],by simp [h₀.1],by simp [h₀.1]⟩

/-- Whatever the threads do, the jobs of a compressor are serial. -/
theorem jobs_are_serial {s₀ s : State} {ls : List Label} (h₀ : Initial s₀) (h : Steps Step s₀ ls s) :
    Serial ls s := by
  obtain ⟨⟨b,hb⟩,horder,hconfigured⟩ := configured_of_steps h₀ h
  refine ⟨hb.admitted ▸ hb.kept.admitted_nodup,horder,fun c hc => ?_⟩
  obtain ⟨config,hconfig⟩ := hconfigured.accepted c hc
  obtain ⟨before,args,after,hls,hlast⟩ := hconfig.last
  exact ⟨before,args,after,config,hls,hlast,hconfig.valid,hconfig.runs.1,
    fun r hr hran => hconfig.runs.returns hb hr hran⟩

/-- The decompression of an empty container. -/
def emptyJob (async : Bool) : CallArgs where
  async := async
  operation := .decompress
  body := .ofRun .decompress BufferSource.source DynamicBufferSink.sink {} ⟨[],0,false⟩
    ⟨[],.new,false,.unlimited⟩

/-- Its calls. -/
def emptyJobTrace : List IoEvent :=
  [.sourceOpen .ok,.sinkOpen .ok,.read 24 .ok [],.abort,.sinkClose,.sourceClose]

theorem emptyJob_performs (async : Bool) {config : ESPCompressorConfig} {trace : List IoEvent}
    (h : trace <+: emptyJobTrace) : (emptyJob async).body.performs config trace :=
  ⟨0,fun _ => false,.unlimited,h⟩

theorem emptyJob_returns (async : Bool) {config : ESPCompressorConfig} :
    (emptyJob async).body.returns config emptyJobTrace (makeResult .decompress .corruptData) :=
  ⟨0,fun _ => false,.unlimited,_,rfl,rfl⟩

/-- The members while the first job of all runs, and the first job. -/
def firstShared : Shared := { initialized := true, busy := true, accepted := [0] }

def firstCall (args : CallArgs) : Call := { args, pc := .running, accepted := true, ran := true }

/-- The second job begins before the first one, a synchronous call, has written its result. -/
theorem jobs_are_serial_late : ∃ ls s, Serial ls s ∧ s.shared.accepted = [0,1] ∧
    performed ls = emptyJobTrace.map (Prod.mk 0) ++ [(1,.sourceOpen .ok)] ∧
    s.shared.writes = [(0,makeResult .decompress .corruptData)] := by
  have hfirst : ∃ s, Steps Step .new [.init {} .ok, .call 0 (.enter (emptyJob false))] s ∧
      s.shared = firstShared ∧ s.calls 0 = firstCall (emptyJob false) ∧
      (s.calls 1).pc = .absent :=
    ⟨_,.cons (.init defaultConfig_valid rfl) <| .one (.call (.accept rfl rfl rfl)),rfl,rfl,rfl⟩
  obtain ⟨s,hsteps,hshared,hcall,hother⟩ := hfirst
  have hperforms := steps_perform (s := s) (c := 0) emptyJobTrace (x := firstCall (emptyJob false)) rfl
    (fun before hbefore => by
      rw [hshared]
      exact emptyJob_performs false hbefore)
    fun e he => by
      cases e with
      | cancelLoad answer => simp [emptyJobTrace] at he
      | _ => trivial
  rw [← setCall_calls_self s 0,hcall] at hsteps
  obtain ⟨shared,calls,deinits⟩ := s
  subst hshared
  have hopen (m : Shared) (hm : m.config = {}) (x : Call) (hx : x.args = emptyJob true ∧ x.trace = [] ∧ x.pc = .running) :
      CallStep 1 m x (.perform (.sourceOpen .ok)) m { x with trace := x.trace ++ [.sourceOpen .ok] } := by
    obtain ⟨hargs,htrace,hpc⟩ := hx
    refine .perform _ hpc ?_ trivial
    rw [hm,hargs,htrace]
    exact emptyJob_performs true ⟨_,rfl⟩
  have hsecond : ∃ s', Steps Step (State.setCall ⟨firstShared,calls,deinits⟩ 0
      { firstCall (emptyJob false) with trace := emptyJobTrace })
      [.call 0 .leave, .call 0 .release, .call 1 (.enter (emptyJob true)), .call 1 .create, .call 1 .readConfig,
        .call 1 (.perform (.sourceOpen .ok)), .call 0 .storeLast] s' ∧
      s'.shared.accepted = [0,1] ∧ s'.shared.writes = [(0,makeResult .decompress .corruptData)] :=
    ⟨_,.cons (.call (.leave rfl (emptyJob_returns false))) <| .cons (.call (.release rfl)) <|
      .cons (.call (.acceptSubmission hother rfl rfl)) <| .cons (.call (.create rfl)) <|
      .cons (.call (.readConfig rfl)) <|
      .cons (.call (hopen _ rfl _ ⟨rfl,rfl,rfl⟩)) <| .one (.call (.storeLast rfl)),rfl,rfl⟩
  obtain ⟨s',hrest,haccepted,hwrites⟩ := hsecond
  exact ⟨_,s',jobs_are_serial State.new_initial ((hsteps.append hperforms).append hrest),haccepted,rfl,hwrites⟩

end JobControl
end EspCompressor
