import EspCompressor.Compressor
import EspCompressor.Transitions

/-! `ESPCompressor` with its jobs, as a transition system: any number of threads call `init`, `deinit`,
`compress`, `decompress`, `compressAsync` and `decompressAsync`, and every section under a mutex and every
access to an atomic is one step. Each call has a number; a thread that makes several calls makes several
numbered ones, one after the other. Failing to allocate the job itself ends the program; this, and the hook
that the tests use to fail a setup, are left out. -/
namespace EspCompressor

inductive CompressionJobState
  | idle | running | completed | failed | cancelled | rejected
  deriving DecidableEq, Repr

/-- The test of `CompressionJobHandle::done`. -/
def CompressionJobState.done : CompressionJobState → Bool
  | .completed => true
  | .failed => true
  | .cancelled => true
  | .rejected => true
  | _ => false

/-- The state that the worker stores for a result. -/
def finalState (e : CompressionError) : CompressionJobState :=
  if e = .ok then .completed else if e = .cancelled then .cancelled else .failed

/-- The check of `init`. -/
def ESPCompressorConfig.Valid (config : ESPCompressorConfig) : Prop :=
  config.blockSize ≠ 0 ∧ config.windowSize ≠ 0 ∧ config.taskStackSize ≠ 0 ∧
    config.blockSize ≤ uint32Max ∧ config.windowSize ≤ 0xFFFF

namespace JobControl

/-- What a run of a call may do, with the configuration it reads: the events up to some moment, and
those of a whole run with what it returns. -/
structure Body where
  performs : ESPCompressorConfig → List IoEvent → Prop
  returns : ESPCompressorConfig → List IoEvent → CompressionResult → Prop

/-- The runs of `runSyncJob` on a source and a sink, for any heap and any times of cancelling. -/
def Body.ofRun {σ κ : Type} (operation : CompressionOperation) (source : CompressionSource σ)
    (sink : CompressionSink κ) (options : CompressionJobOptions) (s₀ : σ) (k₀ : κ) : Body where
  performs config trace := ∃ fuel cancelRequested heap, trace <+:
    (Proc.exec (Compressor.runSyncJob { config, operation, source, sink, options, cancelRequested } fuel)
      (.start s₀ k₀ heap)).2.trace
  returns config trace r := ∃ fuel cancelRequested heap s,
    Proc.exec (Compressor.runSyncJob { config, operation, source, sink, options, cancelRequested } fuel)
      (.start s₀ k₀ heap) = (some r,s) ∧ s.trace = trace

/-- The arguments of a call: `async` for the two calls that give a handle; only those can be given null
pointers. -/
structure CallArgs where
  async : Bool
  operation : CompressionOperation
  hasSource : Bool := true
  hasSink : Bool := true
  onComplete : Bool := false
  body : Body

/-- Where a call is: what it does next. The result is what it carries along. -/
inductive Pc
  | absent
  | setup
  | rejecting (error : CompressionError)
  | rejectingResult (error : CompressionError)
  | starting
  | running
  | storing (result : CompressionResult)
  | settingState (result : CompressionResult)
  | copying
  | publishing (result : CompressionResult)
  | notifying (result : CompressionResult)
  | releasing (result : CompressionResult)
  | storingLast (result : CompressionResult)
  | ended
  deriving DecidableEq

/-- The call holds the slot: it was accepted, and has not released it. -/
def Pc.owns : Pc → Bool
  | .absent => false
  | .notifying _ => false
  | .storingLast _ => false
  | .ended => false
  | _ => true

/-- A call, with its `CompressionJobControl` when it is asynchronous. `worker` says that the worker was
created, `handed` that the handle was returned. The last fields record what has happened: whether the call
was accepted, the calls of its run, whether the run was begun, and what `onComplete` was given. -/
structure Call where
  args : CallArgs
  id : UInt32 := 0
  cancelRequested : Bool := false
  state : CompressionJobState := .idle
  result : CompressionResult := {}
  pc : Pc := .absent
  worker : Bool := false
  handed : Bool := false
  accepted : Bool := false
  trace : List IoEvent := []
  ran : Bool := false
  completions : List CompressionResult := []

/-- The members of `ESPCompressor`. The last fields record the accepted calls in the order of acceptance,
the number of refused submissions, and what the accepted calls wrote to `lastResult`. -/
structure Shared where
  config : ESPCompressorConfig := {}
  initialized : Bool := false
  busy : Bool := false
  activeJob : Option ℕ := none
  lastResult : CompressionResult := {}
  nextJobId : UInt32 := 1
  accepted : List ℕ := []
  refusals : ℕ := 0
  writes : List (ℕ × CompressionResult) := []

/-- Why a synchronous call is refused. -/
def refusal (m : Shared) : Option CompressionError :=
  if m.initialized = false then some .notInitialized
  else if m.busy = true then some .busy
  else none

/-- Why a submission is refused. -/
def submitRefusal (m : Shared) (args : CallArgs) : Option CompressionError :=
  if m.initialized = false then some .notInitialized
  else if args.hasSource = false ∨ args.hasSink = false then some .invalidArgument
  else if m.busy = true then some .busy
  else none

/-- A step of one call. -/
inductive Action
  | enter (args : CallArgs)
  | fail (error : CompressionError)
  | create
  | storeRejected
  | storeError
  | readConfig
  | perform (e : IoEvent)
  | leave
  | storeResult
  | storeState
  | copy
  | publish
  | complete (result : CompressionResult)
  | finish
  | release
  | storeLast
  | handOut
  | cancel

/-- The step reads or writes a member of the compressor, or invokes a callback: the run reads the
configuration in place, and its reports go to the progress callback. -/
def Action.Touches : Action → Prop
  | .enter _ => True
  | .fail _ => True
  | .create => True
  | .readConfig => True
  | .perform _ => True
  | .publish => True
  | .complete _ => True
  | .release => True
  | .storeLast => True
  | _ => False

/-- The answer of a load of the cancel flag is the flag of the job; a synchronous call has no flag. -/
def Call.Answers (x : Call) : IoEvent → Prop
  | .cancelLoad answer => answer = (x.args.async && x.cancelRequested)
  | _ => True

/-- The steps of the call number `c`, and what they do to the members. -/
inductive CallStep (c : ℕ) : Shared → Call → Action → Shared → Call → Prop
  -- `compress` and `decompress` up to the slot
  | refuse {m : Shared} {x : Call} {args : CallArgs} {e : CompressionError} : x.pc = .absent →
      args.async = false → refusal m = some e →
      CallStep c m x (.enter args) m
        { args, result := makeResult args.operation e, pc := .ended }
  | accept {m : Shared} {x : Call} {args : CallArgs} : x.pc = .absent → args.async = false →
      refusal m = none →
      CallStep c m x (.enter args) { m with busy := true, accepted := m.accepted ++ [c] }
        { args, pc := .running, accepted := true, ran := true }
  -- the first section of `submitAsync`
  | refuseSubmission {m : Shared} {x : Call} {args : CallArgs} {e : CompressionError} : x.pc = .absent →
      args.async = true → submitRefusal m args = some e →
      CallStep c m x (.enter args)
        { m with
          nextJobId := m.nextJobId + 1
          lastResult := makeResult args.operation e
          refusals := m.refusals + 1 }
        { args
          id := m.nextJobId
          state := .rejected
          result := makeResult args.operation e
          pc := .notifying (makeResult args.operation e) }
  | acceptSubmission {m : Shared} {x : Call} {args : CallArgs} : x.pc = .absent → args.async = true →
      submitRefusal m args = none →
      CallStep c m x (.enter args)
        { m with
          nextJobId := m.nextJobId + 1
          busy := true
          activeJob := some c
          accepted := m.accepted ++ [c] }
        { args
          id := m.nextJobId
          state := .running
          result := makeResult args.operation .ok
          pc := .setup
          accepted := true }
  -- the worker is created, or that fails and `rejectAcceptedAsyncSetupJob` is called
  | fail {m : Shared} {x : Call} {e : CompressionError} : x.pc = .setup →
      e = .noMemory ∨ e = .internalError → CallStep c m x (.fail e) m { x with pc := .rejecting e }
  | create {m : Shared} {x : Call} : x.pc = .setup →
      CallStep c m x .create m { x with pc := .starting, worker := true }
  | storeRejected {m : Shared} {x : Call} {e : CompressionError} : x.pc = .rejecting e →
      CallStep c m x .storeRejected m { x with state := .rejected, pc := .rejectingResult e }
  | storeError {m : Shared} {x : Call} {e : CompressionError} : x.pc = .rejectingResult e →
      CallStep c m x .storeError m { x with result := { x.result with error := e }, pc := .copying }
  -- the worker, and the run itself
  | readConfig {m : Shared} {x : Call} : x.pc = .starting →
      CallStep c m x .readConfig m { x with pc := .running, ran := true }
  | perform {m : Shared} {x : Call} (e : IoEvent) : x.pc = .running →
      x.args.body.performs m.config (x.trace ++ [e]) → x.Answers e →
      CallStep c m x (.perform e) m { x with trace := x.trace ++ [e] }
  | leave {m : Shared} {x : Call} {r : CompressionResult} : x.pc = .running →
      x.args.body.returns m.config x.trace r →
      CallStep c m x .leave m { x with pc := if x.args.async then .storing r else .releasing r }
  | storeResult {m : Shared} {x : Call} {r : CompressionResult} : x.pc = .storing r →
      CallStep c m x .storeResult m { x with result := r, pc := .settingState r }
  | storeState {m : Shared} {x : Call} {r : CompressionResult} : x.pc = .settingState r →
      CallStep c m x .storeState m { x with state := finalState r.error, pc := .copying }
  -- `finishAsyncJob`
  | copy {m : Shared} {x : Call} : x.pc = .copying →
      CallStep c m x .copy m { x with pc := .publishing x.result }
  | publish {m : Shared} {x : Call} {r : CompressionResult} : x.pc = .publishing r →
      CallStep c m x .publish
        { m with
          lastResult := r
          activeJob := if m.activeJob = some c then none else m.activeJob
          busy := false
          writes := m.writes ++ [(c,r)] }
        { x with pc := .notifying r }
  | complete {m : Shared} {x : Call} {r : CompressionResult} : x.pc = .notifying r →
      x.args.onComplete = true →
      CallStep c m x (.complete r) m { x with pc := .ended, completions := x.completions ++ [r] }
  | finish {m : Shared} {x : Call} {r : CompressionResult} : x.pc = .notifying r →
      x.args.onComplete = false → CallStep c m x .finish m { x with pc := .ended }
  -- the end of `compress` and `decompress`
  | release {m : Shared} {x : Call} {r : CompressionResult} : x.pc = .releasing r →
      CallStep c m x .release { m with busy := false } { x with pc := .storingLast r }
  | storeLast {m : Shared} {x : Call} {r : CompressionResult} : x.pc = .storingLast r →
      CallStep c m x .storeLast { m with lastResult := r, writes := m.writes ++ [(c,r)] }
        { x with result := r, pc := .ended }
  -- the handle: it is returned, and whoever has it may cancel
  | handOut {m : Shared} {x : Call} : x.args.async = true → x.handed = false →
      x.worker = true ∨ x.pc = .ended → CallStep c m x .handOut m { x with handed := true }
  | cancel {m : Shared} {x : Call} : x.handed = true →
      CallStep c m x .cancel m { x with cancelRequested := true }

/-- Where a call of `deinit` is: it cancels the active job, waits for its state, waits for the slot. -/
inductive DeinitPc
  | absent
  | cancelling (job : ℕ)
  | polling (job : ℕ)
  | draining
  | returned
  deriving DecidableEq

inductive DeinitAction
  | begin
  | cancel
  | seeDone
  | return
  deriving DecidableEq

structure State where
  shared : Shared := {}
  calls : ℕ → Call
  deinits : ℕ → DeinitPc := fun _ => .absent

inductive Label
  | init (config : ESPCompressorConfig) (error : CompressionError)
  | deinit (d : ℕ) (a : DeinitAction)
  | call (c : ℕ) (a : Action)

/-- The first step of a call. -/
def Label.Starts : Label → Prop
  | .init _ _ => True
  | .deinit _ a => a = .begin
  | .call _ (.enter _) => True
  | .call _ _ => False

def State.setCall (s : State) (c : ℕ) (x : Call) : State := { s with calls := Function.update s.calls c x }

def State.setDeinit (s : State) (d : ℕ) (pc : DeinitPc) : State :=
  { s with deinits := Function.update s.deinits d pc }

def State.setShared (s : State) (m : Shared) : State := { s with shared := m }

@[simp] theorem State.setCall_shared (s : State) (c : ℕ) (x : Call) : (s.setCall c x).shared = s.shared := rfl

@[simp] theorem State.setCall_calls (s : State) (c : ℕ) (x : Call) :
    (s.setCall c x).calls = Function.update s.calls c x := rfl

@[simp] theorem State.setCall_deinits (s : State) (c : ℕ) (x : Call) : (s.setCall c x).deinits = s.deinits := rfl

@[simp] theorem State.setDeinit_shared (s : State) (d : ℕ) (pc : DeinitPc) :
    (s.setDeinit d pc).shared = s.shared := rfl

@[simp] theorem State.setDeinit_calls (s : State) (d : ℕ) (pc : DeinitPc) :
    (s.setDeinit d pc).calls = s.calls := rfl

@[simp] theorem State.setShared_shared (s : State) (m : Shared) : (s.setShared m).shared = m := rfl

@[simp] theorem State.setShared_calls (s : State) (m : Shared) : (s.setShared m).calls = s.calls := rfl

/-- What `init` returns. -/
def initError (m : Shared) (config : ESPCompressorConfig) (e : CompressionError) : Prop :=
  ¬config.Valid ∧ e = .invalidArgument ∨ config.Valid ∧ m.busy = true ∧ e = .busy

/-- The steps of the system. A look of `deinit` that has to wait changes nothing and is left out. -/
inductive Step : State → Label → State → Prop
  | init {s : State} {config : ESPCompressorConfig} : config.Valid → s.shared.busy = false →
      Step s (.init config .ok) (s.setShared { s.shared with config, initialized := true })
  | refuseInit {s : State} {config : ESPCompressorConfig} {e : CompressionError} :
      initError s.shared config e → Step s (.init config e) s
  | begin {s : State} {d : ℕ} : s.deinits d = .absent →
      Step s (.deinit d .begin) ((s.setShared { s.shared with initialized := false }).setDeinit d
        (match s.shared.activeJob with
          | some job => .cancelling job
          | none => .draining))
  | cancel {s : State} {d job : ℕ} : s.deinits d = .cancelling job →
      Step s (.deinit d .cancel)
        ((s.setCall job { s.calls job with cancelRequested := true }).setDeinit d (.polling job))
  | seeDone {s : State} {d job : ℕ} : s.deinits d = .polling job → (s.calls job).state.done = true →
      Step s (.deinit d .seeDone) (s.setDeinit d .draining)
  | return {s : State} {d : ℕ} : s.deinits d = .draining → s.shared.busy = false →
      Step s (.deinit d .return) ((s.setShared { s.shared with activeJob := none }).setDeinit d .returned)
  | call {s : State} {c : ℕ} {a : Action} {m : Shared} {x : Call} :
      CallStep c s.shared (s.calls c) a m x → Step s (.call c a) ((s.setShared m).setCall c x)

/-- A new compressor, on which no call has been made. -/
def Initial (s : State) : Prop :=
  s.shared = {} ∧ (∀ c, ∃ args, s.calls c = { args }) ∧ ∀ d, s.deinits d = .absent

/-- The initial state; the arguments are those of the first step of each call. -/
def State.new : State where
  calls _ := { args := {
    async := false
    operation := .compress
    body := ⟨fun _ _ => False,fun _ _ _ => False⟩ } }

theorem State.new_initial : Initial .new := ⟨rfl,fun _ => ⟨_,rfl⟩,fun _ => rfl⟩

end JobControl
end EspCompressor
