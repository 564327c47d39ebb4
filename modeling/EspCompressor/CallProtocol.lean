import EspCompressor.Histories
import EspCompressor.RunPairs
import EspCompressor.Session

/-! The order of the calls that a run makes to its source and its sink. -/
namespace EspCompressor

/-- The call, if it reports an error at all, has worked. -/
def IoEvent.Succeeded : IoEvent → Prop
  | .sourceOpen e => e = .ok
  | .sinkOpen e => e = .ok
  | .read _ e _ => e = .ok
  | .write _ e => e = .ok
  | .commit e => e = .ok
  | _ => True

def IoEvent.IsTransfer : IoEvent → Prop
  | .read _ _ _ => True
  | .write _ _ => True
  | _ => False

/-- What happens in a session that goes on. -/
def IoEvent.GoesOn : IoEvent → Prop
  | .write _ e => e = .ok
  | .cancelLoad answer => answer = false
  | e => e.Asks

/-- The calls that end a session. -/
def IoEvent.EndsSession : IoEvent → Prop
  | .abort => True
  | .sinkClose => True
  | .sourceClose => True
  | _ => False

theorem IoEvent.Asks.goesOn {e : IoEvent} (h : e.Asks) : e.GoesOn := by
  cases e <;> first | exact h | exact h.elim

theorem IoEvent.GoesOn.succeeded {e : IoEvent} (h : e.GoesOn) : e.Succeeded := by
  cases e <;> first | exact h | exact h.elim | trivial

theorem IoEvent.GoesOn.not_commit {e : CompressionError} : ¬(IoEvent.commit e).GoesOn := id

theorem IoEvent.GoesOn.not_endsSession {e : IoEvent} (h : e.GoesOn) : ¬e.EndsSession := by
  cases e <;> first | exact h.elim | exact id

/-- The two calls that open a session. -/
def opens : List IoEvent := [.sourceOpen .ok,.sinkOpen .ok]

/-- The cancel flag was loaded last, and found clear. -/
def Checked (body : List IoEvent) : Prop := ∃ before, body = before ++ [.cancelLoad false]

/-- What ends a session early: nothing that it calls, the cancel flag, or a call that fails; a commit
only follows a look at the cancel flag. -/
inductive LastCall (body : List IoEvent) : List IoEvent → Prop
  | none : LastCall body []
  | cancelled : LastCall body [.cancelLoad true]
  | read (n : ℕ) {e : CompressionError} (data : List UInt8) : e ≠ .ok → LastCall body [.read n e data]
  | write (bytes : List UInt8) {e : CompressionError} : e ≠ .ok → LastCall body [.write bytes e]
  | commit {e : CompressionError} : Checked body → e ≠ .ok → LastCall body [.commit e]

/-- The trace of a run that was not rejected, and the error it returns. -/
inductive RunTrace : List IoEvent → CompressionError → Prop
  | sourceFailed {e : CompressionError} : e ≠ .ok → RunTrace [.sourceOpen e,.sinkClose,.sourceClose] e
  | sinkFailed {e : CompressionError} : e ≠ .ok →
      RunTrace [.sourceOpen .ok,.sinkOpen e,.sinkClose,.sourceClose] e
  | aborted {body last : List IoEvent} {e : CompressionError} : (∀ x ∈ body, x.GoesOn) →
      LastCall body last → e ≠ .ok →
      RunTrace (opens ++ (body ++ last) ++ [.abort,.sinkClose,.sourceClose]) e
  | committed {body : List IoEvent} (reports : List CompressionProgress) : (∀ x ∈ body, x.GoesOn) →
      Checked body →
      RunTrace (opens ++ (body ++ .commit .ok :: reports.map .progress) ++ [.sinkClose,.sourceClose]) .ok

/-! ### What the source and the sink may rely on -/

/-- When a call may be made, by the calls made before it. -/
def CallAllowed (before : List IoEvent) : IoEvent → Prop
  | .sinkOpen _ => .sourceOpen .ok ∈ before
  | .read _ _ _ => opens ⊆ before ∧ (∀ x ∈ before, x.IsTransfer → x.Succeeded) ∧ ∀ e, .commit e ∉ before
  | .write _ _ => opens ⊆ before ∧ (∀ x ∈ before, x.IsTransfer → x.Succeeded) ∧ ∀ e, .commit e ∉ before
  | .commit _ => (∀ x ∈ before, x.Succeeded) ∧ ∀ e, .commit e ∉ before
  | _ => True

/-- The protocol of a session that has ended with the given error. -/
structure ObeysProtocol (trace : List IoEvent) (error : CompressionError) : Prop where
  closes : ∃ calls, trace = calls ++ [.sinkClose,.sourceClose] ∧ .sinkClose ∉ calls ∧ .sourceClose ∉ calls
  ordered : Histories.Each CallAllowed trace
  aborts : trace.count .abort = if .sinkOpen .ok ∈ trace ∧ .commit .ok ∉ trace then 1 else 0
  ok_iff : error = .ok ↔ .commit .ok ∈ trace

/-- In a session that goes on, every call may come next. -/
theorem allowed_of_goesOn {body : List IoEvent} (h : ∀ x ∈ body, x.GoesOn) (e : IoEvent) :
    CallAllowed (opens ++ body) e := by
  have hopens : opens ⊆ opens ++ body := List.subset_append_left _ _
  have hsucceeded : ∀ x ∈ opens ++ body, x.Succeeded := by
    intro x hx
    rcases List.mem_append.mp hx with hx | hx
    · simp only [opens,List.mem_cons,List.not_mem_nil,or_false] at hx
      rcases hx with rfl | rfl <;> rfl
    · exact (h x hx).succeeded
  have hcommit : ∀ e, IoEvent.commit e ∉ opens ++ body := by
    intro e he
    rcases List.mem_append.mp he with he | he
    · simp [opens] at he
    · exact (h _ he).not_commit
  cases e with
  | sinkOpen _ => exact hopens (by simp [opens])
  | read _ _ _ => exact ⟨hopens,fun x hx _ => hsucceeded x hx,hcommit⟩
  | write _ _ => exact ⟨hopens,fun x hx _ => hsucceeded x hx,hcommit⟩
  | commit _ => exact ⟨hsucceeded,hcommit⟩
  | _ => trivial

theorem opens_ordered : Histories.Each CallAllowed opens := by
  simp [opens,Histories.each_cons,Histories.each_nil,CallAllowed]

/-- A session that goes on is in order. -/
theorem ordered_of_goesOn {body : List IoEvent} (h : ∀ x ∈ body, x.GoesOn) :
    Histories.Each CallAllowed (opens ++ body) :=
  Histories.each_append.mpr ⟨opens_ordered,Histories.each_of_forall fun _ hbefore e _ =>
    allowed_of_goesOn (fun x hx => h x (hbefore hx)) e⟩

/-- A call after which nothing is left to do but what may be done at any time. -/
theorem ordered_append {body last : List IoEvent} (h : ∀ x ∈ body, x.GoesOn) (e : IoEvent)
    (hlast : ∀ before, ∀ x ∈ last, CallAllowed before x) :
    Histories.Each CallAllowed (opens ++ (body ++ e :: last)) := by
  rw [← List.append_assoc,Histories.each_append,Histories.each_cons]
  refine ⟨ordered_of_goesOn h,?_,Histories.each_of_forall fun _ _ x hx => hlast _ x hx⟩
  rw [List.append_nil]
  exact allowed_of_goesOn h e

/-- The calls of a session, and the destructor after them. -/
theorem ObeysProtocol.of_calls (calls last : List IoEvent) {error : CompressionError}
    (hordered : Histories.Each CallAllowed calls) (hquiet : ∀ x ∈ calls, ¬x.EndsSession)
    (hlast : last = if .sinkOpen .ok ∈ calls ∧ .commit .ok ∉ calls then [.abort] else [])
    (hok : error = .ok ↔ .commit .ok ∈ calls) :
    ObeysProtocol (calls ++ last ++ [.sinkClose,.sourceClose]) error := by
  have habort : calls.count .abort = 0 :=
    List.count_eq_zero.mpr fun h => hquiet _ h trivial
  have hfree : ∀ x ∈ last, x = .abort := by
    intro x hx
    rw [hlast] at hx
    split at hx <;> simp_all
  have hmem : ∀ e : IoEvent, ¬e.EndsSession → (e ∈ calls ++ last ++ [.sinkClose,.sourceClose] ↔ e ∈ calls) := by
    intro e he
    constructor
    · intro h
      simp only [List.mem_append,List.mem_cons,List.not_mem_nil,or_false] at h
      rcases h with (h | h) | rfl | rfl
      · exact h
      · rw [hfree e h] at he
        exact absurd trivial he
      · exact absurd trivial he
      · exact absurd trivial he
    · exact fun h => by simp [h]
  refine ⟨⟨calls ++ last,rfl,fun h => ?_,fun h => ?_⟩,?_,?_,?_⟩
  · rcases List.mem_append.mp h with h | h
    · exact hquiet _ h trivial
    · exact absurd (hfree _ h) (by simp)
  · rcases List.mem_append.mp h with h | h
    · exact hquiet _ h trivial
    · exact absurd (hfree _ h) (by simp)
  · rw [List.append_assoc,Histories.each_append]
    refine ⟨hordered,Histories.each_of_forall fun _ _ x hx => ?_⟩
    have hx : x = .abort ∨ x = .sinkClose ∨ x = .sourceClose := by
      rcases List.mem_append.mp hx with hx | hx
      · exact .inl (hfree x hx)
      · exact .inr (by simpa using hx)
    rcases hx with rfl | rfl | rfl <;> trivial
  · have hiff := and_congr (hmem (.sinkOpen .ok) id) (not_congr (hmem (.commit .ok) id))
    rw [List.count_append,List.count_append,habort]
    by_cases h : .sinkOpen .ok ∈ calls ∧ .commit .ok ∉ calls
    · rw [if_pos (hiff.mpr h),hlast,if_pos h]
      rfl
    · rw [if_neg (mt hiff.mp h),hlast,if_neg h]
      rfl
  · rw [hok,hmem (.commit .ok) id]

theorem LastCall.cases_eq {body last : List IoEvent} (h : LastCall body last) :
    last = [] ∨ ∃ e, last = [e] ∧ ¬e.EndsSession ∧ e ≠ .commit .ok := by
  cases h with
  | none => exact .inl rfl
  | cancelled => exact .inr ⟨_,rfl,id,by simp⟩
  | read _ _ _ => exact .inr ⟨_,rfl,id,by simp⟩
  | write _ _ => exact .inr ⟨_,rfl,id,by simp⟩
  | commit _ he => exact .inr ⟨_,rfl,id,by simpa using he⟩

/-- Nothing in a session that goes on ends it. -/
theorem quiet_of_goesOn {body last : List IoEvent} (h : ∀ x ∈ body, x.GoesOn)
    (hlast : ∀ x ∈ last, ¬x.EndsSession) : ∀ x ∈ opens ++ (body ++ last), ¬x.EndsSession := by
  intro x hx
  rw [List.mem_append,List.mem_append] at hx
  rcases hx with hx | hx | hx
  · simp only [opens,List.mem_cons,List.not_mem_nil,or_false] at hx
    rcases hx with rfl | rfl <;> exact id
  · exact (h x hx).not_endsSession
  · exact hlast x hx

theorem sinkOpen_mem_opens (calls : List IoEvent) : IoEvent.sinkOpen .ok ∈ opens ++ calls := by
  simp [opens]

/-- Only what ends it can be the commit of a session. -/
theorem commit_mem_iff {body last : List IoEvent} (h : ∀ x ∈ body, x.GoesOn) :
    IoEvent.commit .ok ∈ opens ++ (body ++ last) ↔ .commit .ok ∈ last := by
  constructor
  · intro hmem
    rw [List.mem_append,List.mem_append] at hmem
    rcases hmem with hmem | hmem | hmem
    · simp [opens] at hmem
    · exact (h _ hmem).not_commit.elim
    · exact hmem
  · exact fun hmem => by simp [hmem]

/-- Every trace of a run that was not rejected follows the protocol. -/
theorem RunTrace.obeys {trace : List IoEvent} {error : CompressionError} (h : RunTrace trace error) :
    ObeysProtocol trace error := by
  cases h with
  | sourceFailed he =>
    refine ObeysProtocol.of_calls [.sourceOpen error] [] ?_ ?_ ?_ ?_
    · simp [Histories.each_cons,Histories.each_nil,CallAllowed]
    · simp [IoEvent.EndsSession]
    · simp
    · simpa using he
  | sinkFailed he =>
    refine ObeysProtocol.of_calls [.sourceOpen .ok,.sinkOpen error] [] ?_ ?_ ?_ ?_
    · simp [Histories.each_cons,Histories.each_nil,CallAllowed]
    · simp [IoEvent.EndsSession]
    · simpa using fun h => he h.symm
    · simpa using he
  | @aborted body last _ hbody hlast he =>
    have hcommit : IoEvent.commit .ok ∉ opens ++ (body ++ last) := by
      rw [commit_mem_iff hbody]
      rcases hlast.cases_eq with rfl | ⟨e,rfl,-,hne⟩
      · simp
      · simpa using fun h => hne h.symm
    rw [show [IoEvent.abort,.sinkClose,.sourceClose] = [.abort] ++ [.sinkClose,.sourceClose] from rfl,
      ← List.append_assoc]
    refine ObeysProtocol.of_calls (opens ++ (body ++ last)) [.abort] ?_ (quiet_of_goesOn hbody ?_) ?_ ?_
    · rcases hlast.cases_eq with rfl | ⟨e,rfl,-,-⟩
      · rw [List.append_nil]
        exact ordered_of_goesOn hbody
      · exact ordered_append hbody e (by simp)
    · rcases hlast.cases_eq with rfl | ⟨e,rfl,hquiet,-⟩
      · simp
      · simpa using hquiet
    · rw [if_pos ⟨sinkOpen_mem_opens _,hcommit⟩]
    · simp [he,hcommit]
  | @committed body reports hbody _ =>
    have hcommit : IoEvent.commit .ok ∈ opens ++ (body ++ .commit .ok :: reports.map .progress) := by
      rw [commit_mem_iff hbody]
      exact List.mem_cons_self
    rw [← List.append_nil (opens ++ _)]
    refine ObeysProtocol.of_calls (opens ++ (body ++ .commit .ok :: reports.map .progress)) []
      (ordered_append hbody (.commit .ok) ?_) (quiet_of_goesOn hbody ?_) ?_ ?_
    · simp [CallAllowed]
    · simp [IoEvent.EndsSession]
    · rw [if_neg fun h => h.2 hcommit]
    · simp [hcommit]

namespace Compressor

variable {σ κ : Type}

/-- A session that goes on. -/
structure Opened (s : RunState σ κ) : Prop where
  opened : s.opened = true
  uncommitted : s.committed = false
  trace_eq : ∃ body, s.trace = opens ++ body ∧ ∀ x ∈ body, x.GoesOn

/-- A session that goes on, right after the cancel flag was found clear. -/
structure OpenedChecked (s : RunState σ κ) : Prop where
  opened : s.opened = true
  uncommitted : s.committed = false
  trace_eq : ∃ body, s.trace = opens ++ body ∧ (∀ x ∈ body, x.GoesOn) ∧ Checked body

/-- A session that returns an error. -/
structure Leaves (r : CompressionResult) (s : RunState σ κ) : Prop where
  error_ne : r.error ≠ .ok
  opened : s.opened = true
  uncommitted : s.committed = false
  trace_eq : ∃ body last, s.trace = opens ++ (body ++ last) ∧ (∀ x ∈ body, x.GoesOn) ∧ LastCall body last

/-- A session that has committed. -/
structure Closed (s : RunState σ κ) : Prop where
  committed : s.committed = true
  trace_eq : ∃ (body : List IoEvent) (reports : List CompressionProgress),
    s.trace = opens ++ (body ++ .commit .ok :: reports.map .progress) ∧ (∀ x ∈ body, x.GoesOn) ∧
      Checked body

theorem OpenedChecked.toOpened {s : RunState σ κ} (h : OpenedChecked s) : Opened s := by
  obtain ⟨body,htrace,hbody,-⟩ := h.trace_eq
  exact ⟨h.opened,h.uncommitted,body,htrace,hbody⟩

theorem goesOn_append {body : List IoEvent} {e : IoEvent} (h : ∀ x ∈ body, x.GoesOn) (he : e.GoesOn) :
    ∀ x ∈ body ++ [e], x.GoesOn := by
  intro x hx
  rcases List.mem_append.mp hx with hx | hx
  · exact h x hx
  · rw [List.mem_singleton.mp hx]
    exact he

/-- An event after which the session goes on. -/
theorem Opened.more {s s' : RunState σ κ} (h : Opened s) (e : IoEvent) (he : e.GoesOn)
    (hopened : s'.opened = s.opened) (hcommitted : s'.committed = s.committed)
    (htrace : s'.trace = s.trace ++ [e]) : Opened s' := by
  obtain ⟨body,hbody,hgoes⟩ := h.trace_eq
  refine ⟨hopened.trans h.opened,hcommitted.trans h.uncommitted,body ++ [e],?_,goesOn_append hgoes he⟩
  rw [htrace,hbody,List.append_assoc]

/-- An event that ends the session. -/
theorem Opened.leaves {s s' : RunState σ κ} (h : Opened s) {last : List IoEvent}
    (hlast : ∀ body, LastCall body last) {r : CompressionResult} (hr : r.error ≠ .ok)
    (hopened : s'.opened = s.opened) (hcommitted : s'.committed = s.committed)
    (htrace : s'.trace = s.trace ++ last) : Leaves r s' := by
  obtain ⟨body,hbody,hgoes⟩ := h.trace_eq
  refine ⟨hr,hopened.trans h.opened,hcommitted.trans h.uncommitted,body,last,?_,hgoes,hlast body⟩
  rw [htrace,hbody,List.append_assoc]

/-- Both runs are the same one, in a state of the given kind. -/
def Both (I : RunState σ κ → Prop) (s t : RunState σ κ) : Prop := s = t ∧ I s

/-- What the calls of a session do. -/
theorem protocol (ctx : RunContext σ κ) : Coupled ctx ctx.sink ctx.cancelRequested (Both Opened)
    (Both OpenedChecked) (Both Closed) (fun r => Both (Leaves r)) fun _ _ _ => False where
  source_eq h := by rw [h.1]
  heap_eq h := by rw [h.1]
  bytesWritten_eq h := by rcases h with h | h <;> rw [h.1]
  returns h r hr := ⟨h.1,h.2.leaves (fun _ => .none) hr rfl rfl (List.append_nil _).symm⟩
  asks := by
    rintro s _ ⟨rfl,h⟩ source e he
    exact ⟨rfl,h.more e he.goesOn rfl rfl rfl⟩
  readFails := by
    rintro s _ ⟨rfl,h⟩ source n e data he r hr
    exact ⟨rfl,h.leaves (fun _ => .read n data he) hr rfl rfl rfl⟩
  allocates := by
    rintro s _ ⟨rfl,h⟩ heap
    exact ⟨rfl,h.opened,h.uncommitted,h.trace_eq⟩
  cancels r := by
    let After (cancelled : Bool) (s t : RunState σ κ) : Prop := s = t ∧
      (cancelled = false → OpenedChecked s) ∧
      (cancelled = true → ∀ r : CompressionResult, r.error ≠ .ok → Leaves r s)
    refine Proc.Lockstep.bind (Q := After) (.lift (fun _ => List.prefix_append _ _) ?_)
      fun cancelled => ?_
    · rintro s _ ⟨rfl,h⟩
      refine ⟨rfl,rfl,fun hclear => ?_,fun hset r hr => ?_⟩
      · obtain ⟨body,htrace,hgoes⟩ := h.trace_eq
        refine ⟨h.opened,h.uncommitted,body ++ [.cancelLoad false],?_,?_,body,rfl⟩
        · dsimp only at hclear ⊢
          rw [htrace,hclear,List.append_assoc]
        · exact goesOn_append hgoes (show IoEvent.GoesOn (.cancelLoad false) from rfl)
      · refine h.leaves (fun _ => .cancelled) hr rfl rfl ?_
        dsimp only at hset ⊢
        rw [hset]
    · refine Proc.Lockstep.mono (.returnIf (P := After cancelled) fun hset s t h => ?_)
        (fun _ _ h => h) fun _ s t h => ?_
      · exact ⟨h.1,h.2.2 hset _ (by simp)⟩
      · exact ⟨h.1.1,h.1.2.1 (Bool.eq_false_of_not_eq_true h.2)⟩
  checked h := ⟨h.1,h.2.toOpened⟩
  writes r bytes := by
    refine writeOrReturn_alike r bytes (fun _ _ h => h) ?_
    rintro s _ ⟨rfl,h⟩
    exact ⟨rfl,fun hok => ⟨rfl,h.more (.write bytes (ctx.sink.write bytes s.sink).1) hok rfl rfl rfl⟩,
      fun hfailed r hr => ⟨rfl,h.leaves (fun _ => .write bytes hfailed) hr rfl rfl rfl⟩⟩
  commits r := by
    refine commitSession_alike r (fun _ _ h => h) ?_
    rintro s _ ⟨rfl,h⟩
    obtain ⟨body,htrace,hgoes,hchecked⟩ := h.trace_eq
    refine ⟨rfl,fun hok => ⟨rfl,rfl,body,[],?_,hgoes,hchecked⟩,fun hfailed r hr =>
      ⟨rfl,hr,h.opened,h.uncommitted,body,_,?_,hgoes,.commit hchecked hfailed⟩⟩
    · dsimp only
      rw [htrace,hok,List.append_assoc]
      rfl
    · dsimp only
      rw [htrace,List.append_assoc]
  reports := by
    rintro s _ ⟨rfl,h⟩ report
    obtain ⟨body,reports,htrace,hgoes,hchecked⟩ := h.trace_eq
    refine ⟨rfl,h.committed,body,reports ++ [report],?_,hgoes,hchecked⟩
    rw [RunState.asked,htrace]
    simp

/-! ### Whole runs -/

/-- The arguments are refused. -/
def Rejected (ctx : RunContext σ κ) (k₀ : κ) : Prop :=
  (ctx.operation = .compress ∧ (ctx.config.blockSize = 0 ∨ ctx.config.windowSize = 0 ∨
    uint32Max < ctx.config.blockSize)) ∨
  (ctx.sink.isTransactional k₀ = false ∧ ctx.options.allowPartialOutput = false)

/-- What a run has called once it has returned. -/
def Calls (ctx : RunContext σ κ) (k₀ : κ) (r : CompressionResult) (s : RunState σ κ) : Prop :=
  Rejected ctx k₀ ∧ s.trace = [] ∧ r.error = .invalidArgument ∨
    ¬Rejected ctx k₀ ∧ RunTrace s.trace r.error

variable (ctx : RunContext σ κ) {k₀ : κ}

theorem Leaves.ends {r : CompressionResult} {s : RunState σ κ} (h : Leaves r s) :
    RunTrace (destroySession ctx s).trace r.error := by
  obtain ⟨body,last,htrace,hbody,hlast⟩ := h.trace_eq
  have hend := RunTrace.aborted hbody hlast h.error_ne
  rw [← htrace] at hend
  simpa [destroySession,h.opened,h.uncommitted] using hend

theorem Closed.ends {r : CompressionResult} {s : RunState σ κ} (hr : r.error = .ok) (h : Closed s) :
    RunTrace (destroySession ctx s).trace r.error := by
  obtain ⟨body,reports,htrace,hbody,hchecked⟩ := h.trace_eq
  have hend := RunTrace.committed reports hbody hchecked
  rw [← htrace] at hend
  simpa [destroySession,h.committed,hr] using hend

/-- A session around a body that follows the protocol. -/
theorem session_calls {m : Proc CompressionResult (RunState σ κ) CompressionResult} {source : σ}
    {heap : Heap} (hm : (protocol ctx).Closes m m) (hsafe : Closes ctx.sink k₀ m)
    (result : CompressionResult) :
    Proc.wp (Proc.destroying (destroySession ctx) (do openSession ctx result; m))
      (fun r s => RunTrace s.trace r.error) (fun r s => RunTrace s.trace r.error) Opened
      (.start source k₀ heap) := by
  simp only [Proc.wp_destroying,openSession,openSource,openSink,Proc.wp_bind,Proc.wp_lift,check,
    Proc.wp_returnIf,Proc.wp_modify]
  refine ⟨fun he => .sourceFailed he,fun hsource => ⟨fun he => ?_,fun he => ?_⟩⟩
  · have hok : (ctx.source.open' source).1 = .ok := not_not.mp hsource
    have hend := RunTrace.sinkFailed he
    rw [← hok] at hend
    exact hend
  · have hsourceOk : (ctx.source.open' source).1 = .ok := not_not.mp hsource
    have hsinkOk : (ctx.sink.open' k₀).1 = .ok := not_not.mp he
    let s : RunState σ κ := {
      source := (ctx.source.open' source).2
      sink := (ctx.sink.open' k₀).2
      heap := heap
      opened := true
      trace := [.sourceOpen (ctx.source.open' source).1,.sinkOpen (ctx.sink.open' k₀).1] }
    have hopened : Opened s := by
      refine ⟨rfl,rfl,[],?_,by simp⟩
      change [IoEvent.sourceOpen _,IoEvent.sinkOpen _] = _
      rw [hsourceOk,hsinkOk]
      rfl
    have htransfer : Transfer ctx.sink k₀ s :=
      ⟨rfl,rfl,by simp [s,sinkOpened,hsinkOk],rfl,Staged.opened hsinkOk⟩
    have hruns : Proc.wp m (fun _ _ => True) (fun _ _ => True) (fun _ => True) s :=
      Proc.wp_mono (hsafe s htransfer) (fun _ _ _ => trivial) (fun _ _ _ => trivial) fun _ _ => trivial
    refine Proc.wp_mono (hm.wp_self ⟨rfl,hopened⟩ (fun _ _ _ hno => hno) hruns)
      (fun r s h => h.2.2.ends ctx h.1) (fun r s h => h.2.ends ctx) fun _ h => h.2

/-- The calls of every job, and of one that is still running. -/
theorem runSyncJob_calls (fuel : ℕ) (source : σ) (heap : Heap) :
    Proc.wp (runSyncJob ctx fuel) (Calls ctx k₀) (Calls ctx k₀) Opened (.start source k₀ heap) := by
  unfold runSyncJob runSyncJobBy
  cases hoperation : ctx.operation with
  | compress =>
    simp only [runCompress,requireTransactional,Proc.wp_bind,Proc.wp_returnIf,Proc.wp_get]
    refine ⟨fun hbad => .inl ⟨.inl ⟨hoperation,hbad⟩,rfl,rfl⟩,fun hgood =>
      ⟨fun hbad => .inl ⟨.inr hbad,rfl,rfl⟩,fun hallowed => ?_⟩⟩
    have haccepted : ¬Rejected ctx k₀ := fun hrejected => hrejected.elim (fun h => hgood h.2) hallowed
    refine Proc.wp_mono (session_calls ctx ((protocol ctx).compressSession _ fuel)
      (compressSession_closes ctx _ fuel) _) ?_ ?_ fun _ h => h
    · exact fun _ _ h => .inr ⟨haccepted,h⟩
    · exact fun _ _ h => .inr ⟨haccepted,h⟩
  | decompress =>
    simp only [runDecompressBy,requireTransactional,Proc.wp_bind,Proc.wp_returnIf,Proc.wp_get]
    refine ⟨fun hbad => .inl ⟨.inr hbad,rfl,rfl⟩,fun hallowed => ?_⟩
    have haccepted : ¬Rejected ctx k₀ := fun hrejected =>
      hrejected.elim (fun h => by rw [hoperation] at h; simp at h) hallowed
    refine Proc.wp_mono (session_calls ctx ((protocol ctx).decompressSessionBy Codec.decompressLzLiteBlock _ fuel)
      (decompressSession_closes ctx _ fuel) _) ?_ ?_ fun _ h => h
    · exact fun _ _ h => .inr ⟨haccepted,h⟩
    · exact fun _ _ h => .inr ⟨haccepted,h⟩

/-- What the source and the sink of a job have seen once it has returned. -/
def Conforms (ctx : RunContext σ κ) (k₀ : κ) (r : CompressionResult) (s : RunState σ κ) : Prop :=
  Rejected ctx k₀ ∧ r.error = .invalidArgument ∧ s.trace = [] ∨
    ¬Rejected ctx k₀ ∧ ObeysProtocol s.trace r.error

/-- What they have seen of a job that is still running. -/
def ConformsSoFar (s : RunState σ κ) : Prop :=
  Histories.Each CallAllowed s.trace ∧ ∀ e ∈ s.trace, ¬e.EndsSession ∧ e ≠ .commit .ok

theorem Opened.conforms {s : RunState σ κ} (h : Opened s) : ConformsSoFar s := by
  obtain ⟨body,htrace,hbody⟩ := h.trace_eq
  unfold ConformsSoFar
  rw [htrace]
  refine ⟨ordered_of_goesOn hbody,fun e he => ⟨?_,?_⟩⟩
  · refine quiet_of_goesOn hbody (fun _ h => absurd h List.not_mem_nil) e ?_
    rwa [List.append_nil]
  · rintro rfl
    rw [← List.append_nil body,commit_mem_iff hbody] at he
    exact absurd he List.not_mem_nil

/-- Every job keeps to the protocol of its source and its sink. -/
theorem job_conforms (fuel : ℕ) (source : σ) (k₀ : κ) (heap : Heap) :
    Proc.wp (runSyncJob ctx fuel) (Conforms ctx k₀) (Conforms ctx k₀) ConformsSoFar
      (.start source k₀ heap) := by
  have hcalls : ∀ (r : CompressionResult) (s : RunState σ κ), Calls ctx k₀ r s → Conforms ctx k₀ r s := by
    intro r s h
    rcases h with ⟨hrejected,htrace,hr⟩ | ⟨haccepted,htrace⟩
    · exact .inl ⟨hrejected,hr,htrace⟩
    · exact .inr ⟨haccepted,htrace.obeys⟩
  exact Proc.wp_mono (runSyncJob_calls ctx fuel source heap) hcalls hcalls fun _ => Opened.conforms

end Compressor
end EspCompressor
