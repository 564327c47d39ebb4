import EspCompressor.SerialJobs

/-! The calls of a compressor come to an end, and so does `deinit`: whatever the schedule, there is a bound on
the steps that they can still take, and they only stop when there is nothing left to do. -/
namespace EspCompressor
namespace JobControl

open Transitions

/-- A call, or a call of `deinit`. -/
abbrev Party := ℕ ⊕ ℕ

/-- Who goes on in a step: not in a first step of a call, and not when a handle is cancelled. -/
def Label.party : Label → Option Party
  | .init _ _ => none
  | .deinit _ .begin => none
  | .deinit d _ => some (.inr d)
  | .call _ (.enter _) => none
  | .call _ .cancel => none
  | .call c _ => some (.inl c)

/-- The flag that the run of the call sees. -/
def Call.flag (x : Call) : Bool := x.args.async && x.cancelRequested

/-- The run of the call is still to be made, or is being made. -/
def Pc.mayRun : Pc → Bool
  | .setup => true
  | .starting => true
  | .running => true
  | _ => false

theorem Pc.owns_of_mayRun {pc : Pc} (h : pc.mayRun = true) : pc.owns = true := by
  cases pc <;> simp_all [Pc.mayRun,Pc.owns]

/-- With what it has done, the run of the call makes at most `n` calls to the outside; when the flag is set,
this is about runs that see it. -/
def Call.EndsBy (config : ESPCompressorConfig) (n : ℕ) (x : Call) : Prop :=
  ∀ es, x.args.body.performs config (x.trace ++ es) →
    (x.flag = true → ∀ answer, .cancelLoad answer ∈ es → answer = true) → (x.trace ++ es).length ≤ n

/-- A run goes on until it returns, whatever the flag is. -/
def Body.GoesOn (body : Body) : Prop :=
  ∀ config trace flag, trace = [] ∨ body.performs config trace →
    (∃ e, body.performs config (trace ++ [e]) ∧ ∀ answer, e = .cancelLoad answer → answer = flag) ∨
      ∃ r, body.returns config trace r

/-! ### What is left to do -/

/-- The steps left to a call whose run still makes `n` calls to the outside. -/
def Pc.rest (n : ℕ) : Pc → ℕ
  | .absent => 0
  | .setup => n + 9
  | .rejecting _ => 6
  | .rejectingResult _ => 5
  | .starting => n + 8
  | .running => n + 7
  | .storing _ => 6
  | .settingState _ => 5
  | .copying => 4
  | .publishing _ => 3
  | .notifying _ => 1
  | .releasing _ => 2
  | .storingLast _ => 1
  | .ended => 0

/-- The steps left to the call, with the return of its handle. -/
def Call.rest (n : ℕ) (x : Call) : ℕ :=
  if x.pc = .absent then 0 else x.pc.rest (n - x.trace.length) + if x.handed = true then 0 else 1

def DeinitPc.rest : DeinitPc → ℕ
  | .absent => 0
  | .cancelling _ => 3
  | .polling _ => 2
  | .draining => 1
  | .returned => 0

def State.rest (n : ℕ → ℕ) (s : State) : Party → ℕ
  | .inl c => (s.calls c).rest (n c)
  | .inr d => (s.deinits d).rest

theorem CallStep.endsBy {c : ℕ} {m m' : Shared} {x x' : Call} {a : Action} {config : ESPCompressorConfig} {n : ℕ}
    (h : CallStep c m x a m' x') (hstart : ¬(Label.call c a).Starts) (hruns : x'.pc.mayRun = true) :
    x.pc.mayRun = true ∧ (x.EndsBy config n → x'.EndsBy config n) := by
  cases h with
  | refuse _ _ _ => exact absurd trivial hstart
  | accept _ _ _ => exact absurd trivial hstart
  | refuseSubmission _ _ _ => exact absurd trivial hstart
  | acceptSubmission _ _ _ => exact absurd trivial hstart
  | create hpc => exact ⟨by rw [hpc]; rfl,fun h => h⟩
  | readConfig hpc => exact ⟨by rw [hpc]; rfl,fun h => h⟩
  | perform e hpc _ hanswers =>
    refine ⟨by rw [hpc]; rfl,fun h es hes hflag => ?_⟩
    have hmore := h (e :: es) (by simpa using hes) fun hset answer hanswer => by
      obtain hfirst | hlater := List.mem_cons.mp hanswer
      · subst hfirst
        exact hanswers.trans hset
      · exact hflag hset answer hlater
    simpa using hmore
  | handOut _ _ _ => exact ⟨hruns,fun h => h⟩
  | cancel _ =>
    refine ⟨hruns,fun h es hes hflag => h es hes fun hset => hflag ?_⟩
    simp_all [Call.flag]
  | leave hpc _ => cases hasync : x.args.async <;> simp_all [Pc.mayRun]
  | _ => simp_all [Pc.mayRun]

/-- A step of a call leaves it less to do, but for the cancelling of its handle. -/
theorem CallStep.rest {c : ℕ} {m m' : Shared} {x x' : Call} {a : Action} {n : ℕ} (h : CallStep c m x a m' x')
    (hstart : ¬(Label.call c a).Starts) (hx : x.Coherent)
    (hends : x.pc.mayRun = true → x.EndsBy m.config n) :
    x'.rest n ≤ x.rest n ∧ (Label.party (.call c a) = some (.inl c) → x'.rest n < x.rest n) := by
  suffices hrest : a = .cancel ∧ x'.rest n = x.rest n ∨ x'.rest n < x.rest n by
    obtain ⟨rfl,hsame⟩ | hless := hrest
    · exact ⟨hsame.le,by simp [Label.party]⟩
    · exact ⟨hless.le,fun _ => hless⟩
  cases h with
  | refuse _ _ _ => exact absurd trivial hstart
  | accept _ _ _ => exact absurd trivial hstart
  | refuseSubmission _ _ _ => exact absurd trivial hstart
  | acceptSubmission _ _ _ => exact absurd trivial hstart
  | cancel _ => exact .inl ⟨rfl,rfl⟩
  | perform e hpc hperforms hanswers =>
    have hlength := hends (by rw [hpc]; rfl) [e] hperforms fun hset answer hanswer => by
      obtain rfl := List.mem_singleton.mp hanswer
      exact hanswers.trans hset
    simp only [List.length_append,List.length_singleton] at hlength
    refine .inr ?_
    simp only [Call.rest,hpc,Pc.rest,List.length_append,List.length_singleton]
    simp only [reduceCtorEq,if_false]
    omega
  | handOut _ hhanded hready =>
    refine .inr ?_
    have habsent : x.pc ≠ .absent := fun hpc => by simp_all [Call.Coherent]
    simp [Call.rest,habsent,hhanded]
  | leave hpc _ =>
    refine .inr ?_
    cases hasync : x.args.async <;> simp [Call.rest,Pc.rest,hpc]
  | fail hpc _ =>
    refine .inr ?_
    simp only [Call.rest,hpc,Pc.rest,reduceCtorEq,if_false]
    omega
  | _ =>
    refine .inr ?_
    simp_all [Call.rest,Pc.rest]

/-! ### What is known of a state -/

/-- A step of the system changes one call of `deinit` at most. -/
theorem Step.deinit_cases {s s' : State} {l : Label} (h : Step s l s') (d : ℕ) :
    s'.deinits d = s.deinits d ∨ ∃ a, l = .deinit d a := by
  by_cases hd : ∃ a, l = .deinit d a
  · exact .inr hd
  · have hother : ∀ d' a, l = .deinit d' a → d ≠ d' := fun d' a hl heq => hd ⟨a,heq ▸ hl⟩
    refine .inl ?_
    cases h with
    | begin _ => simp [State.setDeinit,State.setShared,hother _ _ rfl]
    | cancel _ => simp [State.setDeinit,State.setCall,hother _ _ rfl]
    | seeDone _ _ => simp [State.setDeinit,hother _ _ rfl]
    | «return» _ _ => simp [State.setDeinit,State.setShared,hother _ _ rfl]
    | _ => rfl

/-- Only finitely many calls have been made. -/
def Finite (s : State) : Prop :=
  {c | (s.calls c).pc ≠ .absent}.Finite ∧ {d | s.deinits d ≠ .absent}.Finite

theorem Step.finite {s s' : State} {l : Label} (h : Step s l s') (hs : Finite s) : Finite s' := by
  have hcall : {c | ∃ a, l = .call c a}.Finite := by
    refine Set.Subsingleton.finite fun c hc c' hc' => ?_
    obtain ⟨a,rfl⟩ := hc
    obtain ⟨a',ha'⟩ := hc'
    simp_all
  have hdeinit : {d | ∃ a, l = .deinit d a}.Finite := by
    refine Set.Subsingleton.finite fun d hd d' hd' => ?_
    obtain ⟨a,rfl⟩ := hd
    obtain ⟨a',ha'⟩ := hd'
    simp_all
  refine ⟨(hs.1.union hcall).subset fun c hc => ?_,(hs.2.union hdeinit).subset fun d hd => ?_⟩
  · obtain hsame | hcancelled | ⟨a,ha,_⟩ := h.call_cases c
    · exact .inl (by simpa [hsame] using hc)
    · exact .inl (by simpa [hcancelled] using hc)
    · exact .inr ⟨a,ha⟩
  · obtain hsame | ha := h.deinit_cases d
    · exact .inl (by simpa [hsame] using hd)
    · exact .inr ha

/-- Where a call of `deinit` waits for a job, the job is an accepted submission. -/
def Waits (s : State) : Prop :=
  ∀ d job, s.deinits d = .cancelling job ∨ s.deinits d = .polling job →
    (s.calls job).accepted = true ∧ (s.calls job).args.async = true

theorem Step.accepted_stays {s s' : State} {l : Label} (h : Step s l s') (hs : ∀ c, (s.calls c).Coherent) {c : ℕ}
    (hc : (s.calls c).accepted = true ∧ (s.calls c).args.async = true) :
    (s'.calls c).accepted = true ∧ (s'.calls c).args.async = true := by
  obtain hsame | hcancelled | ⟨a,_,hcall⟩ := h.call_cases c
  · rwa [hsame]
  · rwa [hcancelled]
  · have habsent : (s.calls c).pc ≠ .absent := fun hpc => by simp [(hs c).accepted_of_absent hpc] at hc
    generalize s'.shared = m', s'.calls c = x' at hcall ⊢
    cases hcall <;> simp_all

theorem Step.waits {s s' : State} {l : Label} {b : Turns.Book ℕ} (h : Step s l s') (hb : Tracks s b) (hs : Waits s) :
    Waits s' := by
  intro d job hjob
  refine h.accepted_stays hb.coherent ?_
  obtain hsame | ⟨a,rfl⟩ := h.deinit_cases d
  · rw [hsame] at hjob
    exact hs d job hjob
  · cases h with
    | @begin _ _ =>
      cases hactive : s.shared.activeJob with
      | none => simp [State.setDeinit,State.setShared,hactive] at hjob
      | some job' =>
        obtain rfl : job' = job := by simpa [State.setDeinit,State.setShared,hactive] using hjob
        obtain ⟨hholder,hasync⟩ := hb.active job' hactive
        have hlast := (hb.kept.holder_last job' hholder).1
        rw [hb.admitted] at hlast
        obtain ⟨before,hlast⟩ := hlast
        exact ⟨(hb.accepted job').mpr (by simp [hlast]),hasync⟩
    | @cancel _ job' hpc =>
      obtain rfl : job' = job := by simpa [State.setDeinit,State.setCall] using hjob
      exact hs d job' (.inl hpc)
    | seeDone _ _ => simp [State.setDeinit] at hjob
    | «return» _ _ => simp [State.setDeinit,State.setShared] at hjob

/-- What every reachable state is known to be. -/
theorem known_of_reachable {s : State} (h : Reachable Step Initial s) :
    (∃ b, Tracks s b) ∧ Finite s ∧ Waits s := by
  refine h.keeps (I := fun s => (∃ b, Tracks s b) ∧ Finite s ∧ Waits s) (fun s hs => ⟨⟨_,hs.tracks⟩,?_,?_⟩)
    fun s l s' hstep ⟨⟨b,hb⟩,hfinite,hwaits⟩ => ⟨hstep.tracks hb,hstep.finite hfinite,hstep.waits hb hwaits⟩
  · have habsent : ∀ c, (s.calls c).pc = .absent := fun c => by
      obtain ⟨args,hargs⟩ := hs.2.1 c
      rw [hargs]
    simp [Finite,habsent,hs.2.2]
  · intro d job hjob
    simp [hs.2.2 d] at hjob

theorem configured_of_running {s : State} (h : Reachable Step Initial s) {c : ℕ} (hpc : (s.calls c).pc = .running) :
    (s.calls c).trace = [] ∨ (s.calls c).args.body.performs s.shared.config (s.calls c).trace := by
  obtain ⟨s₀,ls,h₀,hrun⟩ := h
  obtain ⟨⟨b,hb⟩,_,hconfigured⟩ := configured_of_steps h₀ hrun
  have haccepted : c ∈ s.shared.accepted := by
    have hcoherent := hb.coherent c
    simp only [Call.Coherent,hpc] at hcoherent
    exact (hb.accepted c).mp hcoherent.2.2.1
  obtain ⟨config,hconfig⟩ := hconfigured.accepted c haccepted
  rw [hconfig.current (by rw [hpc]; rfl)]
  exact hconfig.runs.1

/-! ### Calls go on -/

/-- A call that has been made has a step to take, or it has ended and its handle has been returned. -/
theorem Call.goes {c : ℕ} {m : Shared} {x : Call} (hpc : x.pc ≠ .absent) (hbody : x.args.body.GoesOn)
    (hruns : x.pc = .running → x.trace = [] ∨ x.args.body.performs m.config x.trace) :
    x.pc = .ended ∧ (x.args.async = true → x.handed = true) ∨
      ∃ a m' x', CallStep c m x a m' x' ∧ (Label.call c a).party = some (.inl c) := by
  cases hx : x.pc with
  | absent => exact absurd hx hpc
  | setup => exact .inr ⟨_,_,_,.create hx,rfl⟩
  | rejecting e => exact .inr ⟨_,_,_,.storeRejected hx,rfl⟩
  | rejectingResult e => exact .inr ⟨_,_,_,.storeError hx,rfl⟩
  | starting => exact .inr ⟨_,_,_,.readConfig hx,rfl⟩
  | running =>
    obtain ⟨e,hperforms,hanswers⟩ | ⟨r,hreturns⟩ := hbody m.config x.trace x.flag (hruns hx)
    · refine .inr ⟨_,_,_,.perform e hx hperforms ?_,rfl⟩
      cases e with
      | cancelLoad answer => exact hanswers answer rfl
      | _ => trivial
    · exact .inr ⟨_,_,_,.leave hx hreturns,rfl⟩
  | storing r => exact .inr ⟨_,_,_,.storeResult hx,rfl⟩
  | settingState r => exact .inr ⟨_,_,_,.storeState hx,rfl⟩
  | copying => exact .inr ⟨_,_,_,.copy hx,rfl⟩
  | publishing r => exact .inr ⟨_,_,_,.publish hx,rfl⟩
  | notifying r =>
    cases hcallback : x.args.onComplete with
    | true => exact .inr ⟨_,_,_,.complete hx hcallback,rfl⟩
    | false => exact .inr ⟨_,_,_,.finish hx hcallback,rfl⟩
  | releasing r => exact .inr ⟨_,_,_,.release hx,rfl⟩
  | storingLast r => exact .inr ⟨_,_,_,.storeLast hx,rfl⟩
  | ended =>
    by_cases hhandle : x.args.async = true ∧ x.handed = false
    · exact .inr ⟨_,_,_,.handOut hhandle.1 hhandle.2 (.inr hx),rfl⟩
    · exact .inl ⟨rfl,fun hasync => by simpa [hasync] using hhandle⟩

/-- There is nothing left to do: every call has ended and returned, every `deinit` too, and the slot is free. -/
structure Quiet (s : State) : Prop where
  calls : ∀ c, (s.calls c).pc = .absent ∨
    (s.calls c).pc = .ended ∧ ((s.calls c).args.async = true → (s.calls c).handed = true)
  deinits : ∀ d, s.deinits d = .absent ∨ s.deinits d = .returned
  free : s.shared.busy = false

/-- There is no deadlock: someone can go on, or there is nothing left to do. -/
theorem quiet_or_goes {s : State} (h : Reachable Step Initial s) (hbodies : ∀ c, (s.calls c).pc ≠ .absent → (s.calls c).args.body.GoesOn) :
    Quiet s ∨ ∃ l s', l.party.isSome = true ∧ Step s l s' := by
  by_contra hstuck
  rw [not_or] at hstuck
  obtain ⟨hquiet,hnone⟩ := hstuck
  obtain ⟨⟨b,hb⟩,_,hwaits⟩ := known_of_reachable h
  have hcalls : ∀ c, (s.calls c).pc = .absent ∨
      (s.calls c).pc = .ended ∧ ((s.calls c).args.async = true → (s.calls c).handed = true) := by
    intro c
    by_cases hpc : (s.calls c).pc = .absent
    · exact .inl hpc
    · obtain hended | ⟨a,m',x',hcall,hparty⟩ := Call.goes (c := c) hpc (hbodies c hpc) (configured_of_running h)
      · exact .inr hended
      · exact absurd ⟨_,_,by rw [hparty]; rfl,.call hcall⟩ hnone
  have hfree : s.shared.busy = false := by
    by_contra hbusy
    obtain ⟨c,howns⟩ := hb.busy_iff.mp (by simpa using hbusy)
    obtain hpc | ⟨hpc,_⟩ := hcalls c <;> simp [hpc,Pc.owns] at howns
  refine hquiet ⟨hcalls,fun d => ?_,hfree⟩
  cases hd : s.deinits d with
  | absent => exact .inl rfl
  | returned => exact .inr rfl
  | cancelling job => exact absurd ⟨_,_,rfl,.cancel hd⟩ hnone
  | draining => exact absurd ⟨_,_,rfl,.return hd hfree⟩ hnone
  | polling job =>
    -- The job has been accepted, so it has ended, and its state is a final one.
    obtain ⟨haccepted,hasync⟩ := hwaits d job (.inr hd)
    have hcoherent := hb.coherent job
    have hdone : (s.calls job).state.done = true := by
      obtain hpc | ⟨hpc,_⟩ := hcalls job
      · simp [hcoherent.accepted_of_absent hpc] at haccepted
      · simp only [Call.Coherent,hpc] at hcoherent
        exact (hcoherent.2.2.1 hasync).1.done
    exact absurd ⟨_,_,rfl,.seeDone hd hdone⟩ hnone

/-! ### Calls come to an end -/

/-- A reachable state in which each run makes so many calls to the outside at most. -/
structure Bounded (n : ℕ → ℕ) (s : State) : Prop where
  reachable : Reachable Step Initial s
  ends : ∀ c, (s.calls c).pc.mayRun = true → (s.calls c).EndsBy s.shared.config (n c)

theorem Call.EndsBy.cancelled {config : ESPCompressorConfig} {n : ℕ} {x : Call} (h : x.EndsBy config n) :
    { x with cancelRequested := true }.EndsBy config n :=
  fun es hes hflag => h es hes fun hset => hflag (by simp_all [Call.flag])

section Bounded

variable {n : ℕ → ℕ} {s s' : State} {l : Label}

theorem Bounded.step (h : Bounded n s) (hstep : Step s l s') (hstart : ¬l.Starts) : Bounded n s' where
  reachable := by
    obtain ⟨s₀,ls,h₀,hrun⟩ := h.reachable
    exact ⟨s₀,ls ++ [l],h₀,hrun.append (.one hstep)⟩
  ends c hruns := by
    obtain ⟨⟨b,hb⟩,_⟩ := known_of_reachable h.reachable
    have hconfig : (s.calls c).pc.mayRun = true → s'.shared.config = s.shared.config := fun hbefore =>
      hstep.config (hb.busy_iff.mpr ⟨c,Pc.owns_of_mayRun hbefore⟩)
    obtain hsame | hcancelled | ⟨a,rfl,hcall⟩ := hstep.call_cases c
    · rw [hsame] at hruns ⊢
      rw [hconfig hruns]
      exact h.ends c hruns
    · rw [hcancelled] at hruns ⊢
      rw [hconfig hruns]
      exact (h.ends c hruns).cancelled
    · obtain ⟨hbefore,hends⟩ := hcall.endsBy hstart hruns
      rw [hconfig hbefore]
      exact hends (h.ends c hbefore)

/-- No step makes more to do, and one that a party takes for itself leaves it less. -/
theorem Bounded.rest (h : Bounded n s) (hstep : Step s l s') (hstart : ¬l.Starts) :
    (∀ i, s'.rest n i ≤ s.rest n i) ∧ ∀ i, l.party = some i → s'.rest n i < s.rest n i := by
  have hcoherent := coherent_of_reachable h.reachable
  have hcalls : ∀ c, (s'.calls c).rest (n c) ≤ (s.calls c).rest (n c) ∧
      (l.party = some (.inl c) → (s'.calls c).rest (n c) < (s.calls c).rest (n c)) := by
    intro c
    by_cases hl : ∃ a, l = .call c a
    · obtain ⟨a,rfl⟩ := hl
      cases hstep with
      | call hcall => simpa using hcall.rest hstart (hcoherent c) (h.ends c)
    · have hparty : l.party ≠ some (.inl c) := by
        intro hparty
        unfold Label.party at hparty
        split at hparty <;> simp_all
      obtain hsame | hcancelled | ⟨a,ha,_⟩ := hstep.call_cases c
      · rw [hsame]
        exact ⟨le_rfl,fun heq => absurd heq hparty⟩
      · rw [hcancelled]
        exact ⟨le_rfl,fun heq => absurd heq hparty⟩
      · exact absurd ⟨a,ha⟩ hl
  have hdeinits : ∀ d, (s'.deinits d).rest ≤ (s.deinits d).rest ∧
      (l.party = some (.inr d) → (s'.deinits d).rest < (s.deinits d).rest) := by
    intro d
    by_cases hl : ∃ a, l = .deinit d a
    · obtain ⟨a,rfl⟩ := hl
      cases hstep with
      | begin _ => exact absurd rfl hstart
      | cancel hd => simp [State.setDeinit,State.setCall,hd,DeinitPc.rest]
      | seeDone hd _ => simp [State.setDeinit,hd,DeinitPc.rest]
      | «return» hd _ => simp [State.setDeinit,State.setShared,hd,DeinitPc.rest]
    · have hparty : l.party ≠ some (.inr d) := by
        intro hparty
        unfold Label.party at hparty
        split at hparty <;> simp_all
      obtain hsame | ha := hstep.deinit_cases d
      · rw [hsame]
        exact ⟨le_rfl,fun heq => absurd heq hparty⟩
      · exact absurd ha hl
  refine ⟨fun i => ?_,fun i hi => ?_⟩
  · cases i with
    | inl c => exact (hcalls c).1
    | inr d => exact (hdeinits d).1
  · cases i with
    | inl c => exact (hcalls c).2 hi
    | inr d => exact (hdeinits d).2 hi

end Bounded

/-- Without new calls the calls are those that were made, with their arguments. -/
theorem made_of_steps {s s' : State} {ls : List Label} (h : Steps Step s ls s') (hls : ∀ l ∈ ls, ¬l.Starts) (c : ℕ) :
    (s'.calls c).args = (s.calls c).args ∧ ((s'.calls c).pc ≠ .absent → (s.calls c).pc ≠ .absent) := by
  refine (h.restrict hls).keeps
    (I := fun t => (t.calls c).args = (s.calls c).args ∧ ((t.calls c).pc ≠ .absent → (s.calls c).pc ≠ .absent))
    (fun t l t' ⟨hstart,hstep⟩ ht => ?_) ⟨rfl,id⟩
  obtain hsame | hcancelled | ⟨a,rfl,hcall⟩ := hstep.call_cases c
  · rwa [hsame]
  · rwa [hcancelled]
  · generalize t'.shared = m', t'.calls c = x' at hcall ⊢
    cases hcall with
    | refuse _ _ _ => exact absurd trivial hstart
    | accept _ _ _ => exact absurd trivial hstart
    | refuseSubmission _ _ _ => exact absurd trivial hstart
    | acceptSubmission _ _ _ => exact absurd trivial hstart
    | handOut _ _ _ => exact ht
    | cancel _ => exact ht
    | _ => simp_all

/-- The calls that have been made can take so many steps at most, and when they have stopped there is nothing
left to do. -/
structure Completes (s : State) (bound : ℕ) : Prop where
  bounded : ∀ ls s', Steps Step s ls s' → (∀ l ∈ ls, ¬l.Starts) → ls.countP (fun l => l.party.isSome) ≤ bound
  quiet : ∀ ls s', Steps Step s ls s' → (∀ l ∈ ls, ¬l.Starts) →
    (∀ l s'', Step s' l s'' → l.party = none) → Quiet s'

theorem Bounded.completes {n : ℕ → ℕ} {s : State} (h : Bounded n s)
    (hbodies : ∀ c, (s.calls c).pc ≠ .absent → (s.calls c).args.body.GoesOn) : ∃ bound, Completes s bound := by
  obtain ⟨_,⟨hcalls,hdeinits⟩,_⟩ := known_of_reachable h.reachable
  have hothers : ∀ i ∉ hcalls.toFinset.disjSum hdeinits.toFinset, s.rest n i = 0 := by
    intro i hi
    cases i with
    | inl c =>
      have hpc : (s.calls c).pc = .absent := by simpa using hi
      simp [State.rest,Call.rest,hpc]
    | inr d =>
      have hd : s.deinits d = .absent := by simpa using hi
      simp [State.rest,hd,DeinitPc.rest]
  refine ⟨∑ i ∈ hcalls.toFinset.disjSum hdeinits.toFinset, s.rest n i,fun ls s' hrun hls => ?_,
    fun ls s' hrun hls hstuck => ?_⟩
  · exact ((hrun.restrict hls).parties_countP_le (I := Bounded n) _
      (fun t l t' ⟨hstart,hstep⟩ ht => ⟨ht.step hstep hstart,ht.rest hstep hstart⟩) h hothers).2
  · obtain ⟨s₀,before,h₀,hbefore⟩ := h.reachable
    have hreachable : Reachable Step Initial s' := ⟨s₀,before ++ ls,h₀,hbefore.append hrun⟩
    refine (quiet_or_goes hreachable fun c hpc => ?_).resolve_right fun ⟨l,s'',hparty,hstep⟩ => ?_
    · obtain ⟨hargs,hmade⟩ := made_of_steps hrun hls c
      rw [hargs]
      exact hbodies c (hmade hpc)
    · simp [hstuck l s'' hstep] at hparty

/-- When no new calls are made, the calls in progress and `deinit` come to an end under every schedule. -/
theorem calls_end {s : State} (h : Reachable Step Initial s)
    (hbodies : ∀ c, (s.calls c).pc ≠ .absent → (s.calls c).args.body.GoesOn)
    (hends : ∀ c, (s.calls c).pc.mayRun = true → ∃ n, (s.calls c).EndsBy s.shared.config n) :
    ∃ bound, Completes s bound := by
  have hbounds : ∀ c, ∃ n, (s.calls c).pc.mayRun = true → (s.calls c).EndsBy s.shared.config n := by
    intro c
    by_cases hruns : (s.calls c).pc.mayRun = true
    · obtain ⟨n,hn⟩ := hends c hruns
      exact ⟨n,fun _ => hn⟩
    · exact ⟨0,fun hc => absurd hc hruns⟩
  choose n hn using hbounds
  exact Bounded.completes ⟨h,hn⟩ hbodies

/-- Whatever the configuration, the heap and the flag, the decompression of an empty container makes its calls. -/
theorem emptyJob_goesOn (async : Bool) : (emptyJob async).body.GoesOn := by
  intro config trace flag htrace
  have hpre : trace <+: emptyJobTrace := by
    obtain rfl | ⟨fuel,cancelRequested,heap,hpre⟩ := htrace
    · exact List.nil_prefix
    · exact hpre
  obtain ⟨after,hafter⟩ := hpre
  cases after with
  | nil =>
    rw [List.append_nil] at hafter
    subst hafter
    exact .inr ⟨_,emptyJob_returns async⟩
  | cons e after =>
    refine .inl ⟨e,emptyJob_performs async ⟨after,by simp [← hafter]⟩,?_⟩
    rintro answer rfl
    have hmem : IoEvent.cancelLoad answer ∈ emptyJobTrace := by simp [← hafter]
    simp [emptyJobTrace] at hmem

/-- A `deinit` that has seen a running job. -/
theorem calls_end_deinit : ∃ s bound, Completes s bound ∧ (s.calls 0).pc = .running ∧ s.deinits 0 = .cancelling 0 := by
  have hrun : ∃ s, Steps Step .new [.init {} .ok, .call 0 (.enter (emptyJob true)), .call 0 .create,
      .call 0 .readConfig, .deinit 0 .begin] s ∧ (s.calls 0).args = emptyJob true ∧ (s.calls 0).pc = .running ∧
      (∀ c, c ≠ 0 → (s.calls c).pc = .absent) ∧ s.deinits 0 = .cancelling 0 :=
    ⟨_,.cons (.init defaultConfig_valid rfl) <| .cons (.call (.acceptSubmission rfl rfl rfl)) <|
      .cons (.call (.create rfl)) <| .cons (.call (.readConfig rfl)) <| .one (.begin rfl),rfl,rfl,
      fun c hc => by simp [State.setDeinit,State.setShared,hc,State.new],rfl⟩
  obtain ⟨s,hsteps,hargs,hpc,hothers,hdeinit⟩ := hrun
  have hmade : ∀ c, (s.calls c).pc ≠ .absent → c = 0 := fun c hc => by
    by_contra hne
    exact hc (hothers c hne)
  obtain ⟨bound,hbound⟩ := calls_end ⟨_,_,State.new_initial,hsteps⟩
    (fun c hc => by
      rw [hmade c hc,hargs]
      exact emptyJob_goesOn true)
    fun c hc => by
      obtain rfl := hmade c fun habsent => by simp [habsent,Pc.mayRun] at hc
      refine ⟨6,fun es hes _ => ?_⟩
      rw [hargs] at hes
      obtain ⟨fuel,cancelRequested,heap,hpre⟩ := hes
      have hlength : (_ ++ es).length ≤ emptyJobTrace.length := hpre.length_le
      exact hlength
  exact ⟨s,bound,hbound,hpc,hdeinit⟩

end JobControl
end EspCompressor
