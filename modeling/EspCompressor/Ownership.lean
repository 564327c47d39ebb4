import EspCompressor.LifeCycle
import EspCompressor.Turns

/-! The slot of the compressor: the accepted calls hold it in turn, and their writes to `_lastResult` are
their reports. -/
namespace EspCompressor
namespace JobControl

open Transitions

/-- What a step of the system does to the slot. -/
def Label.move (s : State) : Label → Option (Turns.Move ℕ)
  | .call c (.enter args) =>
    if (if args.async then submitRefusal s.shared args else refusal s.shared) = none then some (.enter c) else none
  | .call c .publish => some (.report c)
  | .call c .release => some (.leave c)
  | .call c .storeLast => some (.reportLate c)
  | _ => none

/-- The call keeps its place: it holds the slot or not, is late or not, and its written result stays. -/
structure Call.SamePlace (x x' : Call) : Prop where
  accepted : x'.accepted = x.accepted
  owns : x'.pc.owns = x.pc.owns
  late : ∀ r, x'.pc = .storingLast r ↔ x.pc = .storingLast r
  async : x.pc.owns = true → x'.args.async = x.args.async
  result : x.accepted = true → x.pc.owns = false → x'.result = x.result

/-- The members keep what they say of the slot. -/
structure Shared.SameSlot (m m' : Shared) : Prop where
  busy : m'.busy = m.busy
  active : ∀ c, m'.activeJob = some c → m.activeJob = some c
  accepted : m'.accepted = m.accepted
  writes : m'.writes = m.writes

theorem Call.SamePlace.refl (x : Call) : x.SamePlace x := ⟨rfl,rfl,fun _ => .rfl,fun _ => rfl,fun _ _ => rfl⟩

theorem Shared.SameSlot.refl (m : Shared) : m.SameSlot m := ⟨rfl,fun _ h => h,rfl,rfl⟩

/-- What a step of a call does to the slot. -/
inductive SlotStep (c : ℕ) (m : Shared) (x : Call) : Shared → Call → Option (Turns.Move ℕ) → Prop
  | quiet {m' : Shared} {x' : Call} : m.SameSlot m' → x.SamePlace x' → SlotStep c m x m' x' none
  | enter {m' : Shared} {x' : Call} : x.pc = .absent → m.initialized = true → m.busy = false →
      x'.pc.owns = true → x'.accepted = true → m'.busy = true → m'.accepted = m.accepted ++ [c] →
      m'.writes = m.writes → m'.activeJob = m.activeJob ∨ m'.activeJob = some c ∧ x'.args.async = true →
      SlotStep c m x m' x' (some (.enter c))
  | report {r : CompressionResult} : x.pc = .publishing r →
      SlotStep c m x
        { m with
          lastResult := r
          activeJob := if m.activeJob = some c then none else m.activeJob
          busy := false
          writes := m.writes ++ [(c,r)] }
        { x with pc := .notifying r } (some (.report c))
  | leave {r : CompressionResult} : x.pc = .releasing r →
      SlotStep c m x { m with busy := false } { x with pc := .storingLast r } (some (.leave c))
  | reportLate {r : CompressionResult} : x.pc = .storingLast r →
      SlotStep c m x { m with lastResult := r, writes := m.writes ++ [(c,r)] }
        { x with result := r, pc := .ended } (some (.reportLate c))

theorem refusal_eq_none {m : Shared} (h : refusal m = none) : m.initialized = true ∧ m.busy = false := by
  unfold refusal at h
  split_ifs at h with hinit hbusy
  simp_all

theorem submitRefusal_eq_none {m : Shared} {args : CallArgs} (h : submitRefusal m args = none) :
    m.initialized = true ∧ m.busy = false := by
  unfold submitRefusal at h
  split_ifs at h with hinit hnull hbusy
  simp_all

theorem CallStep.slot {s : State} {c : ℕ} {m' : Shared} {x' : Call} {a : Action}
    (h : CallStep c s.shared (s.calls c) a m' x') (hx : (s.calls c).Coherent) :
    SlotStep c s.shared (s.calls c) m' x' ((Label.call c a).move s) := by
  cases h with
  | @refuse args e hpc hasync hrefused =>
    have hmove : (Label.call c (.enter args)).move s = none := by simp [Label.move,hasync,hrefused]
    rw [hmove]
    exact .quiet (.refl _) ⟨by simp_all [Call.Coherent],by simp_all [Pc.owns],by simp_all,by simp_all [Pc.owns],
      by simp_all [Call.Coherent]⟩
  | @accept args hpc hasync hfree =>
    have hmove : (Label.call c (.enter args)).move s = some (.enter c) := by simp [Label.move,hasync,hfree]
    rw [hmove]
    obtain ⟨hinit,hbusy⟩ := refusal_eq_none hfree
    exact .enter hpc hinit hbusy rfl rfl rfl rfl rfl (.inl rfl)
  | @refuseSubmission args e hpc hasync hrefused =>
    have hmove : (Label.call c (.enter args)).move s = none := by simp [Label.move,hasync,hrefused]
    rw [hmove]
    exact .quiet ⟨rfl,fun _ h => h,rfl,rfl⟩ ⟨by simp_all [Call.Coherent],by simp_all [Pc.owns],by simp_all,
      by simp_all [Pc.owns],by simp_all [Call.Coherent]⟩
  | @acceptSubmission args hpc hasync hfree =>
    have hmove : (Label.call c (.enter args)).move s = some (.enter c) := by simp [Label.move,hasync,hfree]
    rw [hmove]
    obtain ⟨hinit,hbusy⟩ := submitRefusal_eq_none hfree
    exact .enter hpc hinit hbusy rfl rfl rfl rfl rfl (.inr ⟨rfl,hasync⟩)
  | publish hpc => exact .report hpc
  | release hpc => exact .leave hpc
  | storeLast hpc => exact .reportLate hpc
  | leave hpc _ =>
    refine .quiet (.refl _) ?_
    cases hasync : (s.calls c).args.async <;> constructor <;> simp [hpc,hasync,Pc.owns]
  | handOut hasync hhanded hready => exact .quiet (.refl _) ⟨rfl,rfl,fun _ => .rfl,fun _ => rfl,fun _ _ => rfl⟩
  | cancel hhanded => exact .quiet (.refl _) ⟨rfl,rfl,fun _ => .rfl,fun _ => rfl,fun _ _ => rfl⟩
  | _ => exact .quiet (.refl _) (by constructor <;> simp_all [Pc.owns])

/-- The book that the compressor keeps: who holds the slot, who has held it, and who has written its result. -/
structure Tracks (s : State) (b : Turns.Book ℕ) : Prop where
  coherent : ∀ c, (s.calls c).Coherent
  kept : b.Kept
  owner : ∀ c, (s.calls c).pc.owns = true ↔ b.holder = some c
  busy : s.shared.busy = b.holder.isSome
  active : ∀ c, s.shared.activeJob = some c → b.holder = some c ∧ (s.calls c).args.async = true
  admitted : b.admitted = s.shared.accepted
  reported : b.reported = s.shared.writes.map Prod.fst
  accepted : ∀ c, (s.calls c).accepted = true ↔ c ∈ s.shared.accepted
  late : ∀ c, b.Late c ↔ ∃ r, (s.calls c).pc = .storingLast r
  results : ∀ c r, (c,r) ∈ s.shared.writes → (s.calls c).result = r

theorem Initial.tracks {s : State} (h : Initial s) : Tracks s {} := by
  obtain ⟨hshared,hcalls,_⟩ := h
  have hcall : ∀ c, (s.calls c).pc = .absent ∧ (s.calls c).accepted = false ∧ (s.calls c).Coherent := by
    intro c
    obtain ⟨args,hargs⟩ := hcalls c
    simp [hargs,Call.Coherent]
  exact {
    coherent := fun c => (hcall c).2.2
    kept := Turns.Book.kept_empty
    owner := fun c => by simp [(hcall c).1,Pc.owns]
    busy := by simp [hshared]
    active := by simp [hshared]
    admitted := by simp [hshared]
    reported := by simp [hshared]
    accepted := fun c => by simp [hshared,(hcall c).2.1]
    late := fun c => by simp [Turns.Book.Late,(hcall c).1]
    results := by simp [hshared] }

/-- A call that has written its result keeps it: it neither holds the slot nor is late. -/
theorem Tracks.written {s : State} {b : Turns.Book ℕ} (h : Tracks s b) {c : ℕ} {r : CompressionResult}
    (hc : (c,r) ∈ s.shared.writes) :
    (s.calls c).accepted = true ∧ (s.calls c).pc.owns = false ∧ (s.calls c).result = r := by
  have hreported : c ∈ b.reported := by
    rw [h.reported]
    exact List.mem_map_of_mem hc
  refine ⟨(h.accepted c).mpr (h.admitted ▸ h.kept.reported_admitted c hreported),?_,h.results c r hc⟩
  by_contra howns
  exact (h.kept.holder_last c ((h.owner c).mp (by simpa using howns))).2 hreported

/-- The slot does not notice a step in which the members and every call keep their place. -/
theorem Tracks.quiet {s s' : State} {b : Turns.Book ℕ} (h : Tracks s b) (hshared : s.shared.SameSlot s'.shared)
    (hcalls : ∀ c, (s.calls c).SamePlace (s'.calls c)) (hcoherent : ∀ c, (s'.calls c).Coherent) : Tracks s' b where
  coherent := hcoherent
  kept := h.kept
  owner c := by rw [(hcalls c).owns,h.owner c]
  busy := by rw [hshared.busy,h.busy]
  active c hc := by
    obtain ⟨hholder,hasync⟩ := h.active c (hshared.active c hc)
    exact ⟨hholder,by rw [(hcalls c).async ((h.owner c).mpr hholder),hasync]⟩
  admitted := by rw [hshared.accepted,h.admitted]
  reported := by rw [hshared.writes,h.reported]
  accepted c := by rw [(hcalls c).accepted,hshared.accepted,h.accepted c]
  late c := by rw [h.late c]; exact exists_congr fun r => ((hcalls c).late r).symm
  results c r hc := by
    rw [hshared.writes] at hc
    obtain ⟨haccepted,howns,hresult⟩ := h.written hc
    rw [(hcalls c).result haccepted howns,hresult]

section Moves

variable {s : State} {b b' : Turns.Book ℕ} {c : ℕ} {m : Shared} {x : Call}

/-- The book after a move, from what it says of the call that moves. -/
theorem Tracks.move (h : Tracks s b) {move : Turns.Move ℕ} (hstep : Turns.Step b move b') (hparty : move.party = c)
    (hx : x.Coherent) (howner : x.pc.owns = true ↔ b'.holder = some c) (hbusy : m.busy = b'.holder.isSome)
    (hactive : ∀ c', m.activeJob = some c' → b'.holder = some c' ∧
      (((s.setShared m).setCall c x).calls c').args.async = true)
    (hadmitted : b'.admitted = m.accepted) (hreported : b'.reported = m.writes.map Prod.fst)
    (haccepted : x.accepted = true ↔ c ∈ m.accepted) (hlate : b'.Late c ↔ ∃ r, x.pc = .storingLast r)
    (hresult : ∀ r, (c,r) ∈ m.writes → x.result = r)
    (hwrites : ∀ c' r, c' ≠ c → (c',r) ∈ m.writes → (c',r) ∈ s.shared.writes) :
    Tracks ((s.setShared m).setCall c x) b' where
  coherent c' := by
    by_cases hc : c' = c
    · subst hc
      simpa using hx
    · simpa [hc] using h.coherent c'
  kept := hstep.kept h.kept
  owner c' := by
    by_cases hc : c' = c
    · subst hc
      simpa using howner
    · simp [hc,h.owner c',(hstep.other (hparty ▸ hc)).1]
  busy := hbusy
  active := hactive
  admitted := hadmitted
  reported := hreported
  accepted c' := by
    by_cases hc : c' = c
    · subst hc
      simpa using haccepted
    · have hother := (hstep.other (hparty ▸ hc)).2.1
      rw [hadmitted,h.admitted] at hother
      simp [hc,h.accepted c',hother]
  late c' := by
    by_cases hc : c' = c
    · subst hc
      simpa using hlate
    · simp [hc,← h.late c',(hstep.other (hparty ▸ hc)).2.2]
  results c' r hc' := by
    by_cases hc : c' = c
    · subst hc
      simpa using hresult r hc'
    · simpa [hc] using h.results c' r (hwrites c' r hc hc')

theorem Tracks.enter (h : Tracks s b) (hx : x.Coherent) (hpc : (s.calls c).pc = .absent)
    (hfree : s.shared.busy = false) (howns : x.pc.owns = true) (haccepted : x.accepted = true)
    (hbusy : m.busy = true) (hadmitted : m.accepted = s.shared.accepted ++ [c]) (hwrites : m.writes = s.shared.writes)
    (hactive : m.activeJob = s.shared.activeJob ∨ m.activeJob = some c ∧ x.args.async = true) :
    ∃ b', Turns.Step b (.enter c) b' ∧ Tracks ((s.setShared m).setCall c x) b' := by
  have hholder : b.holder = none := by
    have hsome := h.busy
    rw [hfree] at hsome
    simpa using hsome.symm
  have hunaccepted := (h.coherent c).accepted_of_absent hpc
  have hnew : c ∉ s.shared.accepted := by simp [← h.accepted c,hunaccepted]
  have hstep := Turns.Step.enter hholder (h.admitted ▸ hnew)
  refine ⟨_,hstep,h.move hstep rfl hx (by simp [howns]) (by simp [hbusy]) (fun c' hc' => ?_)
    (by simp [hadmitted,h.admitted]) (by simp [hwrites,h.reported]) (by simp [haccepted,hadmitted]) ?_
    (fun r hr => ?_) (fun c' r _ hr => hwrites ▸ hr)⟩
  · obtain hsame | ⟨hself,hasync⟩ := hactive
    · have hold := (h.active c' (hsame ▸ hc')).1
      rw [hholder] at hold
      cases hold
    · obtain rfl : c = c' := by simpa [hself] using hc'
      simp [hasync]
  · cases hpc' : x.pc <;> simp_all [Turns.Book.Late,Pc.owns]
  · rw [hwrites] at hr
    rw [(h.written hr).1] at hunaccepted
    cases hunaccepted

theorem Tracks.report (h : Tracks s b) {r : CompressionResult} (hpc : (s.calls c).pc = .publishing r)
    (hx : { s.calls c with pc := .notifying r }.Coherent) :
    ∃ b', Turns.Step b (.report c) b' ∧ Tracks ((s.setShared { s.shared with
      lastResult := r
      activeJob := if s.shared.activeJob = some c then none else s.shared.activeJob
      busy := false
      writes := s.shared.writes ++ [(c,r)] }).setCall c { s.calls c with pc := .notifying r }) b' := by
  have hholder : b.holder = some c := (h.owner c).mp (by rw [hpc]; rfl)
  have hresult : (s.calls c).result = r := (hx.notifying rfl).2
  have haccepted := h.accepted c
  have hstep := Turns.Step.report hholder
  refine ⟨_,hstep,h.move hstep rfl hx (by simp [Pc.owns]) rfl (fun c' hc' => ?_) h.admitted (by simp [h.reported])
    haccepted (by simp [Turns.Book.Late]) (fun r' hr' => ?_) (fun c' r' hc hr' => by simpa [hc] using hr')⟩
  · simp only at hc'
    split_ifs at hc' with hself
    obtain rfl : c = c' := by simpa [hholder] using (h.active c' hc').1
    exact absurd hc' hself
  · simp only [List.mem_append,List.mem_singleton,Prod.mk.injEq] at hr'
    obtain hold | ⟨_,rfl⟩ := hr'
    · exact h.results c r' hold
    · exact hresult

theorem Tracks.leave (h : Tracks s b) {r : CompressionResult} (hpc : (s.calls c).pc = .releasing r)
    (hx : { s.calls c with pc := .storingLast r }.Coherent) :
    ∃ b', Turns.Step b (.leave c) b' ∧
      Tracks ((s.setShared { s.shared with busy := false }).setCall c { s.calls c with pc := .storingLast r }) b' := by
  have hholder : b.holder = some c := (h.owner c).mp (by rw [hpc]; rfl)
  obtain ⟨⟨l,hl⟩,hunreported⟩ := h.kept.holder_last c hholder
  have hsync := (h.coherent c).releasing hpc
  have hstep := Turns.Step.leave hholder
  refine ⟨_,hstep,h.move hstep rfl hx (by simp [Pc.owns]) rfl (fun c' hc' => ?_) h.admitted h.reported (h.accepted c)
    (by simp [Turns.Book.Late,hl,hunreported]) (h.results c) (fun _ _ _ hr' => hr')⟩
  obtain ⟨hold,hasync⟩ := h.active c' hc'
  obtain rfl : c = c' := by simpa [hholder] using hold
  rw [hsync] at hasync
  cases hasync

theorem Tracks.reportLate (h : Tracks s b) {r : CompressionResult} (hpc : (s.calls c).pc = .storingLast r)
    (hx : { s.calls c with result := r, pc := .ended }.Coherent) :
    ∃ b', Turns.Step b (.reportLate c) b' ∧
      Tracks ((s.setShared { s.shared with lastResult := r, writes := s.shared.writes ++ [(c,r)] }).setCall c
        { s.calls c with result := r, pc := .ended }) b' := by
  have hlate : b.Late c := (h.late c).mpr ⟨r,hpc⟩
  have hstep := Turns.Step.reportLate hlate
  refine ⟨_,hstep,h.move hstep rfl hx (by simp [Pc.owns,hlate.2.1]) h.busy (fun c' hc' => ?_) h.admitted
    (by simp [h.reported]) (h.accepted c) (by simp [Turns.Book.Late]) (fun r' hr' => ?_)
    (fun c' r' hc hr' => by simpa [hc] using hr')⟩
  · obtain ⟨hold,hasync⟩ := h.active c' hc'
    have hne : c' ≠ c := fun hc => hlate.2.1 (hc ▸ hold)
    exact ⟨hold,by simpa [hne] using hasync⟩
  · simp only [List.mem_append,List.mem_singleton,Prod.mk.injEq] at hr'
    obtain hold | ⟨_,rfl⟩ := hr'
    · exact absurd (h.reported ▸ List.mem_map_of_mem hold) hlate.2.2
    · rfl

end Moves

/-- The compressor keeps its book: the steps of the system are moves of it, or do not touch it. -/
theorem tracks_simulates : Simulates Step Turns.Step Label.move Tracks := by
  intro s l s' b hstep h
  have hcoherent := hstep.coherent h.coherent
  have hplaces : (∀ c a, l ≠ .call c a) → ∀ c, (s.calls c).SamePlace (s'.calls c) := by
    intro hl c
    obtain hsame | hcancelled | ⟨a,ha,_⟩ := hstep.call_cases c
    · rw [hsame]
      exact .refl _
    · rw [hcancelled]
      exact ⟨rfl,rfl,fun _ => .rfl,fun _ => rfl,fun _ _ => rfl⟩
    · exact absurd ha (hl c a)
  cases hstep with
  | init _ _ => exact h.quiet ⟨rfl,fun _ hc => hc,rfl,rfl⟩ (hplaces (by simp)) hcoherent
  | refuseInit _ => exact h
  | begin _ => exact h.quiet ⟨rfl,fun _ hc => hc,rfl,rfl⟩ (hplaces (by simp)) hcoherent
  | cancel _ => exact h.quiet ⟨rfl,fun _ hc => hc,rfl,rfl⟩ (hplaces (by simp)) hcoherent
  | seeDone _ _ => exact h.quiet ⟨rfl,fun _ hc => hc,rfl,rfl⟩ (hplaces (by simp)) hcoherent
  | «return» _ _ => exact h.quiet ⟨rfl,fun _ hc => by simp at hc,rfl,rfl⟩ (hplaces (by simp)) hcoherent
  | @call c a m x hcall =>
    have hslot := hcall.slot (h.coherent c)
    have hx : x.Coherent := by simpa using hcoherent c
    generalize (Label.call c a).move s = move at hslot ⊢
    cases hslot with
    | quiet hshared hplace =>
      refine h.quiet hshared (fun c' => ?_) hcoherent
      by_cases hc : c' = c
      · subst hc
        simpa using hplace
      · simpa [hc] using Call.SamePlace.refl (s.calls c')
    | enter hpc _ hfree howns haccepted hbusy hadmitted hwrites hactive =>
      exact h.enter hx hpc hfree howns haccepted hbusy hadmitted hwrites hactive
    | report hpc => exact h.report hpc hx
    | leave hpc => exact h.leave hpc hx
    | reportLate hpc => exact h.reportLate hpc hx

theorem tracks_of_reachable {s : State} (h : Reachable Step Initial s) : ∃ b, Tracks s b := by
  obtain ⟨s₀,ls,hs₀,hrun⟩ := h
  obtain ⟨_,b,_,hb⟩ := tracks_simulates.steps hrun hs₀.tracks
  exact ⟨b,hb⟩

/-! ### One owner -/

theorem CallStep.config {c : ℕ} {m m' : Shared} {x x' : Call} {a : Action} (h : CallStep c m x a m' x') :
    m'.config = m.config := by
  cases h <;> rfl

theorem Step.config {s s' : State} {l : Label} (h : Step s l s') (hbusy : s.shared.busy = true) :
    s'.shared.config = s.shared.config := by
  cases h with
  | init _ hfree =>
    rw [hbusy] at hfree
    cases hfree
  | call hcall => exact hcall.config
  | _ => rfl

theorem CallStep.closed {c : ℕ} {m m' : Shared} {x x' : Call} {a : Action} (h : CallStep c m x a m' x')
    (hclosed : m.initialized = false) : m'.initialized = false ∧ m'.accepted = m.accepted := by
  cases h with
  | accept _ _ hfree =>
    rw [(refusal_eq_none hfree).1] at hclosed
    cases hclosed
  | acceptSubmission _ _ hfree =>
    rw [(submitRefusal_eq_none hfree).1] at hclosed
    cases hclosed
  | _ => exact ⟨hclosed,rfl⟩

/-- Until the next `init` a compressor that is not initialized accepts no call. -/
theorem Step.closed {s s' : State} {l : Label} (h : Step s l s') (hl : ∀ config, l ≠ .init config .ok)
    (hclosed : s.shared.initialized = false) :
    s'.shared.initialized = false ∧ s'.shared.accepted = s.shared.accepted := by
  cases h with
  | @init config _ _ => exact absurd rfl (hl config)
  | begin _ => exact ⟨rfl,rfl⟩
  | call hcall => exact hcall.closed hclosed
  | _ => exact ⟨hclosed,rfl⟩

theorem accepted_of_closed {s s' : State} {ls : List Label} (h : Steps Step s ls s')
    (hls : ∀ config, .init config .ok ∉ ls) (hclosed : s.shared.initialized = false) :
    s'.shared.accepted = s.shared.accepted := by
  have hrun := h.restrict (P := fun l => ∀ config, l ≠ .init config .ok) fun l hl config heq => hls config (heq ▸ hl)
  have hkeeps := hrun.keeps (I := fun t => t.shared.initialized = false ∧ t.shared.accepted = s.shared.accepted)
    (fun t l t' ⟨hl,hstep⟩ ⟨hopen,hsame⟩ => by
      obtain ⟨hopen',hsame'⟩ := hstep.closed hl hopen
      exact ⟨hopen',hsame'.trans hsame⟩)
    ⟨hclosed,rfl⟩
  exact hkeeps.2

/-- The slot has at most one owner, and the members say who it is; only the owner touches its source and
sink. While there is one the configuration stays, and between `deinit` and `init` there will be no new one. -/
structure OneOwner (s : State) : Prop where
  unique : ∀ c c', (s.calls c).pc.owns = true → (s.calls c').pc.owns = true → c = c'
  busy : s.shared.busy = true ↔ ∃ c, (s.calls c).pc.owns = true
  active : ∀ c, s.shared.activeJob = some c → s.shared.busy = true ∧ (s.calls c).pc.owns = true
  config : ∀ c l s', (s.calls c).pc.owns = true → Step s l s' → s'.shared.config = s.shared.config
  performs : ∀ c e s', Step s (.call c (.perform e)) s' → (s.calls c).pc.owns = true
  refused : ∀ c, (s.calls c).accepted = false → (s.calls c).trace = []
  closed : ∀ d s₁ ls s₂, Step s (.deinit d .begin) s₁ → Steps Step s₁ ls s₂ → (∀ config, .init config .ok ∉ ls) →
    s₂.shared.accepted = s.shared.accepted

theorem Tracks.busy_iff {s : State} {b : Turns.Book ℕ} (h : Tracks s b) :
    s.shared.busy = true ↔ ∃ c, (s.calls c).pc.owns = true := by
  simp [h.busy,h.owner,Option.isSome_iff_exists]

/-- Whatever the threads do, the compressor has one owner at most. -/
theorem one_owner {s : State} (h : Reachable Step Initial s) : OneOwner s := by
  obtain ⟨b,hb⟩ := tracks_of_reachable h
  exact {
    unique := fun c c' hc hc' => by
      have hholder := (hb.owner c).mp hc
      rw [(hb.owner c').mp hc',Option.some.injEq] at hholder
      exact hholder.symm
    busy := hb.busy_iff
    active := fun c hc => by
      have howns := (hb.owner c).mpr (hb.active c hc).1
      exact ⟨hb.busy_iff.mpr ⟨c,howns⟩,howns⟩
    config := fun c l s' hc hstep => hstep.config (hb.busy_iff.mpr ⟨c,hc⟩)
    performs := fun c e s' hstep => by
      cases hstep with
      | call hcall =>
        cases hcall with
        | perform _ hpc _ _ => simp [hpc,Pc.owns]
    refused := fun c hc => (hb.coherent c).1 ((hb.coherent c).2.1 hc)
    closed := fun d s₁ ls s₂ hstep hrun hls => by
      have hsame := accepted_of_closed hrun hls (by cases hstep; rfl)
      cases hstep with
      | begin _ => exact hsame }

/-- A synchronous call holds the slot while a submission is refused. -/
theorem one_owner_busy : ∃ s, OneOwner s ∧ (s.calls 0).pc.owns = true ∧ s.shared.busy = true ∧
    (s.calls 1).result.error = .busy := by
  have hrun : ∃ s, Steps Step .new [.init {} .ok, .call 0 (.enter (printJob false .compress false)),
      .call 1 (.enter (printJob true .compress true))] s ∧
      (s.calls 0).pc.owns = true ∧ s.shared.busy = true ∧ (s.calls 1).result.error = .busy :=
    ⟨_,.cons (.init defaultConfig_valid rfl) <| .cons (.call (.accept rfl rfl rfl)) <|
      .one (.call (.refuseSubmission rfl rfl rfl)),rfl,rfl,rfl⟩
  obtain ⟨s,hsteps,hshown⟩ := hrun
  exact ⟨s,one_owner ⟨_,_,State.new_initial,hsteps⟩,hshown⟩

end JobControl
end EspCompressor
