import EspCompressor.Ownership

/-! The writes to `_lastResult` against the order of acceptance. A synchronous call releases the slot in one
section and writes its result in the next, so that another job can run and write in between. -/
namespace EspCompressor
namespace JobControl

open Transitions
open scoped List

/-- A job writes its result in turn: no job accepted earlier has released the slot and is still to write. -/
def WritesInTurn (s : State) : Label → Prop
  | .call c .publish => ∀ c' r, (s.calls c').pc = .storingLast r → ¬[c',c] <+ s.shared.accepted
  | .call c .storeLast => ∀ c' r, (s.calls c').pc = .storingLast r → ¬[c',c] <+ s.shared.accepted
  | _ => True

/-- The accepted jobs write in the order in which they held the slot. Unless a submission was refused, which
is written too, `_lastResult` is the result of the last accepted job once that job has run to its end. -/
structure ResultsInOrder (s : State) : Prop where
  ordered : s.shared.writes.map Prod.fst <+ s.shared.accepted
  newest : ∀ c, s.shared.refusals = 0 → s.shared.accepted.getLast? = some c → (s.calls c).pc = .ended →
    s.shared.lastResult = (s.calls c).result

theorem Tracks.inTurn_iff {s : State} {b : Turns.Book ℕ} (h : Tracks s b) {l : Label} {move : Turns.Move ℕ}
    (hmove : l.move s = some move) : b.InTurn move ↔ WritesInTurn s l := by
  have hlate : ∀ c, (∀ j, b.Late j → ¬[j,c] <+ b.admitted) ↔
      ∀ c' r, (s.calls c').pc = .storingLast r → ¬[c',c] <+ s.shared.accepted := by
    intro c
    simp only [h.late,h.admitted,forall_exists_index]
  unfold Label.move at hmove
  split at hmove
  · split_ifs at hmove
    · cases hmove
      exact .rfl
    · cases hmove
      exact .rfl
  · cases hmove
    exact hlate _
  · cases hmove
    exact .rfl
  · cases hmove
    exact hlate _
  · cases hmove

theorem writesInTurn_of_move_eq_none {s : State} {l : Label} (hmove : l.move s = none) : WritesInTurn s l := by
  unfold WritesInTurn
  split
  · cases hmove
  · cases hmove
  · trivial

/-- As long as no submission was refused, `_lastResult` is what was written last. -/
def LastWritten (s : State) : Prop :=
  s.shared.refusals = 0 → ∀ c r, s.shared.writes.getLast? = some (c,r) → s.shared.lastResult = r

theorem Step.lastWritten {s s' : State} {l : Label} (h : Step s l s') (hs : LastWritten s) : LastWritten s' := by
  cases h with
  | call hcall =>
    cases hcall with
    | refuseSubmission _ _ _ => simp [LastWritten]
    | publish _ => simp [LastWritten]
    | storeLast _ => simp [LastWritten]
    | _ => exact hs
  | _ => exact hs

theorem lastWritten_of_steps {s₀ s : State} {ls : List Label} (h₀ : Initial s₀) (h : Steps Step s₀ ls s) :
    LastWritten s :=
  h.keeps (fun _ _ _ hstep hs => hstep.lastWritten hs) (by simp [LastWritten,h₀.1])

/-- A job that has run to its end has written its result. -/
theorem Tracks.written_of_ended {s : State} {b : Turns.Book ℕ} (h : Tracks s b) {c : ℕ}
    (haccepted : (s.calls c).accepted = true) (howns : (s.calls c).pc.owns = false)
    (hlate : ∀ r, (s.calls c).pc ≠ .storingLast r) : (c,(s.calls c).result) ∈ s.shared.writes := by
  have hadmitted : c ∈ b.admitted := h.admitted ▸ (h.accepted c).mp haccepted
  have hholder : b.holder ≠ some c := fun hholder => by
    rw [(h.owner c).mpr hholder] at howns
    cases howns
  have hreported : c ∈ b.reported := by
    by_contra hunreported
    obtain ⟨r,hr⟩ := (h.late c).mp ⟨hadmitted,hholder,hunreported⟩
    exact hlate r hr
  rw [h.reported,List.mem_map] at hreported
  obtain ⟨⟨c',r⟩,hwrite,rfl⟩ := hreported
  rw [h.results c' r hwrite]
  exact hwrite

theorem Tracks.resultsInOrder {s : State} {b : Turns.Book ℕ} (h : Tracks s b) (hin : b.InOrder)
    (hlast : LastWritten s) : ResultsInOrder s where
  ordered := by
    rw [← h.reported,← h.admitted]
    exact hin.sublist
  newest c hrefusals hc hpc := by
    have haccepted : (s.calls c).accepted = true := (h.accepted c).mpr (List.mem_of_getLast? hc)
    have hwritten := h.written_of_ended haccepted (by simp [hpc,Pc.owns]) (by simp [hpc])
    have hsame : b.reported = b.admitted :=
      hin.last h.kept (by rw [h.admitted,hc]) (h.reported ▸ List.mem_map_of_mem hwritten)
    rw [h.reported,h.admitted] at hsame
    rw [← hsame,List.getLast?_map,Option.map_eq_some_iff] at hc
    obtain ⟨⟨c',r⟩,hwrite,rfl⟩ := hc
    rw [hlast hrefusals c' r hwrite,h.results c' r (List.mem_of_getLast? hwrite)]

/-- Once no job is still to write, writes in the order of acceptance have all been in turn. -/
theorem inTurn_of_ordered {s s' : State} {ls : List Label} {b : Turns.Book ℕ} (h : Steps Step s ls s')
    (hb : Tracks s b) (hdone : ∀ c r, (s'.calls c).pc ≠ .storingLast r)
    (hordered : s'.shared.writes.map Prod.fst <+ s'.shared.accepted) :
    Steps (Restricted Step WritesInTurn) s ls s' := by
  induction h generalizing b with
  | nil s => exact .nil s
  | @cons s s₁ s' l ls hl hrest ih =>
    have hnext := tracks_simulates s l s₁ b hl hb
    cases hmove : l.move s with
    | none =>
      rw [hmove] at hnext
      exact .cons ⟨writesInTurn_of_move_eq_none hmove,hl⟩ (ih hnext hdone hordered)
    | some move =>
      rw [hmove] at hnext
      obtain ⟨b₁,hstep,hb₁⟩ := hnext
      by_cases hturn : WritesInTurn s l
      · exact .cons ⟨hturn,hl⟩ (ih hb₁ hdone hordered)
      · obtain ⟨ms,b',hms,hb'⟩ := tracks_simulates.steps hrest hb₁
        have hlate : ∀ c, ¬b'.Late c := fun c hc => by
          obtain ⟨r,hr⟩ := (hb'.late c).mp hc
          exact hdone c r hr
        have hdisorder := hstep.disorder hb.kept (mt (hb.inTurn_iff hmove).mp hturn) hms hlate
        rw [hb'.reported,hb'.admitted] at hdisorder
        exact absurd hordered hdisorder

/-- In a run in which every job writes in turn the results are in order; and a run at the end of which no
job is still to write and the results are in order is such a run. -/
theorem results_in_order {s₀ s : State} {ls : List Label} (h₀ : Initial s₀) (h : Steps Step s₀ ls s) :
    (Steps (Restricted Step WritesInTurn) s₀ ls s → ResultsInOrder s) ∧
      ((∀ c r, (s.calls c).pc ≠ .storingLast r) → ResultsInOrder s →
        Steps (Restricted Step WritesInTurn) s₀ ls s) := by
  constructor
  · intro hturns
    have hsim := tracks_simulates.restricted WritesInTurn Turns.Book.InTurn
      fun s l s' b move _ hb hturn hmove => (hb.inTurn_iff hmove).mpr hturn
    obtain ⟨ms,b,hms,hb⟩ := hsim.steps hturns h₀.tracks
    have hin := (Turns.inOrder_of_inTurn hms Turns.Book.kept_empty List.prefix_rfl).2
    exact hb.resultsInOrder hin (lastWritten_of_steps h₀ h)
  · intro hdone hin
    exact inTurn_of_ordered h h₀.tracks hdone hin.ordered

/-- A compression and a decompression, one after the other. -/
theorem results_in_order_two : ∃ s, ResultsInOrder s ∧ s.shared.writes.map Prod.fst = [0,1] ∧
    s.shared.lastResult = makeResult .decompress .invalidArgument := by
  have hrun : ∃ s, Steps (Restricted Step WritesInTurn) .new [.init {} .ok,
      .call 0 (.enter (printJob false .compress false)), .call 0 .leave, .call 0 .release, .call 0 .storeLast,
      .call 1 (.enter (printJob false .decompress false)), .call 1 .leave, .call 1 .release,
      .call 1 .storeLast] s ∧ s.shared.writes.map Prod.fst = [0,1] ∧
      s.shared.lastResult = makeResult .decompress .invalidArgument := by
    refine ⟨_,.cons ⟨trivial,.init defaultConfig_valid rfl⟩ <| .cons ⟨trivial,.call (.accept rfl rfl rfl)⟩ <|
      .cons ⟨trivial,.call (.leave rfl (printJob_returns false .compress false))⟩ <|
      .cons ⟨trivial,.call (.release rfl)⟩ <| .cons ⟨?_,.call (.storeLast rfl)⟩ <|
      .cons ⟨trivial,.call (.accept rfl rfl rfl)⟩ <|
      .cons ⟨trivial,.call (.leave rfl (printJob_returns false .decompress false))⟩ <|
      .cons ⟨trivial,.call (.release rfl)⟩ <| .one ⟨?_,.call (.storeLast rfl)⟩,rfl,rfl⟩
    · intro c' r _ hbefore
      have hlength : 2 ≤ 1 := hbefore.length_le
      omega
    · intro c' r hc hbefore
      cases c' with
      | zero => cases hc
      | succ c' =>
        have hpair : [c' + 1,1] <+ [0,1] := hbefore
        cases hpair with
        | cons _ htail =>
          have hlength := htail.length_le
          simp at hlength
  obtain ⟨s,hsteps,hshown⟩ := hrun
  have hplain := hsteps.mono fun _ _ _ h => h.2
  exact ⟨s,(results_in_order State.new_initial hplain).1 hsteps,hshown⟩

/-- A compression releases the slot, a decompression is accepted and runs to its end, and only then does the
compression write its result. -/
theorem results_out_of_order : ∃ s, Steps Step .new [.init {} .ok, .call 0 (.enter (printJob false .compress false)),
      .call 0 .leave, .call 0 .release, .call 1 (.enter (printJob false .decompress false)), .call 1 .leave,
      .call 1 .release, .call 1 .storeLast, .call 0 .storeLast] s ∧
    (s.calls 0).pc = .ended ∧ (s.calls 1).pc = .ended ∧ s.shared.accepted = [0,1] ∧ s.shared.refusals = 0 ∧
    s.shared.lastResult = (s.calls 0).result ∧ s.shared.lastResult ≠ (s.calls 1).result ∧ ¬ResultsInOrder s := by
  refine ⟨_,.cons (.init defaultConfig_valid rfl) <| .cons (.call (.accept rfl rfl rfl)) <|
    .cons (.call (.leave rfl (printJob_returns false .compress false))) <| .cons (.call (.release rfl)) <|
    .cons (.call (.accept rfl rfl rfl)) <| .cons (.call (.leave rfl (printJob_returns false .decompress false))) <|
    .cons (.call (.release rfl)) <| .cons (.call (.storeLast rfl)) <| .one (.call (.storeLast rfl)),
    rfl,rfl,rfl,rfl,rfl,?_,fun h => ?_⟩
  · intro hsame
    cases hsame
  · have hnewest := h.newest 1 rfl rfl rfl
    cases hnewest

end JobControl
end EspCompressor
