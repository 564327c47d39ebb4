import EspCompressor.Transitions

/-! A resource that one party holds at a time. Each party makes one report: when it gives the resource back,
or at some later time. -/
namespace EspCompressor
namespace Turns

open Transitions
open scoped List

variable {ι : Type}

/-- Who holds the resource, who has held it, in this order, and who has reported, in this order. -/
structure Book (ι : Type) where
  holder : Option ι := none
  admitted : List ι := []
  reported : List ι := []

inductive Move (ι : Type)
  | enter (i : ι)
  | report (i : ι)
  | leave (i : ι)
  | reportLate (i : ι)

/-- The party has given the resource back without a report. -/
def Book.Late (b : Book ι) (i : ι) : Prop := i ∈ b.admitted ∧ b.holder ≠ some i ∧ i ∉ b.reported

inductive Step : Book ι → Move ι → Book ι → Prop
  | enter {b : Book ι} {i : ι} : b.holder = none → i ∉ b.admitted →
      Step b (.enter i) { b with holder := some i, admitted := b.admitted ++ [i] }
  | report {b : Book ι} {i : ι} : b.holder = some i →
      Step b (.report i) { b with holder := none, reported := b.reported ++ [i] }
  | leave {b : Book ι} {i : ι} : b.holder = some i → Step b (.leave i) { b with holder := none }
  | reportLate {b : Book ι} {i : ι} : b.Late i → Step b (.reportLate i) { b with reported := b.reported ++ [i] }

/-- What is true of every book that is kept from the start. -/
structure Book.Kept (b : Book ι) : Prop where
  admitted_nodup : b.admitted.Nodup
  reported_nodup : b.reported.Nodup
  reported_admitted : ∀ i ∈ b.reported, i ∈ b.admitted
  holder_last : ∀ i, b.holder = some i → (∃ l, b.admitted = l ++ [i]) ∧ i ∉ b.reported

theorem Book.kept_empty : ({} : Book ι).Kept := ⟨by simp,by simp,by simp,by simp⟩

theorem nodup_append_one {l : List ι} {i : ι} (h : l.Nodup) (hi : i ∉ l) : (l ++ [i]).Nodup := by
  rw [← List.concat_eq_append]
  exact h.concat hi

theorem Step.kept {b b' : Book ι} {m : Move ι} (h : Step b m b') (hb : b.Kept) : b'.Kept := by
  cases h with
  | @enter i hfree hnew => exact {
      admitted_nodup := nodup_append_one hb.admitted_nodup hnew
      reported_nodup := hb.reported_nodup
      reported_admitted := fun j hj => List.mem_append_left _ (hb.reported_admitted j hj)
      holder_last := fun j hj => by
        cases hj
        exact ⟨⟨_,rfl⟩,fun hreported => hnew (hb.reported_admitted i hreported)⟩ }
  | @report i hholder =>
    obtain ⟨⟨l,hl⟩,hunreported⟩ := hb.holder_last i hholder
    exact {
      admitted_nodup := hb.admitted_nodup
      reported_nodup := nodup_append_one hb.reported_nodup hunreported
      reported_admitted := by simpa [or_imp,forall_and,hl] using hb.reported_admitted
      holder_last := by simp }
  | leave hholder => exact { hb with holder_last := by simp }
  | @reportLate i hlate => exact {
      hb with
      reported_nodup := nodup_append_one hb.reported_nodup hlate.2.2
      reported_admitted := by simpa [or_imp,forall_and,hlate.1] using hb.reported_admitted
      holder_last := fun j hj => by
        obtain ⟨hlast,hunreported⟩ := hb.holder_last j hj
        have hne : j ≠ i := fun heq => hlate.2.1 (heq ▸ hj)
        exact ⟨hlast,by simp [hunreported,hne]⟩ }

/-- Whose move it is. -/
def Move.party : Move ι → ι
  | .enter i => i
  | .report i => i
  | .leave i => i
  | .reportLate i => i

/-- A move changes nothing for the other parties. -/
theorem Step.other {b b' : Book ι} {m : Move ι} (h : Step b m b') {j : ι} (hj : j ≠ m.party) :
    (b'.holder = some j ↔ b.holder = some j) ∧ (j ∈ b'.admitted ↔ j ∈ b.admitted) ∧ (b'.Late j ↔ b.Late j) := by
  cases h with
  | enter hfree hnew =>
    simp only [Move.party] at hj
    simp [Book.Late,hfree,hj,Ne.symm hj]
  | report hholder =>
    simp only [Move.party] at hj
    simp [Book.Late,hholder,hj,Ne.symm hj]
  | leave hholder =>
    simp only [Move.party] at hj
    simp [Book.Late,hholder,Ne.symm hj]
  | reportLate hlate =>
    simp only [Move.party] at hj
    simp [Book.Late,hj]

/-- The reports are those of the parties that held the resource first, in the same order. -/
def Book.InOrder (b : Book ι) : Prop := b.reported <+: b.admitted

/-- A report is made in turn: no party that held the resource earlier is late. -/
def Book.InTurn (b : Book ι) : Move ι → Prop
  | .report i => ∀ j, b.Late j → ¬[j,i] <+ b.admitted
  | .reportLate i => ∀ j, b.Late j → ¬[j,i] <+ b.admitted
  | _ => True

/-- The first party that has not reported reports next. -/
theorem Book.Kept.inOrder_report {b : Book ι} (hb : b.Kept) (hin : b.InOrder) {i : ι}
    (hi : i ∈ b.admitted) (hunreported : i ∉ b.reported) (hturn : ∀ j, b.Late j → ¬[j,i] <+ b.admitted) :
    b.reported ++ [i] <+: b.admitted := by
  obtain ⟨rest,hrest⟩ := hin
  have hnodup := hb.admitted_nodup
  rw [← hrest] at hi hnodup
  have hmem : i ∈ rest := by simpa [hunreported] using hi
  obtain ⟨early,late,rfl⟩ := List.append_of_mem hmem
  cases early with
  | nil => exact ⟨late,by simpa using hrest⟩
  | cons j early =>
    -- The party `j` has not reported, is before `i` and hence does not hold the resource.
    have hlate : b.Late j := by
      refine ⟨by simp [← hrest],fun hholder => ?_,?_⟩
      · obtain ⟨l,hl⟩ := (hb.holder_last j hholder).1
        have hlast := congrArg List.getLast? (hrest.trans hl)
        rw [← List.append_assoc,List.getLast?_append_of_ne_nil _ (by simp),List.getLast?_concat] at hlast
        have hmem : j ∈ i :: late := List.mem_of_getLast? hlast
        grind
      · grind
    refine absurd ?_ (hturn j hlate)
    rw [← hrest]
    grind

theorem Step.inOrder {b b' : Book ι} {m : Move ι} (h : Step b m b') (hb : b.Kept) (hturn : b.InTurn m)
    (hin : b.InOrder) : b'.InOrder := by
  cases h with
  | enter _ _ => exact hin.trans (List.prefix_append _ _)
  | @report i hholder =>
    obtain ⟨⟨l,hl⟩,hunreported⟩ := hb.holder_last i hholder
    exact hb.inOrder_report hin (by simp [hl]) hunreported hturn
  | leave _ => exact hin
  | @reportLate i hlate => exact hb.inOrder_report hin hlate.1 hlate.2.2 hturn

/-- Every report in turn: the reports are in order. -/
theorem inOrder_of_inTurn {b b' : Book ι} {ms : List (Move ι)} (h : Steps (Restricted Step Book.InTurn) b ms b')
    (hb : b.Kept) (hin : b.InOrder) : b'.Kept ∧ b'.InOrder :=
  h.keeps (I := fun b => b.Kept ∧ b.InOrder)
    (fun _ _ _ ⟨hturn,hstep⟩ hI => ⟨hstep.kept hI.1,hstep.inOrder hI.1 hturn hI.2⟩) ⟨hb,hin⟩

/-- A late party stays late until it reports, and then it is behind all who have reported before. -/
def Book.StillLate (b : Book ι) (j : ι) (b' : Book ι) : Prop :=
  b.admitted <+: b'.admitted ∧
    (b'.Late j ∧ b.reported <+: b'.reported ∨ ∃ w, b'.reported = b.reported ++ w ∧ j ∈ w)

theorem Step.stillLate {b₀ b b' : Book ι} {m : Move ι} {j : ι} (h : Step b m b') (hb : b₀.StillLate j b) :
    b₀.StillLate j b' := by
  obtain ⟨hadmitted,⟨⟨hj,hholder,hunreported⟩,hgrows⟩ | ⟨w,hw,hjw⟩⟩ := hb
  · cases h with
    | @enter i hfree hnew =>
      have hne : i ≠ j := fun heq => hnew (heq ▸ hj)
      exact ⟨hadmitted.trans (List.prefix_append _ _),.inl ⟨⟨by simp [hj],by simp [hne],hunreported⟩,hgrows⟩⟩
    | @report i hi =>
      have hne : j ≠ i := fun heq => hholder (heq ▸ hi)
      exact ⟨hadmitted,.inl ⟨⟨hj,by simp,by simp [hunreported,hne]⟩,hgrows.trans (List.prefix_append _ _)⟩⟩
    | leave hi => exact ⟨hadmitted,.inl ⟨⟨hj,by simp,hunreported⟩,hgrows⟩⟩
    | @reportLate i hlate =>
      by_cases hij : i = j
      · obtain ⟨w,hw⟩ := hgrows
        exact ⟨hadmitted,.inr ⟨w ++ [i],by simp [← hw],by simp [hij]⟩⟩
      · exact ⟨hadmitted,.inl ⟨⟨hj,hholder,by simp [hunreported,Ne.symm hij]⟩,hgrows.trans (List.prefix_append _ _)⟩⟩
  · cases h with
    | enter _ _ => exact ⟨hadmitted.trans (List.prefix_append _ _),.inr ⟨w,hw,hjw⟩⟩
    | @report i _ => exact ⟨hadmitted,.inr ⟨w ++ [i],by simp [hw],by simp [hjw]⟩⟩
    | leave _ => exact ⟨hadmitted,.inr ⟨w,hw,hjw⟩⟩
    | @reportLate i _ => exact ⟨hadmitted,.inr ⟨w ++ [i],by simp [hw],by simp [hjw]⟩⟩

theorem Book.Late.stillLate {b b' : Book ι} {ms : List (Move ι)} {j : ι} (hj : b.Late j) (h : Steps Step b ms b') :
    b.StillLate j b' :=
  h.keeps (fun _ _ _ hstep hI => hstep.stillLate hI) ⟨List.prefix_rfl,.inl ⟨hj,List.prefix_rfl⟩⟩

/-- Two members of a list without repetitions are in one order only. -/
theorem not_nodup_of_swapped {l : List ι} {i j : ι} (h : [i,j] <+ l) (h' : [j,i] <+ l) : ¬l.Nodup := by
  induction l with
  | nil => simp at h
  | cons k l ih =>
    rw [List.nodup_cons]
    rintro ⟨hk,hnodup⟩
    cases h with
    | cons _ h =>
      cases h' with
      | cons _ h' => exact ih h h' hnodup
      | cons_cons _ h' => exact hk (h.subset (by simp))
    | cons_cons _ h =>
      cases h' with
      | cons _ h' => exact hk (h'.subset (by simp))
      | cons_cons _ h' => exact hk (h.subset (by simp))

/-- After a report out of turn, and once no party is late, the reports are not in the order of holding. -/
theorem Step.disorder {b b₁ b' : Book ι} {m : Move ι} {ms : List (Move ι)} (h : Step b m b₁) (hb : b.Kept)
    (hturn : ¬b.InTurn m) (hrest : Steps Step b₁ ms b') (hdone : ∀ j, ¬b'.Late j) :
    ¬b'.reported <+ b'.admitted := by
  intro hin
  have hb₁ := h.kept hb
  have hb' : b'.Kept := hrest.keeps (fun _ _ _ hstep hI => hstep.kept hI) hb₁
  have hcross : ∃ i j, [j,i] <+ b₁.admitted ∧ b₁.Late j ∧ i ∈ b₁.reported := by
    cases h with
    | @report i hholder =>
      simp only [Book.InTurn,not_forall,not_not] at hturn
      obtain ⟨j,hlate,hbefore⟩ := hturn
      have hne : j ≠ i := fun heq => hlate.2.1 (heq ▸ hholder)
      exact ⟨i,j,hbefore,⟨hlate.1,by simp,by simp [hlate.2.2,hne]⟩,by simp⟩
    | @reportLate i hi =>
      simp only [Book.InTurn,not_forall,not_not] at hturn
      obtain ⟨j,hlate,hbefore⟩ := hturn
      have hne : j ≠ i := by
        rintro rfl
        exact not_nodup_of_swapped hbefore hbefore hb.admitted_nodup
      exact ⟨i,j,hbefore,⟨hlate.1,hlate.2.1,by simp [hlate.2.2,hne]⟩,by simp⟩
    | _ => simp [Book.InTurn] at hturn
  obtain ⟨i,j,hbefore,hlate,hi⟩ := hcross
  obtain ⟨hadmitted,⟨hstill,_⟩ | ⟨w,hw,hj⟩⟩ := hlate.stillLate hrest
  · exact hdone j hstill
  · have hswapped : [i,j] <+ b'.reported := by
      rw [hw]
      exact (List.singleton_sublist.mpr hi).append (List.singleton_sublist.mpr hj)
    exact not_nodup_of_swapped (hswapped.trans hin) (hbefore.trans hadmitted.sublist) hb'.admitted_nodup

/-- When the last holder has reported and the reports are in order, its report is the last one. -/
theorem Book.InOrder.last {b : Book ι} (hin : b.InOrder) (hb : b.Kept) {i : ι}
    (hlast : b.admitted.getLast? = some i) (hi : i ∈ b.reported) : b.reported = b.admitted := by
  obtain ⟨rest,hrest⟩ := hin
  have hnodup := hb.admitted_nodup
  rw [← hrest] at hlast hnodup ⊢
  cases rest with
  | nil => simp
  | cons j rest =>
    have hmem : i ∈ j :: rest := List.mem_of_getLast? (by simpa using hlast)
    grind

end Turns
end EspCompressor
