import EspCompressor.Accounting
import EspCompressor.Histories

/-! The reports that a run hands to its progress callback. -/
namespace EspCompressor

/-- The report of an event. -/
def IoEvent.report : IoEvent → Option CompressionProgress
  | .progress p => some p
  | _ => none

/-- The reports of a trace, in order. -/
def reports (trace : List IoEvent) : List CompressionProgress := trace.filterMap IoEvent.report

@[simp] theorem reports_nil : reports [] = [] := rfl

@[simp] theorem reports_append (t t' : List IoEvent) : reports (t ++ t') = reports t ++ reports t' :=
  List.filterMap_append

/-- The counters never decrease and the input never exceeds a known total; exactly one report is done
if the run returns `Ok`, and none otherwise; it is the last one, and its counters are the bytes
consumed and published. -/
structure ReportsWell (trace : List IoEvent) (ok : Bool) : Prop where
  monotone : (reports trace).Pairwise fun p q =>
    p.processedInputBytes ≤ q.processedInputBytes ∧ p.producedOutputBytes ≤ q.producedOutputBytes
  within : ∀ p ∈ reports trace, p.hasKnownTotalInput = true → p.processedInputBytes ≤ p.totalInputBytes
  once : (reports trace).countP (·.done) = if ok = true then 1 else 0
  last : ∀ p ∈ (reports trace).dropLast, p.done = false
  counts : ∀ p ∈ reports trace, p.done = true →
    p.processedInputBytes.toNat = (meter trace).position ∧
      ∃ c, published trace = some c ∧ p.producedOutputBytes.toNat = c.length

/-- The bytes read and written fit into the counters. -/
def Fits (trace : List IoEvent) : Prop :=
  (meter trace).position < 2 ^ 64 ∧ (written trace).length < 2 ^ 64

/-! ### What a report tells -/

/-- A report counts what was read and written before it, and the input is no longer than the total. -/
structure Tells (size : ℕ) (produced : UInt64) (before : List IoEvent) (p : CompressionProgress) :
    Prop where
  processed : p.processedInputBytes = UInt64.ofNat (meter before).position
  produced : p.producedOutputBytes = produced
  within : p.hasKnownTotalInput = true →
    (meter before).position ≤ size ∧ p.totalInputBytes.toNat = size

/-- An event of a session that has not committed: a report that it makes tells what was read and
written, and is not done. -/
def Informs (size : ℕ) (before : List IoEvent) (e : IoEvent) : Prop :=
  ∀ p, e.report = some p →
    p.done = false ∧ Tells size (UInt64.ofNat (written before).length) before p

/-- All reports of a session that has not committed. -/
def Informed (size : ℕ) (trace : List IoEvent) : Prop := Histories.Each (Informs size) trace

theorem Informed.nil (size : ℕ) : Informed size [] := Histories.each_nil

/-- Events that report nothing. -/
theorem Informed.append {size : ℕ} {trace more : List IoEvent} (h : Informed size trace)
    (hmore : ∀ e ∈ more, e.report = none) : Informed size (trace ++ more) := by
  refine Histories.each_append.mpr ⟨h,Histories.each_of_forall fun _ _ e he p hp => ?_⟩
  rw [hmore e he] at hp
  simp at hp

theorem Informed.report {size : ℕ} {trace : List IoEvent} (h : Informed size trace)
    {p : CompressionProgress} (hp : p.done = false)
    (htells : Tells size (UInt64.ofNat (written trace).length) trace p) :
    Informed size (trace ++ [.progress p]) := by
  refine Histories.each_concat.mpr ⟨h,fun q hq => ?_⟩
  obtain rfl := Option.some.inj hq
  exact ⟨hp,htells⟩

/-- No byte is taken back. -/
theorem meter_position_le (trace : List IoEvent) (e : IoEvent) :
    (meter trace).position ≤ (meter (trace ++ [e])).position := by
  rw [meter_append_singleton]
  cases e <;> simp [IoEvent.meter]

theorem written_length_le (trace : List IoEvent) (e : IoEvent) :
    (written trace).length ≤ (written (trace ++ [e])).length := by
  rw [written_append,List.length_append]
  exact Nat.le_add_right _ _

theorem Fits.before {trace : List IoEvent} {e : IoEvent} (h : Fits (trace ++ [e])) : Fits trace :=
  ⟨(meter_position_le trace e).trans_lt h.1,(written_length_le trace e).trans_lt h.2⟩

/-- What is known of the reports of a session that has not committed. -/
structure Monitored (trace : List IoEvent) : Prop where
  monotone : (reports trace).Pairwise fun p q =>
    p.processedInputBytes ≤ q.processedInputBytes ∧ p.producedOutputBytes ≤ q.producedOutputBytes
  within : ∀ p ∈ reports trace, p.hasKnownTotalInput = true → p.processedInputBytes ≤ p.totalInputBytes
  undone : ∀ p ∈ reports trace, p.done = false
  processed_le : ∀ p ∈ reports trace, p.processedInputBytes.toNat ≤ (meter trace).position
  produced_le : ∀ p ∈ reports trace, p.producedOutputBytes.toNat ≤ (written trace).length

/-- The next report of a session, after reports that counted no more. -/
theorem Monitored.next {size : ℕ} {trace : List IoEvent} (h : Monitored trace) (hfits : Fits trace)
    {p : CompressionProgress} (htells : Tells size (UInt64.ofNat (written trace).length) trace p) :
    (reports trace ++ [p]).Pairwise (fun p q => p.processedInputBytes ≤ q.processedInputBytes ∧
      p.producedOutputBytes ≤ q.producedOutputBytes) ∧
    (∀ q ∈ reports trace ++ [p], q.hasKnownTotalInput = true → q.processedInputBytes ≤ q.totalInputBytes) ∧
    p.processedInputBytes.toNat = (meter trace).position ∧
    p.producedOutputBytes.toNat = (written trace).length := by
  have hprocessed : p.processedInputBytes.toNat = (meter trace).position := by
    rw [htells.processed,UInt64.toNat_ofNat_of_lt' hfits.1]
  have hproduced : p.producedOutputBytes.toNat = (written trace).length := by
    rw [htells.produced,UInt64.toNat_ofNat_of_lt' hfits.2]
  refine ⟨List.pairwise_append.mpr ⟨h.monotone,List.pairwise_singleton _ _,fun q hq r hr => ?_⟩,?_,
    hprocessed,hproduced⟩
  · rw [List.mem_singleton.mp hr]
    constructor
    · rw [UInt64.le_iff_toNat_le,hprocessed]
      exact h.processed_le q hq
    · rw [UInt64.le_iff_toNat_le,hproduced]
      exact h.produced_le q hq
  · intro q hq hknown
    rcases List.mem_append.mp hq with hq | hq
    · exact h.within q hq hknown
    · rw [List.mem_singleton.mp hq] at hknown ⊢
      obtain ⟨hle,htotal⟩ := htells.within hknown
      rw [UInt64.le_iff_toNat_le,hprocessed,htotal]
      exact hle

/-- An event that reports nothing. -/
theorem Monitored.silent {trace : List IoEvent} (h : Monitored trace) {e : IoEvent} (he : e.report = none) :
    Monitored (trace ++ [e]) := by
  have hsame : reports (trace ++ [e]) = reports trace := by simp [reports,he]
  refine ⟨?_,?_,?_,fun p hp => ?_,fun p hp => ?_⟩
  · rw [hsame]
    exact h.monotone
  · rw [hsame]
    exact h.within
  · rw [hsame]
    exact h.undone
  · rw [hsame] at hp
    exact (h.processed_le p hp).trans (meter_position_le trace e)
  · rw [hsame] at hp
    exact (h.produced_le p hp).trans (written_length_le trace e)

/-- A report. -/
theorem Monitored.reported {size : ℕ} {trace : List IoEvent} (h : Monitored trace) (hfits : Fits trace)
    {e : IoEvent} {p : CompressionProgress} (hreport : e.report = some p) (hundone : p.done = false)
    (htells : Tells size (UInt64.ofNat (written trace).length) trace p) : Monitored (trace ++ [e]) := by
  have hmore : reports (trace ++ [e]) = reports trace ++ [p] := by simp [reports,hreport]
  have hposition := meter_position_le trace e
  have hlength := written_length_le trace e
  obtain ⟨hmonotone,hwithin,hprocessed,hproduced⟩ := h.next hfits htells
  have hmem {q : CompressionProgress} (hq : q ∈ reports (trace ++ [e])) : q ∈ reports trace ∨ q = p := by
    rw [hmore,List.mem_append,List.mem_singleton] at hq
    exact hq
  refine ⟨?_,?_,fun q hq => ?_,fun q hq => ?_,fun q hq => ?_⟩
  · rw [hmore]
    exact hmonotone
  · rw [hmore]
    exact hwithin
  · rcases hmem hq with hq | rfl
    · exact h.undone q hq
    · exact hundone
  · rcases hmem hq with hq | rfl
    · exact (h.processed_le q hq).trans hposition
    · exact hprocessed.le.trans hposition
  · rcases hmem hq with hq | rfl
    · exact (h.produced_le q hq).trans hlength
    · exact hproduced.le.trans hlength

theorem Informed.monitored {size : ℕ} {trace : List IoEvent} (h : Informed size trace)
    (hfits : Fits trace) : Monitored trace := by
  induction trace using List.reverseRecOn with
  | nil => exact ⟨List.Pairwise.nil,by simp,by simp,by simp,by simp⟩
  | append_singleton trace e ih =>
    obtain ⟨hbefore,he⟩ := Histories.each_concat.mp h
    have hmonitored := ih hbefore hfits.before
    cases hreport : e.report with
    | none => exact hmonitored.silent hreport
    | some p =>
      obtain ⟨hundone,htells⟩ := he p hreport
      exact hmonitored.reported hfits.before hreport hundone htells

/-- A run that does not return `Ok`. -/
theorem Informed.reportsWell {size : ℕ} {trace : List IoEvent} (h : Informed size trace)
    (hfits : Fits trace) : ReportsWell trace false := by
  have hmonitored := h.monitored hfits
  refine ⟨hmonitored.monotone,hmonitored.within,?_,fun p hp => ?_,fun p hp hdone => ?_⟩
  · rw [if_neg (by simp),List.countP_eq_zero]
    intro p hp
    rw [hmonitored.undone p hp]
    simp
  · exact hmonitored.undone p (List.mem_of_mem_dropLast hp)
  · rw [hmonitored.undone p hp] at hdone
    simp at hdone

/-- The trace of a run that has committed, with its last report. -/
structure Concluded (size : ℕ) (trace : List IoEvent) (last : CompressionProgress) : Prop where
  trace_eq : ∃ before, trace = before ++ [.commit .ok,.progress last,.sinkClose,.sourceClose] ∧
    Informed size before ∧ Tells size last.producedOutputBytes before last
  done : last.done = true

/-- A run that returns `Ok` reports well exactly if its counters do not overflow and the last report
counts all that was published. -/
theorem Concluded.reportsWell_iff {size : ℕ} {trace : List IoEvent} {last : CompressionProgress}
    (h : Concluded size trace last) : ReportsWell trace true ↔
      Fits trace ∧ last.producedOutputBytes = UInt64.ofNat (written trace).length := by
  obtain ⟨before,rfl,hinformed,htells⟩ := h.trace_eq
  set trace := before ++ [.commit .ok,.progress last,.sinkClose,.sourceClose] with htrace
  have hreports : reports trace = reports before ++ [last] := by
    rw [htrace,reports_append]
    rfl
  have hposition : (meter trace).position = (meter before).position := by
    simp [htrace,meter,IoEvent.meter]
  have hwritten : written trace = written before := by simp [htrace,IoEvent.written]
  have hpublished : published trace = some (written trace) := by
    simp [published,htrace,IoEvent.commits]
  have hmem : last ∈ reports trace := by simp [hreports]
  constructor
  · intro hwell
    obtain ⟨hprocessed,c,hc,hproduced⟩ := hwell.counts last hmem h.done
    rw [hpublished] at hc
    obtain rfl := Option.some.inj hc
    refine ⟨⟨?_,?_⟩,?_⟩
    · rw [← hprocessed]
      exact last.processedInputBytes.toNat_lt
    · rw [← hproduced]
      exact last.producedOutputBytes.toNat_lt
    · rw [← hproduced]
      exact (UInt64.ofNat_toNat).symm
  · rintro ⟨hfits,hproduced⟩
    rw [Fits,hposition,hwritten] at hfits
    rw [hwritten] at hproduced
    rw [hproduced] at htells
    have hmonitored := hinformed.monitored hfits
    obtain ⟨hmonotone,hwithin,hprocessed,hcount⟩ := hmonitored.next hfits htells
    refine ⟨?_,?_,?_,fun p hp => ?_,fun p hp hdone => ?_⟩
    · rw [hreports]
      exact hmonotone
    · rw [hreports]
      exact hwithin
    · have hnone : (reports before).countP (·.done) = 0 := by
        rw [List.countP_eq_zero]
        intro p hp
        rw [hmonitored.undone p hp]
        simp
      rw [hreports,List.countP_append,hnone,List.countP_singleton,h.done]
      simp
    · rw [hreports,List.dropLast_concat] at hp
      exact hmonitored.undone p hp
    · rw [hreports,List.mem_append,List.mem_singleton] at hp
      rcases hp with hp | rfl
      · rw [hmonitored.undone p hp] at hdone
        simp at hdone
      · exact ⟨hprocessed.trans hposition.symm,_,hpublished,by rw [hwritten]; exact hcount⟩

end EspCompressor
