import Mathlib.Tactic

/-! Labelled transition systems: runs, and what every step keeps. -/
namespace EspCompressor
namespace Transitions

variable {S L : Type}

/-- A run: the labels of its steps, one after the other. -/
inductive Steps (step : S → L → S → Prop) : S → List L → S → Prop
  | nil (s : S) : Steps step s [] s
  | cons {s s' s'' : S} {l : L} {ls : List L} : step s l s' → Steps step s' ls s'' →
      Steps step s (l :: ls) s''

/-- A state that a run reaches from an initial one. -/
def Reachable (step : S → L → S → Prop) (init : S → Prop) (s : S) : Prop :=
  ∃ s₀ ls, init s₀ ∧ Steps step s₀ ls s

/-- The steps that are taken under a condition on the state before them. -/
def Restricted (step : S → L → S → Prop) (allowed : S → L → Prop) (s : S) (l : L) (s' : S) : Prop :=
  allowed s l ∧ step s l s'

variable {step : S → L → S → Prop} {init : S → Prop}

theorem Steps.one {s s' : S} {l : L} (h : step s l s') : Steps step s [l] s' := .cons h (.nil s')

theorem Steps.append {s s' s'' : S} {ls ls' : List L} (h : Steps step s ls s') (h' : Steps step s' ls' s'') :
    Steps step s (ls ++ ls') s'' := by
  induction h with
  | nil s => exact h'
  | cons hl _ ih => exact .cons hl (ih h')

/-- Steps of one system are steps of another. -/
theorem Steps.mono {step' : S → L → S → Prop} {s s' : S} {ls : List L} (h : Steps step s ls s')
    (himp : ∀ s l s', step s l s' → step' s l s') : Steps step' s ls s' := by
  induction h with
  | nil s => exact .nil s
  | cons hstep _ ih => exact .cons (himp _ _ _ hstep) ih

/-- A run whose labels meet a condition is a run of the restricted system. -/
theorem Steps.restrict {P : L → Prop} {s s' : S} {ls : List L} (h : Steps step s ls s') (hls : ∀ l ∈ ls, P l) :
    Steps (Restricted step fun _ l => P l) s ls s' := by
  induction h with
  | nil s => exact .nil s
  | cons hstep _ ih =>
    rw [List.forall_mem_cons] at hls
    exact .cons ⟨hls.1,hstep⟩ (ih hls.2)

/-- What every step keeps holds at the end of a run. -/
theorem Steps.keeps {I : S → Prop} {s s' : S} {ls : List L} (h : Steps step s ls s')
    (hstep : ∀ s l s', step s l s' → I s → I s') (hs : I s) : I s' := by
  induction h with
  | nil s => exact hs
  | cons hl _ ih => exact ih (hstep _ _ _ hl hs)

/-- What every step keeps holds before each step of a run, and so does what it implies of the labels. -/
theorem Steps.forall_labels {I : S → Prop} {P : L → Prop} {s s' : S} {ls : List L} (h : Steps step s ls s')
    (hstep : ∀ s l s', step s l s' → I s → I s' ∧ P l) (hs : I s) : ∀ l ∈ ls, P l := by
  induction h with
  | nil s => simp
  | cons hl _ ih =>
    obtain ⟨hnext,hP⟩ := hstep _ _ _ hl hs
    exact List.forall_mem_cons.mpr ⟨hP,ih hnext⟩

/-- An invariant that speaks of the labels of the run as well. -/
theorem Steps.keeps_history {I : List L → S → Prop} {s s' : S} {ls : List L} (h : Steps step s ls s')
    (hstep : ∀ before s l s', step s l s' → I before s → I (before ++ [l]) s') (hs : I [] s) : I ls s' := by
  suffices hgeneral : ∀ before, I before s → I (before ++ ls) s' from hgeneral [] hs
  clear hs
  induction h with
  | nil s =>
    intro before hs
    rw [List.append_nil]
    exact hs
  | @cons s s₁ s' l ls hl _ ih =>
    intro before hs
    rw [← List.singleton_append,← List.append_assoc]
    exact ih (before ++ [l]) (hstep before s l s₁ hl hs)

/-- A rank that no step raises bounds how many of the steps that lower it a run can take. -/
theorem Steps.countP_le {I : S → Prop} {rank : S → ℕ} {lowers : L → Bool} {s s' : S} {ls : List L}
    (h : Steps step s ls s')
    (hstep : ∀ s l s', step s l s' → I s → I s' ∧ rank s' + (if lowers l then 1 else 0) ≤ rank s) (hs : I s) :
    I s' ∧ ls.countP lowers + rank s' ≤ rank s := by
  induction h with
  | nil s => exact ⟨hs,by simp⟩
  | @cons s s₁ s' l ls hl _ ih =>
    obtain ⟨hnext,hrank⟩ := hstep s l s₁ hl hs
    obtain ⟨hend,hcount⟩ := ih hnext
    refine ⟨hend,?_⟩
    rw [List.countP_cons]
    omega

/-- Parties that each have so much left to do, of which no step makes more: the steps that a party takes for
itself are bounded. -/
theorem Steps.parties_countP_le {ι : Type} {I : S → Prop} {rest : S → ι → ℕ} {party : L → Option ι} {s s' : S}
    {ls : List L} (parties : Finset ι) (h : Steps step s ls s')
    (hstep : ∀ s l s', step s l s' → I s → I s' ∧ (∀ i, rest s' i ≤ rest s i) ∧
      ∀ i, party l = some i → rest s' i < rest s i)
    (hs : I s) (hothers : ∀ i ∉ parties, rest s i = 0) :
    I s' ∧ ls.countP (fun l => (party l).isSome) ≤ ∑ i ∈ parties, rest s i := by
  have hlower : ∀ t l t', step t l t' → (I t ∧ ∀ i ∉ parties, rest t i = 0) →
      (I t' ∧ ∀ i ∉ parties, rest t' i = 0) ∧
        ∑ i ∈ parties, rest t' i + (if (party l).isSome then 1 else 0) ≤ ∑ i ∈ parties, rest t i := by
    rintro t l t' hl ⟨ht,hzero⟩
    obtain ⟨ht',hle,hlt⟩ := hstep t l t' hl ht
    refine ⟨⟨ht',fun i hi => Nat.le_zero.mp (hzero i hi ▸ hle i)⟩,?_⟩
    cases hparty : party l with
    | none => simpa using Finset.sum_le_sum fun i _ => hle i
    | some i =>
      have hmem : i ∈ parties := by
        by_contra hi
        have hless := hlt i hparty
        rw [hzero i hi] at hless
        exact Nat.not_lt_zero _ hless
      simpa using Finset.sum_lt_sum (fun i _ => hle i) ⟨i,hmem,hlt i hparty⟩
  obtain ⟨⟨hend,_⟩,hcount⟩ := h.countP_le hlower ⟨hs,hothers⟩
  exact ⟨hend,by omega⟩

/-- An inductive invariant holds of every reachable state. -/
theorem Reachable.keeps {I : S → Prop} {s : S} (h : Reachable step init s) (hinit : ∀ s, init s → I s)
    (hstep : ∀ s l s', step s l s' → I s → I s') : I s := by
  obtain ⟨s₀,ls,hs₀,hrun⟩ := h
  exact hrun.keeps hstep (hinit s₀ hs₀)

/-! ### Simulation -/

variable {A M : Type} {astep : A → M → A → Prop} {move : S → L → Option M} {R : S → A → Prop}

/-- Related states stay related: a step that has a move takes it, and the others do not move. -/
def Simulates (step : S → L → S → Prop) (astep : A → M → A → Prop) (move : S → L → Option M)
    (R : S → A → Prop) : Prop :=
  ∀ s l s' a, step s l s' → R s a →
    match move s l with
    | some m => ∃ a', astep a m a' ∧ R s' a'
    | none => R s' a

theorem Simulates.steps (hsim : Simulates step astep move R) {s s' : S} {ls : List L} {a : A}
    (h : Steps step s ls s') (ha : R s a) : ∃ ms a', Steps astep a ms a' ∧ R s' a' := by
  induction h generalizing a with
  | nil s => exact ⟨[],a,.nil a,ha⟩
  | @cons s s₁ s' l ls hl hrest ih =>
    have hnext := hsim s l s₁ a hl ha
    cases hmove : move s l with
    | none =>
      rw [hmove] at hnext
      exact ih hnext
    | some m =>
      rw [hmove] at hnext
      obtain ⟨a₁,hm,ha₁⟩ := hnext
      obtain ⟨ms,a',hms,ha'⟩ := ih ha₁
      exact ⟨m :: ms,a',.cons hm hms,ha'⟩

/-- A simulation of the restricted systems, when the one restriction implies the other. -/
theorem Simulates.restricted (hsim : Simulates step astep move R) (allowed : S → L → Prop) (aallowed : A → M → Prop)
    (himp : ∀ s l s' a m, step s l s' → R s a → allowed s l → move s l = some m → aallowed a m) :
    Simulates (Restricted step allowed) (Restricted astep aallowed) move R := by
  intro s l s' a ⟨hallowed,hl⟩ ha
  have hnext := hsim s l s' a hl ha
  cases hmove : move s l with
  | none => simpa [hmove] using hnext
  | some m =>
    rw [hmove] at hnext
    obtain ⟨a',hm,ha'⟩ := hnext
    exact ⟨a',⟨himp s l s' a m hl ha hallowed hmove,hm⟩,ha'⟩

end Transitions
end EspCompressor
