import EspCompressor.Proc

/-! Two procedures in lockstep: from related states they end alike in related states, unless the
first one returns early, at a point that the second one passes. -/
namespace EspCompressor
namespace Proc

variable {ρ ρ' σ τ α β : Type}

theorem bind_apply (m : Proc ρ σ α) (f : α → Proc ρ σ β) (s : σ) : (m >>= f) s =
    match m s with
    | (.done a,s') => f a s'
    | (.returned r,s') => (.returned r,s')
    | (.pending,s') => (.pending,s')
    | (.undefined,s') => (.undefined,s') := rfl

/-- What holds of the state that a procedure reaches holds at each of its ends. -/
theorem wp_reached {m : Proc ρ σ α} {Q : α → σ → Prop} {R : ρ → σ → Prop} {S P : σ → Prop} {s : σ}
    (h : wp m Q R S s) (hP : P (m s).2) :
    wp m (fun a s' => Q a s' ∧ P s') (fun r s' => R r s' ∧ P s') (fun s' => S s' ∧ P s') s := by
  unfold wp at h ⊢
  generalize m s = x at h hP ⊢
  rcases x with ⟨o,s'⟩
  cases o with
  | done a => exact ⟨h,hP⟩
  | returned r => exact ⟨h,hP⟩
  | pending => exact ⟨h,hP⟩
  | undefined => exact h

/-- Two specifications of one procedure. -/
theorem wp_and {m : Proc ρ σ α} {Q Q' : α → σ → Prop} {R R' : ρ → σ → Prop} {S S' : σ → Prop} {s : σ}
    (h : wp m Q R S s) (h' : wp m Q' R' S' s) :
    wp m (fun a s' => Q a s' ∧ Q' a s') (fun r s' => R r s' ∧ R' r s') (fun s' => S s' ∧ S' s') s := by
  unfold wp at h h' ⊢
  generalize m s = x at h h' ⊢
  rcases x with ⟨o,s'⟩
  cases o with
  | done a => exact ⟨h,h'⟩
  | returned r => exact ⟨h,h'⟩
  | pending => exact ⟨h,h'⟩
  | undefined => exact h

/-- How two procedures in lockstep may return, and be left running; how the first one may return while
the second one goes on; and what the second one may get to. -/
structure Exits (ρ σ τ : Type) where
  returns : ρ → σ → τ → Prop
  waits : σ → τ → Prop
  stops : ρ → σ → τ → Prop
  later : τ → τ → Prop

/-- The ends of two procedures: alike, or the first one stopped where the second one went on. -/
inductive Paired (E : Exits ρ σ τ) (Q : α → σ → τ → Prop) : Outcome ρ α × σ → Outcome ρ α × τ → Prop
  | done {a : α} {s : σ} {t : τ} : Q a s t → Paired E Q (.done a,s) (.done a,t)
  | returned {r : ρ} {s : σ} {t : τ} : E.returns r s t → Paired E Q (.returned r,s) (.returned r,t)
  | pending {s : σ} {t : τ} : E.waits s t → Paired E Q (.pending,s) (.pending,t)
  | undefined {s : σ} {t : τ} : Paired E Q (.undefined,s) (.undefined,t)
  | stopped {r : ρ} {s : σ} {t t' : τ} {o : Outcome ρ α} : E.stops r s t → E.later t t' →
      Paired E Q (.returned r,s) (o,t')

theorem Paired.mono {E : Exits ρ σ τ} {Q Q' : α → σ → τ → Prop}
    {x : Outcome ρ α × σ} {y : Outcome ρ α × τ}
    (h : Paired E Q x y) (hQ : ∀ a s t, Q a s t → Q' a s t) : Paired E Q' x y := by
  cases h with
  | done hdone => exact .done (hQ _ _ _ hdone)
  | returned hreturns => exact .returned hreturns
  | pending hwaits => exact .pending hwaits
  | undefined => exact .undefined
  | stopped hstops hlater => exact .stopped hstops hlater

/-- From states related by `P`, both procedures end as `E` says or fall through as `Q` says. -/
structure Lockstep (E : Exits ρ σ τ) (P : σ → τ → Prop) (m : Proc ρ σ α) (n : Proc ρ τ α)
    (Q : α → σ → τ → Prop) : Prop where
  later : ∀ t, E.later t (n t).2
  ends : ∀ s t, P s t → Paired E Q (m s) (n t)

namespace Lockstep

variable {E : Exits ρ σ τ} {P : σ → τ → Prop} {Q : α → σ → τ → Prop}

theorem lift {f : σ → α × σ} {g : τ → α × τ} (hlater : ∀ t, E.later t (g t).2)
    (h : ∀ s t, P s t → (f s).1 = (g t).1 ∧ Q (g t).1 (f s).2 (g t).2) :
    Lockstep E P (Proc.lift f) (Proc.lift g) Q := by
  refine ⟨hlater,fun s t hP => ?_⟩
  obtain ⟨hsame,hQ⟩ := h s t hP
  change Paired E Q (.done (f s).1,(f s).2) (.done (g t).1,(g t).2)
  rw [hsame]
  exact .done hQ

theorem modify {Q : Unit → σ → τ → Prop} {f : σ → σ} {g : τ → τ} (hlater : ∀ t, E.later t (g t))
    (h : ∀ s t, P s t → Q () (f s) (g t)) : Lockstep E P (Proc.modify f) (Proc.modify g) Q :=
  ⟨hlater,fun s t hP => .done (h s t hP)⟩

theorem ite {c : Prop} [Decidable c] {m m' : Proc ρ σ α} {n n' : Proc ρ τ α}
    (h : c → Lockstep E P m n Q) (h' : ¬c → Lockstep E P m' n' Q) :
    Lockstep E P (if c then m else m') (if c then n else n') Q := by
  by_cases hc : c
  · rw [if_pos hc,if_pos hc]
    exact h hc
  · rw [if_neg hc,if_neg hc]
    exact h' hc

/-- A weaker end from a stronger start. -/
theorem mono {P' : σ → τ → Prop} {Q' : α → σ → τ → Prop} {m : Proc ρ σ α} {n : Proc ρ τ α}
    (h : Lockstep E P m n Q) (hP : ∀ s t, P' s t → P s t) (hQ : ∀ a s t, Q a s t → Q' a s t) :
    Lockstep E P' m n Q' :=
  ⟨h.later,fun s t hstart => (h.ends s t (hP s t hstart)).mono hQ⟩

/-- The callers' own returns carry the callees' results. -/
theorem mapReturn {E : Exits ρ' σ τ} {f : ρ → ρ'} {m : Proc ρ σ α} {n : Proc ρ τ α}
    (h : Lockstep ⟨fun r => E.returns (f r),E.waits,fun r => E.stops (f r),E.later⟩ P m n Q) :
    Lockstep E P (Proc.mapReturn f m) (Proc.mapReturn f n) Q := by
  refine ⟨fun t => ?_,fun s t hP => ?_⟩
  · have hlater := h.later t
    unfold Proc.mapReturn
    generalize n t = y at hlater ⊢
    rcases y with ⟨o,t'⟩
    cases o <;> exact hlater
  · have hends := h.ends s t hP
    unfold Proc.mapReturn
    generalize m s = x at hends ⊢
    generalize n t = y at hends ⊢
    cases hends with
    | done hdone => exact .done hdone
    | returned hreturns => exact .returned hreturns
    | pending hwaits => exact .pending hwaits
    | undefined => exact .undefined
    | @stopped r s t t' o hstops hlater => cases o <;> exact .stopped hstops hlater

/-- The same call on parts of the two states that are equal. -/
theorem callOn {υ : Type} {view : σ → υ} {put : υ → σ → σ} {view' : τ → υ} {put' : υ → τ → τ}
    {Q : ρ' × υ → σ → τ → Prop} (f : Proc ρ' υ ρ') (hlater : ∀ u t, E.later t (put' u t))
    (hview : ∀ s t, P s t → view s = view' t) (hQ : ∀ u s t, P s t → ∀ r, Q (r,u) (put u s) (put' u t))
    (hwaits : ∀ u s t, P s t → E.waits (put u s) (put' u t)) :
    Lockstep E P (Proc.callOn view put f) (Proc.callOn view' put' f) Q := by
  refine ⟨fun t => ?_,fun s t hP => ?_⟩
  · unfold Proc.callOn
    rcases f (view' t) with ⟨o,u⟩
    cases o <;> exact hlater u t
  · unfold Proc.callOn
    rw [hview s t hP]
    rcases f (view' t) with ⟨o,u⟩
    cases o with
    | done a => exact .done (hQ u s t hP a)
    | returned r => exact .done (hQ u s t hP r)
    | pending => exact .pending (hwaits u s t hP)
    | undefined => exact .undefined

section Preorder

variable [IsPreorder τ E.later]

protected theorem pure {a : α} (h : ∀ s t, P s t → Q a s t) : Lockstep E P (pure a) (pure a) Q :=
  ⟨fun t => refl t,fun s t hP => .done (h s t hP)⟩

theorem ret {r : ρ} (h : ∀ s t, P s t → E.returns r s t) :
    Lockstep E P (Proc.ret r : Proc ρ σ α) (Proc.ret r) Q :=
  ⟨fun t => refl t,fun s t hP => .returned (h s t hP)⟩

theorem get {f : σ → α} {g : τ → α} (h : ∀ s t, P s t → f s = g t ∧ Q (g t) s t) :
    Lockstep E P (Proc.get f) (Proc.get g) Q := by
  refine ⟨fun t => refl t,fun s t hP => ?_⟩
  obtain ⟨hsame,hQ⟩ := h s t hP
  change Paired E Q (.done (f s),s) (.done (g t),t)
  rw [hsame]
  exact .done hQ

theorem bind {m : Proc ρ σ α} {n : Proc ρ τ α} {f : α → Proc ρ σ β} {g : α → Proc ρ τ β}
    {Q' : β → σ → τ → Prop} (h : Lockstep E P m n Q)
    (hf : ∀ a, Lockstep E (Q a) (f a) (g a) Q') : Lockstep E P (m >>= f) (n >>= g) Q' := by
  refine ⟨fun t => ?_,fun s t hP => ?_⟩
  · have hlater := h.later t
    rw [bind_apply]
    generalize n t = y at hlater ⊢
    rcases y with ⟨o,t'⟩
    cases o with
    | done a => exact IsTrans.trans _ _ _ hlater ((hf a).later t')
    | returned r => exact hlater
    | pending => exact hlater
    | undefined => exact hlater
  · have hends := h.ends s t hP
    rw [bind_apply,bind_apply]
    generalize m s = x at hends ⊢
    generalize n t = y at hends ⊢
    cases hends with
    | done hdone => exact (hf _).ends _ _ hdone
    | returned hreturns => exact .returned hreturns
    | pending hwaits => exact .pending hwaits
    | undefined => exact .undefined
    | @stopped r s t t' o hstops hlater =>
      cases o with
      | done a => exact .stopped hstops (IsTrans.trans _ _ _ hlater ((hf a).later t'))
      | returned _ => exact .stopped hstops hlater
      | pending => exact .stopped hstops hlater
      | undefined => exact .stopped hstops hlater

/-- Destructors that run on every way out but that of a procedure still running. -/
theorem destroying {returns' stops' : ρ → σ → τ → Prop} {Q' : α → σ → τ → Prop} {d : σ → σ} {d' : τ → τ}
    {m : Proc ρ σ α} {n : Proc ρ τ α} (h : Lockstep E P m n Q) (hlater : ∀ t, E.later t (d' t))
    (hdone : ∀ a s t, Q a s t → Q' a (d s) (d' t))
    (hreturns : ∀ r s t, E.returns r s t → returns' r (d s) (d' t))
    (hstops : ∀ r s t, E.stops r s t → stops' r (d s) t) :
    Lockstep ⟨returns',E.waits,stops',E.later⟩ P (Proc.destroying d m) (Proc.destroying d' n) Q' := by
  refine ⟨fun t => ?_,fun s t hP => ?_⟩
  · have hstart := h.later t
    unfold Proc.destroying
    generalize n t = y at hstart ⊢
    rcases y with ⟨o,t'⟩
    cases o with
    | done _ => exact IsTrans.trans _ _ _ hstart (hlater t')
    | returned _ => exact IsTrans.trans _ _ _ hstart (hlater t')
    | pending => exact hstart
    | undefined => exact hstart
  · have hends := h.ends s t hP
    unfold Proc.destroying
    generalize m s = x at hends ⊢
    generalize n t = y at hends ⊢
    cases hends with
    | done hQ => exact .done (hdone _ _ _ hQ)
    | returned hret => exact .returned (hreturns _ _ _ hret)
    | pending hwaits => exact .pending hwaits
    | undefined => exact .undefined
    | @stopped r s t t' o hstop hstart =>
      cases o with
      | done _ => exact .stopped (hstops _ _ _ hstop) (IsTrans.trans _ _ _ hstart (hlater t'))
      | returned _ => exact .stopped (hstops _ _ _ hstop) (IsTrans.trans _ _ _ hstart (hlater t'))
      | pending => exact .stopped (hstops _ _ _ hstop) hstart
      | undefined => exact .stopped (hstops _ _ _ hstop) hstart

theorem returnIf {c : Prop} [Decidable c] {r : ρ} (h : c → ∀ s t, P s t → E.returns r s t) :
    Lockstep E P (Proc.returnIf c r) (Proc.returnIf c r) fun _ s t => P s t ∧ ¬c :=
  .ite (fun hc => .ret (h hc)) fun hc => .pure fun _ _ hP => ⟨hP,hc⟩

/-- An invariant that the rounds keep. -/
theorem loop {body : α → Proc ρ σ (α ⊕ β)} {body' : α → Proc ρ τ (α ⊕ β)} {I : α → σ → τ → Prop}
    {Q : β → σ → τ → Prop}
    (h : ∀ a, Lockstep E (I a) (body a) (body' a) fun c s t => c.elim (I · s t) (Q · s t))
    (hwaits : ∀ a s t, I a s t → E.waits s t) (n : ℕ) (a : α) :
    Lockstep E (I a) (Proc.loop body n a) (Proc.loop body' n a) Q := by
  induction n generalizing a with
  | zero => exact ⟨fun t => refl t,fun s t hI => .pending (hwaits a s t hI)⟩
  | succ n ih =>
    refine (h a).bind fun c => ?_
    cases c with
    | inl a' => exact ih a'
    | inr b => exact .pure fun _ _ hQ => hQ

end Preorder

/-- A procedure in lockstep with itself, once it is known to make no undefined access. -/
theorem wp_self {m : Proc ρ σ α} {E : Exits ρ σ σ} {P : σ → σ → Prop} {Q : α → σ → σ → Prop}
    (h : Lockstep E P m m Q) {s : σ} (hP : P s s) (hstops : ∀ r s t, ¬E.stops r s t)
    (hsafe : wp m (fun _ _ => True) (fun _ _ => True) (fun _ => True) s) :
    wp m (fun a s' => Q a s' s') (fun r s' => E.returns r s' s') (fun s' => E.waits s' s') s := by
  have hends := h.ends s s hP
  unfold wp at hsafe ⊢
  generalize m s = x at hends hsafe ⊢
  cases hends with
  | done hdone => exact hdone
  | returned hreturns => exact hreturns
  | pending hwaits => exact hwaits
  | undefined => exact hsafe
  | stopped hstop _ => exact absurd hstop (hstops _ _ _)

/-- When the second one of two calls returns, the first one returns alike, or it was stopped before. -/
theorem exec_of_returned {m : Proc ρ σ ρ} {n : Proc ρ τ ρ} {E : Exits ρ σ τ} {P : σ → τ → Prop}
    {Q : ρ → σ → τ → Prop} (h : Lockstep E P m n Q) {s : σ} {t : τ} (hP : P s t) {r : ρ} {t' : τ}
    (hrun : exec n t = (some r,t')) :
    (∃ s', exec m s = (some r,s') ∧ (Q r s' t' ∨ E.returns r s' t')) ∨
      ∃ r' s' t'', exec m s = (some r',s') ∧ E.stops r' s' t'' ∧ E.later t'' t' := by
  have hends := h.ends s t hP
  unfold exec at hrun ⊢
  generalize m s = x at hends ⊢
  generalize n t = y at hends hrun
  cases hends with
  | @done a s' t'' hdone =>
    obtain ⟨rfl,rfl⟩ : a = r ∧ t'' = t' := by simpa using hrun
    exact .inl ⟨s',rfl,.inl hdone⟩
  | @returned a s' t'' hreturns =>
    obtain ⟨rfl,rfl⟩ : a = r ∧ t'' = t' := by simpa using hrun
    exact .inl ⟨s',rfl,.inr hreturns⟩
  | pending _ => simp at hrun
  | undefined => simp at hrun
  | @stopped r' s' t₁ t₂ o hstops hlater =>
    obtain rfl : t₂ = t' := by cases o <;> simp_all
    exact .inr ⟨r',s',t₁,rfl,hstops,hlater⟩

end Lockstep

/-! ### More rounds -/

/-- The first procedure ends like the second one, or it is left running at a point that the second one passes. -/
def Prolongs (later : σ → σ → Prop) (m m' : Proc ρ σ α) : Prop :=
  ∀ s, m s = m' s ∨ ∃ s', m s = (.pending,s') ∧ later s' (m' s).2

namespace Prolongs

variable {later : σ → σ → Prop} {m m' : Proc ρ σ α}

theorem same : Prolongs later m m := fun _ => .inl rfl

/-- The same statement, and what comes after it. -/
theorem after {f f' : α → Proc ρ σ β} (hf : ∀ a, Prolongs later (f a) (f' a)) :
    Prolongs later (m >>= f) (m >>= f') := fun s => by
  rw [bind_apply,bind_apply]
  rcases m s with ⟨o,s'⟩
  cases o with
  | done a => exact hf a s'
  | returned r => exact .inl (rfl)
  | pending => exact .inl (rfl)
  | undefined => exact .inl (rfl)

variable [IsPreorder σ later]

theorem bind {f : α → Proc ρ σ β} (hm : Prolongs later m m') (hf : ∀ a s, later s (f a s).2) :
    Prolongs later (m >>= f) (m' >>= f) := fun s => by
  rw [bind_apply,bind_apply]
  obtain hsame | ⟨s',hpending,hlater⟩ := hm s
  · rw [hsame]
    exact .inl (rfl)
  · rw [hpending]
    refine .inr ⟨s',rfl,?_⟩
    generalize m' s = y at hlater ⊢
    rcases y with ⟨o,t⟩
    cases o with
    | done a => exact IsTrans.trans _ _ _ hlater (hf a t)
    | returned r => exact hlater
    | pending => exact hlater
    | undefined => exact hlater

theorem destroying {d : σ → σ} (hm : Prolongs later m m') (hd : ∀ s, later s (d s)) :
    Prolongs later (destroying d m) (destroying d m') := fun s => by
  unfold Proc.destroying
  obtain hsame | ⟨s',hpending,hlater⟩ := hm s
  · rw [hsame]
    exact .inl (rfl)
  · rw [hpending]
    refine .inr ⟨s',rfl,?_⟩
    generalize m' s = y at hlater ⊢
    rcases y with ⟨o,t⟩
    cases o with
    | done a => exact IsTrans.trans _ _ _ hlater (hd t)
    | returned r => exact IsTrans.trans _ _ _ hlater (hd t)
    | pending => exact hlater
    | undefined => exact hlater

theorem loop_later {body : α → Proc ρ σ (α ⊕ β)} (hbody : ∀ a s, later s (body a s).2) (n : ℕ) (a : α) (s : σ) :
    later s (Proc.loop body n a s).2 := by
  induction n generalizing a s with
  | zero => exact refl s
  | succ n ih =>
    have hround := hbody a s
    rw [Proc.loop,bind_apply]
    generalize body a s = y at hround ⊢
    rcases y with ⟨o,t⟩
    cases o with
    | done c =>
      cases c with
      | inl a' => exact IsTrans.trans _ _ _ hround (ih a' t)
      | inr b => exact hround
    | returned r => exact hround
    | pending => exact hround
    | undefined => exact hround

/-- One round more. -/
theorem loop {body : α → Proc ρ σ (α ⊕ β)} (hbody : ∀ a s, later s (body a s).2) (n : ℕ) (a : α) :
    Prolongs later (Proc.loop body n a) (Proc.loop body (n + 1) a) := by
  induction n generalizing a with
  | zero => exact fun s => .inr ⟨s,rfl,loop_later hbody 1 a s⟩
  | succ n ih =>
    refine after fun c => ?_
    cases c with
    | inl a' => exact ih a'
    | inr b => exact .same

/-- A call that has returned goes the same way with more rounds, and one that is left running goes on. -/
theorem exec {m m' : Proc ρ σ ρ} (hm : Prolongs later m m') (s : σ) :
    (∃ r, (Proc.exec m s).1 = some r) ∧ Proc.exec m' s = Proc.exec m s ∨
      (Proc.exec m s).1 = none ∧ later (Proc.exec m s).2 (Proc.exec m' s).2 := by
  unfold Proc.exec
  obtain hsame | ⟨s',hpending,hlater⟩ := hm s
  · rw [hsame]
    rcases m' s with ⟨o,t⟩
    cases o with
    | done r => exact .inl ⟨⟨r,rfl⟩,rfl⟩
    | returned r => exact .inl ⟨⟨r,rfl⟩,rfl⟩
    | pending => exact .inr ⟨rfl,refl t⟩
    | undefined => exact .inr ⟨rfl,refl t⟩
  · rw [hpending]
    refine .inr ⟨rfl,?_⟩
    generalize m' s = y at hlater ⊢
    rcases y with ⟨o,t⟩
    cases o <;> exact hlater

end Prolongs

/-! ### Related states at every end -/

/-- States related by `P` at every end. -/
def alongside (P : σ → τ → Prop) : Exits ρ σ τ where
  returns _ := P
  waits := P
  stops _ _ _ := False
  later _ _ := True

instance (P : σ → τ → Prop) : IsPreorder τ (alongside (ρ := ρ) P).later where
  refl _ := trivial
  trans _ _ _ _ _ := trivial

/-- The two procedures end alike, and keep the states related. -/
abbrev Alongside (P : σ → τ → Prop) (m : Proc ρ σ α) (n : Proc ρ τ α) : Prop :=
  Lockstep (alongside P) P m n fun _ => P

section Rules

variable {P : σ → τ → Prop}

theorem pure_alongside (a : α) : Alongside P (pure a : Proc ρ σ α) (pure a) := .pure fun _ _ h => h

theorem returnIf_alongside (c : Prop) [Decidable c] (r : ρ) :
    Alongside P (returnIf c r) (returnIf c r) :=
  (Lockstep.returnIf fun _ _ _ h => h).mono (fun _ _ h => h) fun _ _ _ h => h.1

theorem loop_alongside {body : α → Proc ρ σ (α ⊕ β)} {body' : α → Proc ρ τ (α ⊕ β)}
    (h : ∀ a, Alongside P (body a) (body' a)) (n : ℕ) (a : α) :
    Alongside P (loop body n a) (loop body' n a) :=
  .loop (fun a => (h a).mono (fun _ _ h => h) fun c _ _ h => by cases c <;> exact h)
    (fun _ _ _ h => h) n a

end Rules

/-! ### The same, but for some states -/

/-- The procedure does not leave `far`. -/
def Stays (far : σ → Prop) (m : Proc ρ σ α) : Prop := ∀ s, far s → far (m s).2

/-- From `s` the two procedures do the same, unless both come to `far`. -/
def SameUnless (far : σ → Prop) (m n : Proc ρ σ α) (s : σ) : Prop := m s = n s ∨ far (m s).2 ∧ far (n s).2

namespace SameUnless

variable {far : σ → Prop} {m n : Proc ρ σ α} {s : σ}

theorem same (m : Proc ρ σ α) (s : σ) : SameUnless far m m s := .inl rfl

/-- After the same statement. -/
theorem after {f g : α → Proc ρ σ β} (h : ∀ a t, m s = (.done a,t) → SameUnless far (f a) (g a) t) :
    SameUnless far (m >>= f) (m >>= g) s := by
  unfold SameUnless
  rw [bind_apply,bind_apply]
  rcases hm : m s with ⟨o,t⟩
  cases o with
  | done a => exact h a t hm
  | returned r => exact .inl rfl
  | pending => exact .inl rfl
  | undefined => exact .inl rfl

theorem stays_bind {f : α → Proc ρ σ β} (hm : far (m s).2) (hf : ∀ a, Stays far (f a)) : far ((m >>= f) s).2 := by
  rw [bind_apply]
  generalize m s = x at hm ⊢
  rcases x with ⟨o,t⟩
  cases o with
  | done a => exact hf a t hm
  | returned r => exact hm
  | pending => exact hm
  | undefined => exact hm

theorem bind {f g : α → Proc ρ σ β} (h : SameUnless far m n s) (hfg : ∀ a t, SameUnless far (f a) (g a) t)
    (hf : ∀ a, Stays far (f a)) (hg : ∀ a, Stays far (g a)) : SameUnless far (m >>= f) (n >>= g) s := by
  obtain hsame | ⟨hm,hn⟩ := h
  · have hrest : SameUnless far (n >>= f) (n >>= g) s := .after fun a t _ => hfg a t
    unfold SameUnless at hrest ⊢
    rwa [bind_apply,hsame,← bind_apply]
  · exact .inr ⟨stays_bind hm hf,stays_bind hn hg⟩

theorem loop_stays {body : α → Proc ρ σ (α ⊕ β)} (h : ∀ a, Stays far (body a)) (k : ℕ) (a : α) :
    Stays far (Proc.loop body k a) := by
  induction k generalizing a with
  | zero => exact fun _ hs => hs
  | succ k ih =>
    refine fun s hs => stays_bind (h a s hs) fun c => ?_
    cases c with
    | inl a' => exact ih a'
    | inr b => exact fun _ hs => hs

theorem loop {body body' : α → Proc ρ σ (α ⊕ β)} (h : ∀ a s, SameUnless far (body a) (body' a) s)
    (hb : ∀ a, Stays far (body a)) (hb' : ∀ a, Stays far (body' a)) (k : ℕ) (a : α) (s : σ) :
    SameUnless far (Proc.loop body k a) (Proc.loop body' k a) s := by
  induction k generalizing a s with
  | zero => exact .inl rfl
  | succ k ih =>
    refine (h a s).bind (fun c t => ?_) (fun c => ?_) fun c => ?_
    · cases c with
      | inl a' => exact ih a' t
      | inr b => exact .inl rfl
    · cases c with
      | inl a' => exact loop_stays hb k a'
      | inr b => exact fun _ hs => hs
    · cases c with
      | inl a' => exact loop_stays hb' k a'
      | inr b => exact fun _ hs => hs

theorem destroying {d : σ → σ} (h : SameUnless far m n s) (hd : ∀ s, far s → far (d s)) :
    SameUnless far (Proc.destroying d m) (Proc.destroying d n) s := by
  have hends {m : Proc ρ σ α} (hm : far (m s).2) : far (Proc.destroying d m s).2 := by
    unfold Proc.destroying
    generalize m s = x at hm ⊢
    rcases x with ⟨o,t⟩
    cases o with
    | done a => exact hd _ hm
    | returned r => exact hd _ hm
    | pending => exact hm
    | undefined => exact hm
  obtain hsame | ⟨hm,hn⟩ := h
  · exact .inl (by rw [Proc.destroying,Proc.destroying,hsame])
  · exact .inr ⟨hends hm,hends hn⟩

theorem exec_eq {m n : Proc ρ σ ρ} (h : SameUnless far m n s) (hnot : ¬far (exec m s).2 ∨ ¬far (exec n s).2) :
    exec m s = exec n s := by
  have hstate (m : Proc ρ σ ρ) : (exec m s).2 = (m s).2 := by
    unfold exec
    rcases m s with ⟨o,t⟩
    cases o <;> rfl
  rw [hstate,hstate] at hnot
  obtain hsame | ⟨hm,hn⟩ := h
  · rw [exec,exec,hsame]
  · exact hnot.elim (absurd hm) (absurd hn)

end SameUnless

end Proc
end EspCompressor
