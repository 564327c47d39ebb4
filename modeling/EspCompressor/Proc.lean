import Mathlib.Tactic

/-! Procedures over an explicit state, with early return and bounded loops.
A procedure either falls through with a value, returns early, is still running
when its loop budget is spent, or performs an undefined memory access. `wp` is
the weakest precondition of such procedures: it bounds every ending and rules the
undefined one out. -/
namespace EspCompressor

/-- How the execution of a statement sequence ends. -/
inductive Outcome (ρ α : Type)
  | done (value : α)
  | returned (result : ρ)
  | pending
  | undefined
  deriving DecidableEq, Repr

/-- A statement sequence over the state `σ` whose early returns carry a `ρ`. -/
def Proc (ρ σ α : Type) := σ → Outcome ρ α × σ

namespace Proc

variable {ρ ρ' σ τ α β : Type}

def bind (m : Proc ρ σ α) (f : α → Proc ρ σ β) : Proc ρ σ β := fun s =>
  match m s with
  | (.done a, s') => f a s'
  | (.returned r, s') => (.returned r, s')
  | (.pending, s') => (.pending, s')
  | (.undefined, s') => (.undefined, s')

instance : Monad (Proc ρ σ) where
  pure a := fun s => (.done a, s)
  bind := bind

/-- The `return` statement. -/
def ret (r : ρ) : Proc ρ σ α := fun s => (.returned r, s)

/-- `if (c) return r;` -/
def returnIf (c : Prop) [Decidable c] (r : ρ) : Proc ρ σ Unit := if c then ret r else pure ()

/-- `if (c) { m }` -/
def onlyIf (c : Prop) [Decidable c] (m : Proc ρ σ Unit) : Proc ρ σ Unit := if c then m else pure ()

/-- An access outside its object. -/
def undef : Proc ρ σ α := fun s => (.undefined, s)

/-- A primitive that always falls through. -/
def lift (f : σ → α × σ) : Proc ρ σ α := fun s => (.done (f s).1, (f s).2)

/-- Read a part of the state. -/
def get (f : σ → α) : Proc ρ σ α := fun s => (.done (f s), s)

/-- Change the state. -/
def modify (f : σ → σ) : Proc ρ σ Unit := fun s => (.done (), f s)

/-- A function call: the callee's early returns end at the call. -/
def call (m : Proc ρ σ ρ) : Proc ρ' σ ρ := fun s =>
  match m s with
  | (.done a, s') => (.done a, s')
  | (.returned r, s') => (.done r, s')
  | (.pending, s') => (.pending, s')
  | (.undefined, s') => (.undefined, s')

/-- Call a function that works on a part of the state, and return that part too. -/
def callOn (view : σ → τ) (put : τ → σ → σ) (m : Proc ρ τ ρ) : Proc ρ' σ (ρ × τ) := fun s =>
  match m (view s) with
  | (.done a, t) => (.done (a, t), put t s)
  | (.returned r, t) => (.done (r, t), put t s)
  | (.pending, t) => (.pending, put t s)
  | (.undefined, t) => (.undefined, put t s)

/-- Pass a callee's early returns on, as the caller's own. -/
def mapReturn (f : ρ → ρ') (m : Proc ρ σ α) : Proc ρ' σ α := fun s =>
  match m s with
  | (.done a, s') => (.done a, s')
  | (.returned r, s') => (.returned (f r), s')
  | (.pending, s') => (.pending, s')
  | (.undefined, s') => (.undefined, s')

/-- Run a destructor on every way out of a block. -/
def destroying (destroy : σ → σ) (m : Proc ρ σ α) : Proc ρ σ α := fun s =>
  match m s with
  | (.done a, s') => (.done a, destroy s')
  | (.returned r, s') => (.returned r, destroy s')
  | (.pending, s') => (.pending, s')
  | (.undefined, s') => (.undefined, s')

/-- `while (true)`, for at most the given number of rounds: `inl` goes round again
with new loop variables, `inr` breaks. -/
def loop (body : α → Proc ρ σ (α ⊕ β)) : ℕ → α → Proc ρ σ β
  | 0, _ => fun s => (.pending, s)
  | n + 1, a => do
    match ← body a with
    | .inl a' => loop body n a'
    | .inr b => pure b

/-- Two checks with the same result. -/
theorem returnIf_or {c c' : Prop} [Decidable c] [Decidable c'] {r : ρ} {f : Unit → Proc ρ σ β} :
    (do returnIf c r; returnIf c' r >>= f) = returnIf (c ∨ c') r >>= f := by
  unfold returnIf
  by_cases hc : c
  · rw [if_pos hc,if_pos (Or.inl hc : c ∨ c')]
    rfl
  · by_cases hc' : c'
    · rw [if_neg hc,if_pos hc',if_pos (Or.inr hc' : c ∨ c')]
      rfl
    · rw [if_neg hc,if_neg hc',if_neg (not_or.mpr ⟨hc,hc'⟩)]
      rfl

/-- What follows a check may rely on it. -/
theorem returnIf_congr {c : Prop} [Decidable c] {r : ρ} {f g : Unit → Proc ρ σ β}
    (h : ¬c → f () = g ()) : returnIf c r >>= f = returnIf c r >>= g := by
  unfold returnIf
  by_cases hc : c
  · rw [if_pos hc]
    rfl
  · rw [if_neg hc]
    exact h hc

/-- What a whole function call gives: its result once it has returned. -/
def exec (m : Proc ρ σ ρ) (s : σ) : Option ρ × σ :=
  match m s with
  | (.done a, s') => (some a, s')
  | (.returned r, s') => (some r, s')
  | (.pending, s') => (none, s')
  | (.undefined, s') => (none, s')

/-- Started in `s`, the procedure falls through into `Q`, returns into `R` or is still
running in `S`; it does not reach an undefined access. -/
def wp (m : Proc ρ σ α) (Q : α → σ → Prop) (R : ρ → σ → Prop) (S : σ → Prop) (s : σ) : Prop :=
  match m s with
  | (.done a, s') => Q a s'
  | (.returned r, s') => R r s'
  | (.pending, s') => S s'
  | (.undefined, _) => False

/-- What holds of a procedure that falls through. -/
theorem wp_of_done {m : Proc ρ σ α} {Q : α → σ → Prop} {R : ρ → σ → Prop} {S : σ → Prop} {s t : σ} {a : α}
    (h : wp m Q R S s) (hm : m s = (.done a, t)) : Q a t := by
  unfold wp at h
  rwa [hm] at h

section Rules

variable {Q Q' : α → σ → Prop} {R R' : ρ → σ → Prop} {S S' : σ → Prop} {s : σ}

@[simp] theorem wp_pure (a : α) : wp (pure a : Proc ρ σ α) Q R S s ↔ Q a s := Iff.rfl
@[simp] theorem wp_ret (r : ρ) : wp (ret r : Proc ρ σ α) Q R S s ↔ R r s := Iff.rfl
@[simp] theorem wp_lift (f : σ → α × σ) : wp (lift f) Q R S s ↔ Q (f s).1 (f s).2 := Iff.rfl
@[simp] theorem wp_get (f : σ → α) : wp (get f) Q R S s ↔ Q (f s) s := Iff.rfl
@[simp] theorem wp_modify {Q : Unit → σ → Prop} (f : σ → σ) :
    wp (modify f) Q R S s ↔ Q () (f s) := Iff.rfl

@[simp] theorem wp_bind (m : Proc ρ σ α) (f : α → Proc ρ σ β) {Q : β → σ → Prop} :
    wp (m >>= f) Q R S s ↔ wp m (fun a s' => wp (f a) Q R S s') R S s := by
  change wp (bind m f) Q R S s ↔ _
  unfold wp bind
  rcases m s with ⟨o, s'⟩
  cases o <;> rfl

@[simp] theorem wp_returnIf (c : Prop) [Decidable c] (r : ρ) {Q : Unit → σ → Prop} :
    wp (returnIf c r) Q R S s ↔ (c → R r s) ∧ (¬c → Q () s) := by
  unfold returnIf
  by_cases h : c <;> simp [h]

@[simp] theorem wp_onlyIf (c : Prop) [Decidable c] (m : Proc ρ σ Unit) {Q : Unit → σ → Prop} :
    wp (onlyIf c m) Q R S s ↔ (c → wp m Q R S s) ∧ (¬c → Q () s) := by
  unfold onlyIf
  by_cases h : c <;> simp [h]

@[simp] theorem wp_ite (c : Prop) [Decidable c] (m n : Proc ρ σ α) :
    wp (if c then m else n) Q R S s ↔ (c → wp m Q R S s) ∧ (¬c → wp n Q R S s) := by
  by_cases h : c <;> simp [h]

/-- The callee's own early returns and fall-through meet in the caller. -/
@[simp] theorem wp_call (m : Proc ρ σ ρ) {Q : ρ → σ → Prop} {R : ρ' → σ → Prop} :
    wp (call m) Q R S s ↔ wp m Q Q S s := by
  unfold wp call
  rcases m s with ⟨o, s'⟩
  cases o <;> rfl

@[simp] theorem wp_callOn (view : σ → τ) (put : τ → σ → σ) (m : Proc ρ τ ρ)
    {Q : ρ × τ → σ → Prop} {R : ρ' → σ → Prop} :
    wp (callOn view put m) Q R S s ↔
      wp m (fun r t => Q (r, t) (put t s)) (fun r t => Q (r, t) (put t s)) (fun t => S (put t s))
        (view s) := by
  unfold wp callOn
  rcases m (view s) with ⟨o, t⟩
  cases o <;> rfl

@[simp] theorem wp_mapReturn (f : ρ → ρ') (m : Proc ρ σ α) {R : ρ' → σ → Prop} :
    wp (mapReturn f m) Q R S s ↔ wp m Q (fun r s' => R (f r) s') S s := by
  unfold wp mapReturn
  rcases m s with ⟨o, s'⟩
  cases o <;> rfl

@[simp] theorem wp_destroying (destroy : σ → σ) (m : Proc ρ σ α) :
    wp (destroying destroy m) Q R S s ↔
      wp m (fun a s' => Q a (destroy s')) (fun r s' => R r (destroy s')) S s := by
  unfold wp destroying
  rcases m s with ⟨o, s'⟩
  cases o <;> rfl

@[simp] theorem wp_loop_zero (body : α → Proc ρ σ (α ⊕ β)) (a : α) {Q : β → σ → Prop} :
    wp (loop body 0 a) Q R S s ↔ S s := Iff.rfl

theorem wp_loop_succ (body : α → Proc ρ σ (α ⊕ β)) (n : ℕ) (a : α) {Q : β → σ → Prop} :
    wp (loop body (n + 1) a) Q R S s ↔
      wp (body a) (fun c s' => c.elim (fun a' => wp (loop body n a') Q R S s') (Q · s')) R S s := by
  rw [loop, wp_bind]
  have h (c : α ⊕ β) (s' : σ) : wp (match c with
      | .inl a' => loop body n a'
      | .inr b => pure b) Q R S s' ↔ c.elim (fun a' => wp (loop body n a') Q R S s') (Q · s') := by
    cases c <;> rfl
  simp only [h]

theorem wp_mono {m : Proc ρ σ α} (h : wp m Q R S s) (hQ : ∀ a s', Q a s' → Q' a s')
    (hR : ∀ r s', R r s' → R' r s') (hS : ∀ s', S s' → S' s') : wp m Q' R' S' s := by
  unfold wp at h ⊢
  rcases hm : m s with ⟨o, s'⟩
  rw [hm] at h
  cases o with
  | done a => exact hQ a s' h
  | returned r => exact hR r s' h
  | pending => exact hS s' h
  | undefined => exact h

/-- An invariant that each round keeps holds whatever the budget. -/
theorem wp_loop {body : α → Proc ρ σ (α ⊕ β)} {I : α → σ → Prop} {J : β → σ → Prop}
    (hbody : ∀ a s, I a s → wp (body a) (fun c s' => c.elim (I · s') (J · s')) R S s)
    (hS : ∀ a s, I a s → S s) (n : ℕ) (a : α) (hI : I a s) : wp (loop body n a) J R S s := by
  induction n generalizing a s with
  | zero => exact hS a s hI
  | succ n ih =>
    rw [wp_loop_succ]
    refine wp_mono (hbody a s hI) ?_ (fun _ _ h => h) (fun _ h => h)
    intro c s' hc
    cases c with
    | inl a' => exact ih a' hc
    | inr b => exact hc

/-- A call that has returned meets its postcondition. -/
theorem exec_of_wp {m : Proc ρ σ ρ} {Q : ρ → σ → Prop} (h : wp m Q Q S s) {r : ρ} {s' : σ}
    (he : exec m s = (some r, s')) : Q r s' := by
  unfold wp at h
  unfold exec at he
  rcases hm : m s with ⟨o, t⟩
  rw [hm] at h he
  cases o <;> simp_all

/-- A call has returned into its postcondition, or is still running. -/
theorem exec_cases {m : Proc ρ σ ρ} {Q : ρ → σ → Prop} (h : wp m Q Q S s) :
    (∃ r, (exec m s).1 = some r ∧ Q r (exec m s).2) ∨ (exec m s).1 = none ∧ S (exec m s).2 := by
  unfold wp at h
  unfold exec
  rcases hm : m s with ⟨o, t⟩
  rw [hm] at h
  cases o with
  | done a => exact .inl ⟨a, rfl, h⟩
  | returned r => exact .inl ⟨r, rfl, h⟩
  | pending => exact .inr ⟨rfl, h⟩
  | undefined => exact h.elim

/-- A call that cannot be left running returns. -/
theorem exec_returns {m : Proc ρ σ ρ} {Q : ρ → σ → Prop} (h : wp m Q Q (fun _ => False) s) :
    ∃ r s', exec m s = (some r, s') ∧ Q r s' := by
  unfold wp at h
  unfold exec
  rcases hm : m s with ⟨o, t⟩
  rw [hm] at h
  cases o with
  | done a => exact ⟨a, t, rfl, h⟩
  | returned r => exact ⟨r, t, rfl, h⟩
  | pending => exact h.elim
  | undefined => exact h.elim

end Rules

end Proc
end EspCompressor
