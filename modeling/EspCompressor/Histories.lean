import Mathlib.Tactic

/-! Histories: lists of which each entry is judged by the entries before it. -/
namespace EspCompressor
namespace Histories

variable {α : Type}

/-- Each entry is as `P` says, given the entries before it. -/
def Each (P : List α → α → Prop) (history : List α) : Prop :=
  ∀ before e after, history = before ++ e :: after → P before e

variable {P : List α → α → Prop}

theorem each_nil : Each P [] := by
  intro before e after h
  simp at h

theorem each_append {xs ys : List α} :
    Each P (xs ++ ys) ↔ Each P xs ∧ Each (fun before => P (xs ++ before)) ys := by
  constructor
  · intro h
    refine ⟨fun before e after hxs => ?_,fun before e after hys => ?_⟩
    · exact h before e (after ++ ys) (by rw [hxs,List.append_assoc,List.cons_append])
    · exact h (xs ++ before) e after (by rw [hys,List.append_assoc])
  · rintro ⟨hxs,hys⟩ before e after heq
    rcases List.append_eq_append_iff.mp heq with ⟨c,rfl,hc⟩ | ⟨c,rfl,hc⟩
    · exact hys c e after hc
    · cases c with
      | nil =>
        have hfirst := hys [] e after hc.symm
        rw [List.append_nil,List.append_nil] at hfirst
        exact hfirst
      | cons x c =>
        obtain ⟨rfl,-⟩ := List.cons.inj hc
        exact hxs before e c rfl

theorem each_cons {x : α} {xs : List α} :
    Each P (x :: xs) ↔ P [] x ∧ Each (fun before => P (x :: before)) xs := by
  have hsingle : Each P [x] ↔ P [] x := by
    constructor
    · exact fun h => h [] x [] rfl
    · intro h before e after heq
      cases before with
      | nil =>
        obtain ⟨rfl,-⟩ := List.cons.inj heq
        exact h
      | cons b before => simp at heq
  rw [← List.singleton_append,each_append,hsingle]
  rfl

theorem each_concat {x : α} {xs : List α} : Each P (xs ++ [x]) ↔ Each P xs ∧ P xs x := by
  rw [each_append,each_cons,List.append_nil]
  exact and_congr_right fun _ => and_iff_left each_nil

/-- Entries that are fine after any part of what precedes them. -/
theorem each_of_forall {xs : List α} (h : ∀ before, before ⊆ xs → ∀ e ∈ xs, P before e) : Each P xs := by
  intro before e after heq
  exact h before (fun b hb => by rw [heq]; exact List.mem_append_left _ hb) e (by rw [heq]; simp)

end Histories
end EspCompressor
