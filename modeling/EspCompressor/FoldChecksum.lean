import Mathlib.Tactic

/-! Checksums computed by folding a step over a message. A step that loses
nothing, neither about the register nor about the letter, makes the fold tell
apart any two messages that differ in a single place. -/
namespace EspCompressor
namespace FoldChecksum

variable {S B : Type} {step : S → B → S}

/-- A fold of register-injective steps is injective in the initial register. -/
theorem foldl_injective (hs : ∀ b, Function.Injective (step · b)) (bs : List B) :
    Function.Injective fun s => bs.foldl step s := by
  induction bs with
  | nil => exact fun _ _ h => h
  | cons b bs ih => exact fun _ _ h => hs b (ih h)

/-- One changed letter, anywhere, changes the fold. -/
theorem foldl_detects_one (hs : ∀ b, Function.Injective (step · b))
    (hb : ∀ s, Function.Injective (step s)) (s : S) (pre post : List B) {b b' : B}
    (h : (pre ++ b :: post).foldl step s = (pre ++ b' :: post).foldl step s) : b = b' := by
  simp only [List.foldl_append,List.foldl_cons] at h
  exact hb _ (foldl_injective hs post h)

end FoldChecksum
end EspCompressor
