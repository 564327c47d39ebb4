import Mathlib.Tactic

/-! Lempel–Ziv sequences over any alphabet: a run of literals, then a copy of
output that was produced a fixed distance earlier. The copy may overlap the
positions it writes. -/
namespace EspCompressor

/-- Literals followed by a copy of `length` letters from `offset` letters back. -/
structure LzSequence (α : Type) where
  literals : List α
  offset : ℕ
  length : ℕ

namespace LzSequence

variable {α : Type}

/-- Append, one after the other, `n` letters that each stand `offset` letters back. -/
def copyBack (out : List α) (offset : ℕ) : ℕ → List α
  | 0 => out
  | n + 1 =>
    let copied := copyBack out offset n
    copied ++ (copied[copied.length - offset]?).toList

theorem copyBack_length {out : List α} {offset : ℕ} (h₁ : 1 ≤ offset) (h₂ : offset ≤ out.length)
    (n : ℕ) : (copyBack out offset n).length = out.length + n := by
  induction n with
  | zero => rfl
  | succ n ih =>
    have hlt : (copyBack out offset n).length - offset < (copyBack out offset n).length := by omega
    rw [copyBack,List.getElem?_eq_getElem hlt,Option.toList_some,List.length_append,
      List.length_singleton,ih,Nat.add_assoc]

/-- A copy whose letters have been compared extends a prefix of the text. -/
theorem copyBack_take {text : List α} {pos offset : ℕ} (h₁ : 1 ≤ offset) (h₂ : offset ≤ pos)
    (n : ℕ) (hn : pos + n ≤ text.length)
    (heq : ∀ k < n, text[pos - offset + k]? = text[pos + k]?) :
    copyBack (text.take pos) offset n = text.take (pos + n) := by
  induction n with
  | zero => rfl
  | succ n ih =>
    have hn' : pos + n ≤ text.length := by omega
    have hcopied := ih hn' fun k hk => heq k (by omega)
    have hlen : (text.take (pos + n)).length = pos + n := by simp [hn']
    have hread : (text.take (pos + n))[pos + n - offset]? = text[pos + n]? := by
      rw [List.getElem?_take_of_lt (by omega),show pos + n - offset = pos - offset + n by omega]
      exact heq n (by omega)
    simp only [copyBack,hcopied,hlen,hread]
    rw [← Nat.add_assoc,List.take_add_one]

/-- What one sequence makes of the output so far. -/
def expand (out : List α) (s : LzSequence α) : List α :=
  copyBack (out ++ s.literals) s.offset s.length

/-- The copy reaches back no further than `window` and than the output itself, and is
at least `minMatch` letters long. -/
structure Valid (minMatch window : ℕ) (out : List α) (s : LzSequence α) : Prop where
  offset_pos : 1 ≤ s.offset
  offset_le_window : s.offset ≤ window
  offset_le_length : s.offset ≤ (out ++ s.literals).length
  minMatch_le : minMatch ≤ s.length

theorem Valid.expand_length {minMatch window : ℕ} {out : List α} {s : LzSequence α}
    (h : s.Valid minMatch window out) :
    (expand out s).length = out.length + s.literals.length + s.length := by
  rw [expand,copyBack_length h.offset_pos h.offset_le_length,List.length_append]

/-- Every sequence is valid for the output that precedes it. -/
def ValidFrom (minMatch window : ℕ) : List α → List (LzSequence α) → Prop
  | _, [] => True
  | out, s :: ss => s.Valid minMatch window out ∧ ValidFrom minMatch window (expand out s) ss

end LzSequence
end EspCompressor
