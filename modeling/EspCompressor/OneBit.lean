import Mathlib.Tactic

/-! Byte strings that differ in exactly one bit. -/
namespace EspCompressor

def flipBit (b : UInt8) (i : ℕ) : UInt8 := b ^^^ 1 <<< UInt8.ofNat i

/-- The second byte string is the first one with one bit flipped. -/
inductive OneBit : List UInt8 → List UInt8 → Prop
  | flip (pre : List UInt8) (b : UInt8) (post : List UInt8) {i : ℕ} (h : i < 8) :
      OneBit (pre ++ b :: post) (pre ++ flipBit b i :: post)

theorem flipBit_ne {i : ℕ} (h : i < 8) (b : UInt8) : flipBit b i ≠ b := by
  have hbit : ∀ i < 8, (1 : UInt8) <<< UInt8.ofNat i ≠ 0 := by decide
  intro he
  exact hbit i h ((UInt8.xor_right_inj b).mp (he.trans UInt8.xor_zero.symm))

theorem flipBit_and (b : UInt8) (i : ℕ) (m : UInt8) :
    flipBit b i &&& m = (b &&& m) ^^^ (1 <<< UInt8.ofNat i &&& m) := by
  rw [← UInt8.toNat_inj]
  simp only [flipBit,UInt8.toNat_and,UInt8.toNat_xor]
  exact Nat.and_xor_distrib_right

/-- A flip keeps the other bits. -/
theorem flipBit_and_of_disjoint {i : ℕ} {m : UInt8} (h : 1 <<< UInt8.ofNat i &&& m = 0) (b : UInt8) :
    flipBit b i &&& m = b &&& m := by
  rw [flipBit_and,h,UInt8.xor_zero]

/-- A flip changes its bit. -/
theorem flipBit_and_ne_zero_iff {i : ℕ} (h : i < 8) (b : UInt8) :
    flipBit b i &&& 1 <<< UInt8.ofNat i ≠ 0 ↔ ¬b &&& 1 <<< UInt8.ofNat i ≠ 0 := by
  have hbits : ∀ i < 8, ∀ n < 256, UInt8.ofNat n &&& 1 <<< UInt8.ofNat i = 0 ∨
      UInt8.ofNat n &&& 1 <<< UInt8.ofNat i = 1 <<< UInt8.ofNat i := by decide +kernel
  have hmask : ∀ i < 8, (1 : UInt8) <<< UInt8.ofNat i ≠ 0 := by decide
  rw [flipBit_and,UInt8.and_self]
  have hb := hbits i h b.toNat b.toNat_lt
  rw [UInt8.ofNat_toNat] at hb
  rcases hb with hzero | hone
  · simp [hzero,hmask i h]
  · simp [hone,hmask i h]

namespace OneBit

theorem length_eq {x y : List UInt8} (h : OneBit x y) : y.length = x.length := by
  cases h with
  | flip pre b post _ => simp

theorem ne {x y : List UInt8} (h : OneBit x y) : y ≠ x := by
  cases h with
  | flip pre b post hi =>
    intro he
    exact flipBit_ne hi b (List.cons.inj (List.append_cancel_left he)).1

theorem singleton {b : UInt8} {y : List UInt8} (h : OneBit [b] y) : ∃ i < 8, y = [flipBit b i] := by
  generalize hb : [b] = x at h
  cases h with
  | flip pre b' post hi =>
    obtain ⟨rfl,rfl,rfl⟩ : pre = [] ∧ b' = b ∧ post = [] := by
      cases pre with
      | nil => simpa [eq_comm] using hb
      | cons a pre => simp at hb
    exact ⟨_,hi,rfl⟩

/-- The flipped bit is in one of the two parts. -/
theorem append {x y z : List UInt8} (h : OneBit (x ++ y) z) :
    (∃ x', z = x' ++ y ∧ OneBit x x') ∨ ∃ y', z = x ++ y' ∧ OneBit y y' := by
  generalize hxy : x ++ y = w at h
  cases h with
  | flip pre b post hi =>
    rcases List.append_eq_append_iff.mp hxy with ⟨c,rfl,rfl⟩ | ⟨c,rfl,hc⟩
    · exact .inr ⟨_,List.append_assoc _ _ _,.flip c b post hi⟩
    · cases c with
      | nil =>
        obtain rfl : b :: post = y := hc
        refine .inr ⟨flipBit b _ :: post,?_,.flip [] b post hi⟩
        rw [List.append_nil]
      | cons b' c =>
        obtain ⟨rfl,rfl⟩ := List.cons.inj hc
        exact .inl ⟨_,by simp,.flip pre b c hi⟩

theorem modify {x : List UInt8} {n i : ℕ} (hn : n < x.length) (hi : i < 8) :
    OneBit x (x.modify n (flipBit · i)) := by
  have hsplit : x = x.take n ++ x[n] :: x.drop (n + 1) := by
    rw [← List.drop_eq_getElem_cons hn,List.take_append_drop]
  rw [List.modify_eq_take_cons_drop hn]
  conv_lhs => rw [hsplit]
  exact .flip (x.take n) x[n] (x.drop (n + 1)) hi

end OneBit

end EspCompressor
