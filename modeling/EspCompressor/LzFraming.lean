import EspCompressor.LzLite

/-! What a payload settles by itself: it gives one number of bytes only, a longer one is corrupt,
and a shorter one can miss no more than the token of empty literals at its end. -/
namespace EspCompressor
namespace LzLite

open Codec LzSequence

/-! ### What one sequence does -/

/-- A sequence with a match, which leaves `rest'` and has made `out'`. -/
theorem step_more_iff {n : ℕ} {token : UInt8} {rest out rest' out' : List UInt8} :
    step n token rest out = .more rest' out' ↔ ∃ literalLength tail offset tail' matchLength,
      lengthField (token >>> 4 &&& 0x0F).toNat 0 rest = some (literalLength,tail) ∧
      literalLength ≤ tail.length ∧ out.length + literalLength < n ∧
      takeOffset (tail.drop literalLength) = some (offset,tail') ∧
      1 ≤ offset ∧ offset ≤ out.length + literalLength ∧
      lengthField (token &&& 0x0F).toNat kMinMatch tail' = some (matchLength,rest') ∧
      out.length + literalLength + matchLength ≤ n ∧
      out' = copyBack (out ++ tail.take literalLength) offset matchLength := by
  constructor
  · intro h
    unfold step at h
    split at h
    · simp at h
    · rename_i literalLength tail hliterals
      split_ifs at h with hfit
      have hlen : (out ++ tail.take literalLength).length = out.length + literalLength := by
        rw [List.length_append,List.length_take]
        omega
      unfold matchStep at h
      rw [hlen] at h
      split_ifs at h with hend
      split at h
      · simp at h
      · rename_i offset tail' hoffset
        split_ifs at h with hrange
        split at h
        · simp at h
        · rename_i matchLength rest₁ hmatch
          split_ifs at h with hroom
          simp only [Step.more.injEq] at h
          obtain ⟨rfl,rfl⟩ := h
          exact ⟨literalLength,tail,offset,tail',matchLength,hliterals,by omega,by omega,hoffset,
            by omega,by omega,hmatch,by omega,rfl⟩
  · rintro ⟨literalLength,tail,offset,tail',matchLength,hliterals,hfit,hopen,hoffset,hpos,hle,hmatch,
      hroom,rfl⟩
    have hlen : (out ++ tail.take literalLength).length = out.length + literalLength := by
      rw [List.length_append,List.length_take]
      omega
    simp only [step,hliterals]
    rw [if_neg (by omega),matchStep,hlen,if_neg (by omega),hoffset]
    dsimp only
    rw [if_neg (by omega),hmatch]
    dsimp only
    rw [if_neg (by omega)]

/-- The literals at the end. -/
theorem step_finished_iff {n : ℕ} {token : UInt8} {rest out out' : List UInt8} :
    step n token rest out = .finished out' ↔ ∃ tail,
      lengthField (token >>> 4 &&& 0x0F).toNat 0 rest = some (tail.length,tail) ∧
      out.length + tail.length = n ∧ out' = out ++ tail := by
  constructor
  · intro h
    unfold step at h
    split at h
    · simp at h
    · rename_i literalLength tail hliterals
      split_ifs at h with hfit
      have hlen : (out ++ tail.take literalLength).length = out.length + literalLength := by
        rw [List.length_append,List.length_take]
        omega
      unfold matchStep at h
      rw [hlen,List.length_drop] at h
      split_ifs at h with hend hempty
      · obtain rfl : literalLength = tail.length := by omega
        simp only [Step.finished.injEq,List.take_length] at h
        exact ⟨tail,hliterals,hend,h.symm⟩
      · split at h
        · simp at h
        · split_ifs at h
          split at h
          · simp at h
          · split_ifs at h
  · rintro ⟨tail,hliterals,hend,rfl⟩
    simp only [step,hliterals]
    rw [if_neg (by omega),List.take_length,List.drop_length,matchStep,List.length_append,if_pos hend]
    rfl

/-! ### One size -/

/-- A payload of `n` bytes is corrupt as one of more bytes. -/
theorem parse_larger {n n' : ℕ} (hlt : n < n') {rest out o : List UInt8}
    (h : parse n rest out = some o) : parse n' rest out = none := by
  induction rest,out using parse.induct n with
  | case1 out hn => rw [parse,if_neg (by omega)]
  | case2 out hn => rw [parse,if_neg hn] at h; simp at h
  | case3 out token tail hstep => rw [parse_cons,hstep] at h; simp at h
  | case4 out token tail out' hstep =>
    obtain ⟨tail',hliterals,hend,-⟩ := step_finished_iff.mp hstep
    have hcorrupt : step n' token tail out = .corrupt := by
      simp only [step,hliterals]
      rw [if_neg (by omega),List.take_length,List.drop_length,matchStep,List.length_append,
        if_neg (by omega)]
      rfl
    rw [parse_cons,hcorrupt]
  | case5 out token tail rest' out' hstep ih =>
    obtain ⟨literalLength,tail',offset,tail₁,matchLength,h₁,h₂,h₃,h₄,h₅,h₆,h₇,h₈,h₉⟩ :=
      step_more_iff.mp hstep
    have hmore : step n' token tail out = .more rest' out' := step_more_iff.mpr
      ⟨literalLength,tail',offset,tail₁,matchLength,h₁,h₂,by omega,h₄,h₅,h₆,h₇,by omega,h₉⟩
    rw [parse_cons,hstep] at h
    rw [parse_cons,hmore]
    exact ih h

/-- A payload is accepted for one size only. -/
theorem decodeBlock_size_unique {payload o o' : List UInt8} {n n' : ℕ}
    (h : decodeBlock payload n = some o) (h' : decodeBlock payload n' = some o') : n = n' := by
  rcases Nat.lt_trichotomy n n' with hlt | rfl | hlt
  · rw [decodeBlock,parse_larger hlt h] at h'
    simp at h'
  · rfl
  · rw [decodeBlock,parse_larger hlt h'] at h
    simp at h

/-! ### One end -/

theorem takeLength_append {bs rest : List UInt8} {acc value : ℕ} (e : List UInt8)
    (h : takeLength bs acc = some (value,rest)) : takeLength (bs ++ e) acc = some (value,rest ++ e) := by
  induction bs generalizing acc with
  | nil => simp [takeLength] at h
  | cons b bs ih =>
    rw [List.cons_append,takeLength]
    rw [takeLength] at h
    by_cases hb : b = 255
    · rw [if_pos hb] at h ⊢
      exact ih h
    · rw [if_neg hb] at h ⊢
      obtain ⟨rfl,rfl⟩ := Prod.mk.inj (Option.some.inj h)
      rfl

theorem lengthField_append {bits base value : ℕ} {bs rest : List UInt8} (e : List UInt8)
    (h : lengthField bits base bs = some (value,rest)) :
    lengthField bits base (bs ++ e) = some (value,rest ++ e) := by
  unfold lengthField at h ⊢
  split_ifs at h ⊢
  · exact takeLength_append e h
  · obtain ⟨rfl,rfl⟩ := Prod.mk.inj (Option.some.inj h)
    rfl

theorem takeOffset_append {bs rest : List UInt8} {offset : ℕ} (e : List UInt8)
    (h : takeOffset bs = some (offset,rest)) : takeOffset (bs ++ e) = some (offset,rest ++ e) := by
  match bs with
  | [] => simp [takeOffset] at h
  | [_] => simp [takeOffset] at h
  | low :: high :: tail =>
    obtain ⟨rfl,rfl⟩ := Prod.mk.inj (Option.some.inj h)
    rfl

theorem step_more_append {n : ℕ} {token : UInt8} {rest out rest' out' : List UInt8} (e : List UInt8)
    (h : step n token rest out = .more rest' out') :
    step n token (rest ++ e) out = .more (rest' ++ e) out' := by
  obtain ⟨literalLength,tail,offset,tail',matchLength,h₁,h₂,h₃,h₄,h₅,h₆,h₇,h₈,rfl⟩ :=
    step_more_iff.mp h
  refine step_more_iff.mpr ⟨literalLength,tail ++ e,offset,tail' ++ e,matchLength,
    lengthField_append e h₁,?_,h₃,?_,h₅,h₆,lengthField_append e h₇,h₈,?_⟩
  · rw [List.length_append]
    omega
  · rw [List.drop_append_of_le_length h₂]
    exact takeOffset_append e h₄
  · rw [List.take_append_of_le_length h₂]

/-- After the literals at the end nothing may follow. -/
theorem step_finished_append {n : ℕ} {token : UInt8} {rest out out' e : List UInt8} (he : e ≠ [])
    (h : step n token rest out = .finished out') : step n token (rest ++ e) out = .corrupt := by
  obtain ⟨tail,hliterals,hend,-⟩ := step_finished_iff.mp h
  have hpos := List.length_pos_iff.mpr he
  simp only [step,lengthField_append e hliterals]
  rw [if_neg (by rw [List.length_append]; omega),List.take_left,List.drop_left,matchStep,
    List.length_append,if_pos hend,if_neg (by omega)]

/-- A payload that goes on where another one ended is corrupt, or is read on from there. -/
theorem parse_append {n : ℕ} {rest out o e : List UInt8} (he : e ≠ [])
    (h : parse n rest out = some o) :
    parse n (rest ++ e) out = none ∨ parse n (rest ++ e) out = parse n e o := by
  induction rest,out using parse.induct n with
  | case1 out hn =>
    rw [parse,if_pos hn] at h
    obtain rfl := Option.some.inj h
    exact .inr rfl
  | case2 out hn => rw [parse,if_neg hn] at h; simp at h
  | case3 out token tail hstep => rw [parse_cons,hstep] at h; simp at h
  | case4 out token tail out' hstep =>
    rw [List.cons_append,parse_cons,step_finished_append he hstep]
    exact .inl rfl
  | case5 out token tail rest' out' hstep ih =>
    rw [parse_cons,hstep] at h
    rw [List.cons_append,parse_cons,step_more_append e hstep]
    exact ih h

theorem takeLength_ge {bs rest : List UInt8} {acc value : ℕ} (h : takeLength bs acc = some (value,rest)) :
    acc ≤ value := by
  induction bs generalizing acc with
  | nil => simp [takeLength] at h
  | cons b bs ih =>
    rw [takeLength] at h
    split_ifs at h
    · exact (Nat.le_add_right _ _).trans (ih h)
    · obtain ⟨rfl,-⟩ := Prod.mk.inj (Option.some.inj h)
      exact Nat.le_add_right _ _

/-- The high bits of a token are its literal length. -/
theorem emptyLiterals_of_high {t : UInt8} (h : (t >>> 4 &&& 0x0F).toNat = 0) : t >>> 4 = 0 := by
  have hlt : (t >>> 4).toNat < 16 := by
    have ht := t.toNat_lt
    rw [UInt8.toNat_shiftRight,Nat.shiftRight_eq_div_pow]
    simp
    omega
  rw [UInt8.toNat_and,show (0x0F : UInt8).toNat = 2 ^ 4 - 1 from rfl,Nat.and_two_pow_sub_one_eq_mod,
    Nat.mod_eq_of_lt hlt] at h
  exact UInt8.toNat_inj.mp h

/-- When all bytes are there, only the token of empty literals may follow. -/
theorem parse_complete {n : ℕ} {o o' : List UInt8} {t : UInt8} {e : List UInt8} (hn : o.length = n)
    (h : parse n (t :: e) o = some o') : t >>> 4 = 0 ∧ e = [] ∧ o' = o := by
  rw [parse_cons] at h
  cases hstep : step n t e o with
  | corrupt => rw [hstep] at h; simp at h
  | finished out' =>
    rw [hstep] at h
    obtain rfl := Option.some.inj h
    obtain ⟨tail,hliterals,hend,rfl⟩ := step_finished_iff.mp hstep
    obtain rfl : tail = [] := List.length_eq_zero_iff.mp (by omega)
    unfold lengthField at hliterals
    split_ifs at hliterals
    · exact absurd (takeLength_ge hliterals) (by simp)
    · obtain ⟨hzero,rfl⟩ := Prod.mk.inj (Option.some.inj hliterals)
      exact ⟨emptyLiterals_of_high hzero,rfl,List.append_nil _⟩
  | more rest' out' =>
    obtain ⟨literalLength,tail,offset,tail',matchLength,-,-,hopen,-⟩ := step_more_iff.mp hstep
    omega

/-- Of two payloads for one size, the longer one has a token of empty literals more, and gives the
same. -/
theorem decodeBlock_append {payload e o o' : List UInt8} {n : ℕ} (he : e ≠ [])
    (h : decodeBlock payload n = some o) (h' : decodeBlock (payload ++ e) n = some o') :
    (∃ t : UInt8, t >>> 4 = 0 ∧ e = [t]) ∧ o' = o := by
  unfold decodeBlock at h h'
  rcases parse_append he h with hnone | hmore
  · rw [hnone] at h'
    simp at h'
  · rw [hmore] at h'
    cases e with
    | nil => exact absurd rfl he
    | cons t e =>
      obtain ⟨hempty,rfl,hsame⟩ := parse_complete (parse_length h) h'
      exact ⟨⟨t,hempty,rfl⟩,hsame⟩

theorem parse_lastBytes_append {n : ℕ} {literals out e : List UInt8}
    (hn : out.length + literals.length = n) (he : e ≠ []) :
    parse n (lastBytes literals ++ e) out = none := by
  have hliterals : lengthField (sequenceToken literals.length 0 false >>> 4 &&& 0x0F).toNat 0
      (extendedBytes literals.length ++ literals) = some (literals.length,literals) := by
    rw [sequenceToken_high,lengthField_extendedBytes,Nat.add_zero]
  have hfinished := step_finished_iff.mpr ⟨literals,hliterals,hn,rfl⟩
  rw [lastBytes,List.cons_append,parse_cons,step_finished_append he hfinished]

/-- Nothing may follow what the encoder writes. -/
theorem decodeBlock_encodeBlock_append {input e : List UInt8} (windowSize : ℕ) (hinput : input ≠ [])
    (he : e ≠ []) : decodeBlock (encodeBlock input windowSize ++ e) input.length = none := by
  obtain ⟨ss,literals,hencode,hv,hexpand⟩ := encodeBlock_eq windowSize hinput
  have hlen := congrArg List.length hexpand
  rw [List.length_append] at hlen
  rw [hencode,decodeBlock,List.append_assoc,parse_matches _ hv (by omega),parse_lastBytes_append hlen he]

end LzLite
end EspCompressor
