import EspCompressor.LzFraming

/-! The grammar of LZ-lite payloads, as sequences of bytes and what they expand to. -/
namespace EspCompressor
namespace LzLite

open Codec LzSequence

/-- The bytes that follow a token for a length whose four bits in it are `bits`; `base` is the least
length. -/
inductive LengthBytes (base : ℕ) : ℕ → List UInt8 → ℕ → Prop
  | short {bits : ℕ} : bits ≠ 15 → LengthBytes base bits [] (bits + base)
  | extended (k : ℕ) {last : UInt8} : last ≠ 255 →
      LengthBytes base 15 (List.replicate k 255 ++ [last]) (15 + base + 255 * k + last.toNat)

/-- A token, a literal length, the literals, a little-endian offset and a match length. -/
inductive SequenceBytes : LzSequence UInt8 → List UInt8 → Prop
  | mk {s : LzSequence UInt8} (token low high : UInt8) {literalBytes matchBytes : List UInt8} :
      LengthBytes 0 (token >>> 4 &&& 0x0F).toNat literalBytes s.literals.length →
      s.offset = low.toNat + 256 * high.toNat →
      LengthBytes kMinMatch (token &&& 0x0F).toNat matchBytes s.length →
      SequenceBytes s (token :: (literalBytes ++ (s.literals ++ (low :: high :: matchBytes))))

/-- How a payload ends: after a match, or after literals whose token has any lower half. -/
inductive EndBytes : List UInt8 → List UInt8 → Prop
  | afterMatch : EndBytes [] []
  | afterLiterals (token : UInt8) {literalBytes literals : List UInt8} :
      LengthBytes 0 (token >>> 4 &&& 0x0F).toNat literalBytes literals.length →
      EndBytes literals (token :: (literalBytes ++ literals))

/-- A payload is a list of sequences and an end. -/
inductive Parses : List (LzSequence UInt8) → List UInt8 → List UInt8 → Prop
  | done {literals bytes : List UInt8} : EndBytes literals bytes → Parses [] literals bytes
  | sequence {s : LzSequence UInt8} {ss : List (LzSequence UInt8)} {literals bytes rest : List UInt8} :
      SequenceBytes s bytes → Parses ss literals rest → Parses (s :: ss) literals (bytes ++ rest)

/-- The payload stands for the `n` bytes `o`: each match lies within what is expanded before it. -/
structure Denotes (payload : List UInt8) (n : ℕ) (o : List UInt8) : Prop where
  length_eq : o.length = n
  parses : ∃ ss literals, Parses ss literals payload ∧ ValidFrom kMinMatch 0xFFFF [] ss ∧
    o = ss.foldl expand [] ++ literals

/-! ### Fields -/

theorem takeLength_iff {bs rest : List UInt8} {acc value : ℕ} : takeLength bs acc = some (value,rest) ↔
    ∃ k last, last ≠ 255 ∧ bs = List.replicate k 255 ++ last :: rest ∧
      value = acc + 255 * k + last.toNat := by
  constructor
  · intro h
    induction bs generalizing acc with
    | nil => simp [takeLength] at h
    | cons b bs ih =>
      rw [takeLength] at h
      by_cases hb : b = 255
      · rw [if_pos hb] at h
        obtain ⟨k,last,hlast,rfl,hvalue⟩ := ih h
        refine ⟨k + 1,last,hlast,?_,by omega⟩
        rw [hb,List.replicate_succ,List.cons_append]
      · rw [if_neg hb] at h
        obtain ⟨rfl,rfl⟩ := Prod.mk.inj (Option.some.inj h)
        exact ⟨0,b,hb,rfl,rfl⟩
  · rintro ⟨k,last,hlast,rfl,rfl⟩
    induction k generalizing acc with
    | zero =>
      rw [List.replicate_zero,List.nil_append,takeLength,if_neg hlast]
      rfl
    | succ k ih =>
      rw [List.replicate_succ,List.cons_append,takeLength,if_pos rfl,ih]
      congr 2
      omega

/-- Reading a length takes exactly its bytes off. -/
theorem lengthField_iff {bits base value : ℕ} {bs rest : List UInt8} :
    lengthField bits base bs = some (value,rest) ↔
      ∃ bytes, bs = bytes ++ rest ∧ LengthBytes base bits bytes value := by
  by_cases hbits : bits = 15
  · subst hbits
    rw [lengthField,if_pos rfl,takeLength_iff]
    constructor
    · rintro ⟨k,last,hlast,rfl,rfl⟩
      exact ⟨_,by simp,.extended k hlast⟩
    · rintro ⟨bytes,rfl,h⟩
      cases h with
      | short hne => exact absurd rfl hne
      | extended k hlast => exact ⟨k,_,hlast,by simp,rfl⟩
  · rw [lengthField,if_neg hbits]
    constructor
    · intro h
      obtain ⟨rfl,rfl⟩ := Prod.mk.inj (Option.some.inj h)
      exact ⟨[],rfl,.short hbits⟩
    · rintro ⟨bytes,rfl,h⟩
      cases h with
      | short => rfl
      | extended => exact absurd rfl hbits

theorem takeOffset_iff {bs rest : List UInt8} {offset : ℕ} : takeOffset bs = some (offset,rest) ↔
    ∃ low high : UInt8, bs = low :: high :: rest ∧ offset = low.toNat + 256 * high.toNat := by
  have hvalue (low high : UInt8) : low.toNat ||| high.toNat <<< 8 = low.toNat + 256 * high.toNat := by
    rw [LittleEndian.or_shiftLeft_eq _ 8 _ (UInt8.toNat_lt _)]
    omega
  constructor
  · intro h
    match bs with
    | [] => simp [takeOffset] at h
    | [_] => simp [takeOffset] at h
    | low :: high :: tail =>
      obtain ⟨rfl,rfl⟩ := Prod.mk.inj (Option.some.inj h)
      exact ⟨low,high,rfl,hvalue low high⟩
  · rintro ⟨low,high,rfl,rfl⟩
    rw [takeOffset,hvalue]

theorem LengthBytes.base_le {base bits value : ℕ} {bytes : List UInt8}
    (h : LengthBytes base bits bytes value) : base ≤ value := by
  cases h <;> omega

/-! ### Payloads -/

/-- One round of the parser takes one sequence off. -/
theorem step_more_sequence {n : ℕ} {token : UInt8} {rest out rest' out' : List UInt8} :
    step n token rest out = .more rest' out' ↔ ∃ s bytes, token :: rest = bytes ++ rest' ∧
      SequenceBytes s bytes ∧ s.Valid kMinMatch 0xFFFF out ∧ out' = expand out s ∧ out'.length ≤ n := by
  constructor
  · intro h
    obtain ⟨literalLength,tail,offset,tail',matchLength,hliterals,hle,-,hoffset,hpos,hback,hmatch,hroom,rfl⟩ :=
      step_more_iff.mp h
    obtain ⟨literalBytes,rfl,hliteral⟩ := lengthField_iff.mp hliterals
    obtain ⟨low,high,htail,rfl⟩ := takeOffset_iff.mp hoffset
    obtain ⟨matchBytes,rfl,hlength⟩ := lengthField_iff.mp hmatch
    have hlen : (tail.take literalLength).length = literalLength := by
      rw [List.length_take]
      omega
    let s : LzSequence UInt8 := ⟨tail.take literalLength,low.toNat + 256 * high.toNat,matchLength⟩
    have hvalid : s.Valid kMinMatch 0xFFFF out := by
      have hlow := low.toNat_lt
      have hhigh := high.toNat_lt
      refine ⟨hpos,?_,?_,hlength.base_le⟩
      · change low.toNat + 256 * high.toNat ≤ _
        omega
      · rw [List.length_append,hlen]
        exact hback
    refine ⟨s,_,?_,.mk token low high (by rwa [hlen]) rfl hlength,hvalid,rfl,?_⟩
    · have htail' : tail = s.literals ++ (low :: high :: (matchBytes ++ rest')) := by
        rw [← htail,List.take_append_drop]
      rw [htail']
      simp
    · have hexpand := hvalid.expand_length
      rw [hlen] at hexpand
      exact hexpand.trans_le hroom
  · rintro ⟨s,bytes,hbytes,hs,hvalid,rfl,hroom⟩
    rw [hvalid.expand_length] at hroom
    cases hs with
    | @mk token' low high literalBytes matchBytes hliterals hoffset hmatch =>
      obtain ⟨rfl,rfl⟩ := List.cons.inj hbytes
      have hpos := hvalid.offset_pos
      have hback := hvalid.offset_le_length
      have hmin : 0 < s.length := lt_of_lt_of_le (by decide) hvalid.minMatch_le
      rw [List.length_append] at hback
      refine step_more_iff.mpr ⟨s.literals.length,_,s.offset,_,s.length,
        lengthField_iff.mpr ⟨literalBytes,List.append_assoc _ _ _,hliterals⟩,?_,by omega,
        takeOffset_iff.mpr ⟨low,high,?_,hoffset⟩,hpos,hback,
        lengthField_iff.mpr ⟨matchBytes,rfl,hmatch⟩,hroom,?_⟩
      · simp
      · rw [List.append_assoc,List.drop_left]
        rfl
      · rw [List.append_assoc,List.take_left]
        rfl

theorem step_finished_end {n : ℕ} {token : UInt8} {rest out out' : List UInt8} :
    step n token rest out = .finished out' ↔ ∃ literals, EndBytes literals (token :: rest) ∧
      out' = out ++ literals ∧ out'.length = n := by
  rw [step_finished_iff]
  constructor
  · rintro ⟨tail,hliterals,hend,rfl⟩
    obtain ⟨literalBytes,rfl,hliteral⟩ := lengthField_iff.mp hliterals
    exact ⟨tail,.afterLiterals token hliteral,rfl,by rw [List.length_append,hend]⟩
  · rintro ⟨literals,hbytes,rfl,hend⟩
    rw [List.length_append] at hend
    generalize hpayload : token :: rest = payload at hbytes
    cases hbytes with
    | afterMatch => simp at hpayload
    | afterLiterals token' hliterals =>
      obtain ⟨rfl,rfl⟩ := List.cons.inj hpayload
      exact ⟨literals,lengthField_iff.mpr ⟨_,rfl,hliterals⟩,hend,rfl⟩

theorem SequenceBytes.ne_nil {s : LzSequence UInt8} {bytes : List UInt8} (h : SequenceBytes s bytes) :
    bytes ≠ [] := by
  cases h
  simp

/-- What the parser accepts is in the grammar. -/
theorem parses_of_parse {n : ℕ} {rest out o : List UInt8} (h : parse n rest out = some o) :
    ∃ ss literals, Parses ss literals rest ∧ ValidFrom kMinMatch 0xFFFF out ss ∧
      o = ss.foldl expand out ++ literals := by
  induction rest,out using parse.induct n with
  | case1 out hn =>
    rw [parse,if_pos hn] at h
    obtain rfl := Option.some.inj h
    exact ⟨[],[],.done .afterMatch,trivial,(List.append_nil _).symm⟩
  | case2 out hn => rw [parse,if_neg hn] at h; simp at h
  | case3 out token tail hstep => rw [parse_cons,hstep] at h; simp at h
  | case4 out token tail out' hstep =>
    rw [parse_cons,hstep] at h
    obtain rfl := Option.some.inj h
    obtain ⟨literals,hend,rfl,-⟩ := step_finished_end.mp hstep
    exact ⟨[],literals,.done hend,trivial,rfl⟩
  | case5 out token tail rest' out' hstep ih =>
    rw [parse_cons,hstep] at h
    obtain ⟨s,bytes,hbytes,hs,hvalid,rfl,-⟩ := step_more_sequence.mp hstep
    obtain ⟨ss,literals,hparses,hvalids,rfl⟩ := ih h
    rw [hbytes]
    exact ⟨s :: ss,literals,.sequence hs hparses,⟨hvalid,hvalids⟩,rfl⟩

/-- The parser accepts the grammar. -/
theorem parse_of_parses {n : ℕ} {ss : List (LzSequence UInt8)} {literals rest out : List UInt8}
    (h : Parses ss literals rest) (hv : ValidFrom kMinMatch 0xFFFF out ss)
    (hn : (ss.foldl expand out ++ literals).length = n) :
    parse n rest out = some (ss.foldl expand out ++ literals) := by
  induction h generalizing out with
  | @done literals bytes hend =>
    cases bytes with
    | nil =>
      cases hend
      rw [List.foldl_nil,List.append_nil] at hn ⊢
      rw [parse,if_pos hn]
    | cons token tail =>
      have hstep : step n token tail out = .finished (out ++ literals) :=
        step_finished_end.mpr ⟨literals,hend,rfl,hn⟩
      rw [parse_cons,hstep]
      rfl
  | @sequence s ss literals bytes rest hs _ ih =>
    have hle := length_le_foldl_expand hv.2
    rw [List.length_append,List.foldl_cons] at hn
    obtain ⟨token,tail,hbytes⟩ := List.exists_cons_of_ne_nil
      (List.append_ne_nil_of_left_ne_nil hs.ne_nil rest)
    have hstep : step n token tail out = .more rest (expand out s) :=
      step_more_sequence.mpr ⟨s,bytes,hbytes.symm,hs,hv.1,rfl,by omega⟩
    rw [hbytes,parse_cons,hstep]
    exact ih hv.2 (by rw [List.length_append]; exact hn)

/-- The parser accepts exactly the grammar. -/
theorem decodeBlock_iff {payload o : List UInt8} {n : ℕ} :
    decodeBlock payload n = some o ↔ Denotes payload n o := by
  constructor
  · intro h
    obtain ⟨ss,literals,hparses,hvalid,ho⟩ := parses_of_parse h
    exact ⟨decodeBlock_length h,ss,literals,hparses,hvalid,ho⟩
  · rintro ⟨hlen,ss,literals,hparses,hvalid,rfl⟩
    exact parse_of_parses hparses hvalid hlen

end LzLite
end EspCompressor
