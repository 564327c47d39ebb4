import EspCompressor.Codec
import EspCompressor.LittleEndian

/-! The LZ-lite block format on byte lists: the bytes of a sequence, the parse of a
block, and the block that the encoder's plan makes of an input. -/
namespace EspCompressor
namespace LzLite

open Codec LzSequence

/-! ### Lengths -/

/-- A length as a run of 255s and a smaller last byte. -/
def lengthBytes (value : ℕ) : List UInt8 :=
  List.replicate (value / 255) 255 ++ [UInt8.ofNat (value % 255)]

/-- The bytes that follow when a length does not fit its four bits of the token. -/
def extendedBytes (value : ℕ) : List UInt8 := if 15 ≤ value then lengthBytes (value - 15) else []

/-- Read a run of 255s and its last byte. -/
def takeLength : List UInt8 → ℕ → Option (ℕ × List UInt8)
  | [], _ => none
  | b :: bs, value => if b = 255 then takeLength bs (value + 255) else some (value + b.toNat,bs)

/-- Read a length whose four bits in the token are given; `base` is its least value. -/
def lengthField (bits base : ℕ) (rest : List UInt8) : Option (ℕ × List UInt8) :=
  if bits = 15 then takeLength rest (15 + base) else some (bits + base,rest)

theorem lengthBytes_of_ge {value : ℕ} (h : 255 ≤ value) :
    lengthBytes value = 255 :: lengthBytes (value - 255) := by
  have hdiv : value / 255 = (value - 255) / 255 + 1 := by omega
  have hmod : value % 255 = (value - 255) % 255 := by omega
  rw [lengthBytes,lengthBytes,hdiv,hmod,List.replicate_succ,List.cons_append]

theorem lengthBytes_of_lt {value : ℕ} (h : value < 255) : lengthBytes value = [UInt8.ofNat value] := by
  rw [lengthBytes,Nat.div_eq_of_lt h,Nat.mod_eq_of_lt h]
  rfl

theorem lengthBytes_length (value : ℕ) : (lengthBytes value).length = value / 255 + 1 := by
  simp [lengthBytes]

theorem takeLength_lengthBytes (value acc : ℕ) (rest : List UInt8) :
    takeLength (lengthBytes value ++ rest) acc = some (acc + value,rest) := by
  induction value using Nat.strong_induction_on generalizing acc with
  | _ value ih =>
    by_cases h : 255 ≤ value
    · rw [lengthBytes_of_ge h,List.cons_append,takeLength,if_pos rfl,ih (value - 255) (by omega),
        show acc + 255 + (value - 255) = acc + value by omega]
    · have hb : (UInt8.ofNat value).toNat = value := by rw [UInt8.toNat_ofNat']; omega
      have hne : UInt8.ofNat value ≠ 255 := by
        intro he
        rw [he] at hb
        simp at hb
        omega
      rw [lengthBytes_of_lt (by omega),List.singleton_append,takeLength,if_neg hne,hb]

/-- A length field reads back, whether or not it is extended. -/
theorem lengthField_extendedBytes (value base : ℕ) (rest : List UInt8) :
    lengthField (min value 15) base (extendedBytes value ++ rest) = some (value + base,rest) := by
  unfold lengthField extendedBytes
  by_cases h : 15 ≤ value
  · rw [Nat.min_eq_right h,if_pos rfl,if_pos h,takeLength_lengthBytes,
      show 15 + base + (value - 15) = value + base by omega]
  · rw [Nat.min_eq_left (by omega),if_neg (by omega),if_neg h,List.nil_append]

/-- Reading a length consumes a part of the input. -/
theorem takeLength_suffix {bs rest : List UInt8} {acc value : ℕ}
    (h : takeLength bs acc = some (value,rest)) : rest <:+ bs := by
  induction bs generalizing acc with
  | nil => simp [takeLength] at h
  | cons b bs ih =>
    unfold takeLength at h
    split at h
    · exact (ih h).trans (List.suffix_cons b bs)
    · simp only [Option.some.injEq,Prod.mk.injEq] at h
      rw [← h.2]
      exact List.suffix_cons b bs

theorem lengthField_suffix {bits base value : ℕ} {bs rest : List UInt8}
    (h : lengthField bits base bs = some (value,rest)) : rest <:+ bs := by
  unfold lengthField at h
  split at h
  · exact takeLength_suffix h
  · simp only [Option.some.injEq,Prod.mk.injEq] at h
    rw [← h.2]

/-! ### Tokens and sequences -/

theorem token_fields : ∀ a < 16, ∀ b < 16,
    (UInt8.ofNat (a <<< 4 ||| b) >>> 4 &&& 0x0F).toNat = a ∧
    (UInt8.ofNat (a <<< 4 ||| b) &&& 0x0F).toNat = b := by decide

theorem sequenceToken_eq (l m : ℕ) (hasMatch : Bool) :
    sequenceToken l m hasMatch =
      UInt8.ofNat (min l 15 <<< 4 ||| (if hasMatch then min m 15 else 0)) := by
  have hmin (n : ℕ) : (if n < 15 then n else 15) = min n 15 := by split_ifs <;> omega
  simp only [sequenceToken,hmin]

theorem sequenceToken_high (l m : ℕ) (hasMatch : Bool) :
    (sequenceToken l m hasMatch >>> 4 &&& 0x0F).toNat = min l 15 := by
  rw [sequenceToken_eq]
  exact (token_fields _ (by omega) _ (by split_ifs <;> omega)).1

theorem sequenceToken_low (l m : ℕ) : (sequenceToken l m true &&& 0x0F).toNat = min m 15 := by
  rw [sequenceToken_eq]
  exact (token_fields _ (by omega) _ (by simp)).2

/-- The two bytes of an offset. -/
def offsetBytes (offset : ℕ) : List UInt8 := [UInt8.ofNat offset, UInt8.ofNat (offset / 256)]

/-- A sequence that ends with a match. -/
def matchBytes (s : LzSequence UInt8) : List UInt8 :=
  sequenceToken s.literals.length (s.length - kMinMatch) true ::
    (extendedBytes s.literals.length ++ (s.literals ++
      (offsetBytes s.offset ++ extendedBytes (s.length - kMinMatch))))

/-- The literals that end a block. -/
def lastBytes (literals : List UInt8) : List UInt8 :=
  sequenceToken literals.length 0 false :: (extendedBytes literals.length ++ literals)

/-! ### Parsing a block -/

inductive Step
  | corrupt
  | finished (out : List UInt8)
  | more (rest out : List UInt8)

/-- Read a two-byte offset. -/
def takeOffset : List UInt8 → Option (ℕ × List UInt8)
  | low :: high :: rest => some (low.toNat ||| high.toNat <<< 8,rest)
  | _ => none

/-- Parse what follows the literals of a sequence in a block that shall give `n` bytes. -/
def matchStep (n : ℕ) (token : UInt8) (rest out : List UInt8) : Step :=
  if out.length = n then (if rest.length = 0 then .finished out else .corrupt)
  else match takeOffset rest with
    | none => .corrupt
    | some (offset,rest) =>
      if offset = 0 ∨ out.length < offset then .corrupt
      else match lengthField (token &&& 0x0F).toNat kMinMatch rest with
        | none => .corrupt
        | some (matchLength,rest) =>
          if n < out.length + matchLength then .corrupt
          else .more rest (copyBack out offset matchLength)

theorem takeOffset_short {bs : List UInt8} (h : bs.length < 2) : takeOffset bs = none := by
  unfold takeOffset
  split
  · simp only [List.length_cons] at h
    omega
  · rfl

theorem takeOffset_suffix {bs rest : List UInt8} {offset : ℕ}
    (h : takeOffset bs = some (offset,rest)) : rest <:+ bs := by
  unfold takeOffset at h
  split at h
  · rename_i low high tail
    simp only [Option.some.injEq,Prod.mk.injEq] at h
    rw [← h.2]
    exact (List.suffix_cons high tail).trans (List.suffix_cons low (high :: tail))
  · simp at h

/-- Parse one sequence. -/
def step (n : ℕ) (token : UInt8) (rest out : List UInt8) : Step :=
  match lengthField (token >>> 4 &&& 0x0F).toNat 0 rest with
  | none => .corrupt
  | some (literalLength,rest) =>
    if rest.length < literalLength ∨ n < out.length + literalLength then .corrupt
    else matchStep n token (rest.drop literalLength) (out ++ rest.take literalLength)

theorem matchStep_more_suffix {n : ℕ} {token : UInt8} {rest out rest' out' : List UInt8}
    (h : matchStep n token rest out = .more rest' out') : rest' <:+ rest := by
  unfold matchStep at h
  split_ifs at h
  split at h
  · simp at h
  · rename_i offset tail hoffset
    split_ifs at h
    split at h
    · simp at h
    · rename_i matchLength tail' hfield
      split_ifs at h
      simp only [Step.more.injEq] at h
      rw [← h.1]
      exact (lengthField_suffix hfield).trans (takeOffset_suffix hoffset)

theorem step_more_suffix {n : ℕ} {token : UInt8} {rest out rest' out' : List UInt8}
    (h : step n token rest out = .more rest' out') : rest' <:+ rest := by
  unfold step at h
  split at h
  · simp at h
  · rename_i literalLength tail hfield
    split_ifs at h
    exact (matchStep_more_suffix h).trans
      ((List.drop_suffix literalLength tail).trans (lengthField_suffix hfield))

/-- Parse the rest of a block. -/
def parse (n : ℕ) (rest out : List UInt8) : Option (List UInt8) :=
  match rest with
  | [] => if out.length = n then some out else none
  | token :: tail =>
    match _h : step n token tail out with
    | .corrupt => none
    | .finished out' => some out'
    | .more rest' out' => parse n rest' out'
termination_by rest.length
decreasing_by
  have := (step_more_suffix _h).length_le
  simp only [List.length_cons]
  omega

/-- The bytes that a block payload stands for, given how many they are. -/
def decodeBlock (payload : List UInt8) (n : ℕ) : Option (List UInt8) := parse n payload []

theorem parse_cons (n : ℕ) (token : UInt8) (tail out : List UInt8) :
    parse n (token :: tail) out = match step n token tail out with
      | .corrupt => none
      | .finished out' => some out'
      | .more rest' out' => parse n rest' out' := by
  rw [parse]
  split <;> simp_all

theorem matchStep_finished_length {n : ℕ} {token : UInt8} {rest out out' : List UInt8}
    (h : matchStep n token rest out = .finished out') : out'.length = n := by
  unfold matchStep at h
  split_ifs at h with hn
  · simp only [Step.finished.injEq] at h
    rw [← h,hn]
  · split at h
    · simp at h
    · split_ifs at h
      split at h
      · simp at h
      · split_ifs at h

theorem step_finished_length {n : ℕ} {token : UInt8} {rest out out' : List UInt8}
    (h : step n token rest out = .finished out') : out'.length = n := by
  unfold step at h
  split at h
  · simp at h
  · split_ifs at h
    exact matchStep_finished_length h

/-- A payload is accepted only for the number of bytes it gives. -/
theorem parse_length {n : ℕ} {rest out o : List UInt8} (h : parse n rest out = some o) :
    o.length = n := by
  induction rest,out using parse.induct n with
  | case1 out hn => rw [parse,if_pos hn] at h; simp only [Option.some.injEq] at h; rw [← h,hn]
  | case2 out hn => rw [parse,if_neg hn] at h; simp at h
  | case3 out token tail hstep => rw [parse_cons,hstep] at h; simp at h
  | case4 out token tail out' hstep =>
    rw [parse_cons,hstep] at h
    simp only [Option.some.injEq] at h
    rw [← h]
    exact step_finished_length hstep
  | case5 out token tail rest' out' hstep ih =>
    rw [parse_cons,hstep] at h
    exact ih h

theorem decodeBlock_length {payload o : List UInt8} {n : ℕ} (h : decodeBlock payload n = some o) :
    o.length = n := parse_length h

theorem takeOffset_offsetBytes {offset : ℕ} (h : offset ≤ 0xFFFF) (rest : List UInt8) :
    takeOffset (offsetBytes offset ++ rest) = some (offset,rest) := by
  have hread : (UInt8.ofNat offset).toNat ||| (UInt8.ofNat (offset / 256)).toNat <<< 8 = offset := by
    rw [LittleEndian.or_shiftLeft_eq _ 8 _ (UInt8.toNat_lt _)]
    simp only [UInt8.toNat_ofNat']
    omega
  simp only [offsetBytes,List.cons_append,List.nil_append,takeOffset,hread]

/-- The match of a sequence with these lengths is read back. -/
theorem matchStep_bytes {n offset matchLength : ℕ} (literalLength : ℕ) {out : List UInt8}
    (rest : List UInt8) (h₁ : 1 ≤ offset) (h₂ : offset ≤ 0xFFFF) (h₃ : offset ≤ out.length)
    (hm : kMinMatch ≤ matchLength) (hn : out.length + matchLength ≤ n) :
    matchStep n (sequenceToken literalLength (matchLength - kMinMatch) true)
      (offsetBytes offset ++ (extendedBytes (matchLength - kMinMatch) ++ rest)) out =
      .more rest (copyBack out offset matchLength) := by
  have hpos : 0 < matchLength := lt_of_lt_of_le (by decide) hm
  have hopen : ¬out.length = n := by omega
  have hoffset : ¬(offset = 0 ∨ out.length < offset) := by omega
  have hfit : ¬n < out.length + matchLength := by omega
  rw [matchStep,if_neg hopen,takeOffset_offsetBytes h₂]
  simp only []
  rw [if_neg hoffset,sequenceToken_low,lengthField_extendedBytes,Nat.sub_add_cancel hm]
  exact if_neg hfit

/-- A valid sequence parses back to what it expands to. -/
theorem parse_matchBytes {n : ℕ} {s : LzSequence UInt8} {out : List UInt8} (rest : List UInt8)
    (hv : s.Valid kMinMatch 0xFFFF out)
    (hn : out.length + s.literals.length + s.length ≤ n) :
    parse n (matchBytes s ++ rest) out = parse n rest (expand out s) := by
  have hroom : (out ++ s.literals).length + s.length ≤ n := by rw [List.length_append]; exact hn
  have hmatch := matchStep_bytes s.literals.length rest hv.offset_pos
    hv.offset_le_window hv.offset_le_length hv.minMatch_le hroom
  have hfit (tail : List UInt8) : ¬((s.literals ++ tail).length < s.literals.length ∨
      n < out.length + s.literals.length) := by
    rw [List.length_append]; omega
  rw [matchBytes,List.cons_append,parse_cons,step,sequenceToken_high]
  simp only [List.append_assoc,lengthField_extendedBytes,Nat.add_zero]
  rw [if_neg (hfit _),List.drop_left,List.take_left,hmatch]
  rfl

/-- The last literals parse to themselves when they complete the block. -/
theorem parse_lastBytes {n : ℕ} {literals out : List UInt8} (hn : out.length + literals.length = n) :
    parse n (lastBytes literals) out = some (out ++ literals) := by
  have hfit : ¬(literals.length < literals.length ∨ n < out.length + literals.length) := by omega
  have hend : (out ++ literals).length = n := by rw [List.length_append]; exact hn
  rw [lastBytes,parse_cons,step,sequenceToken_high]
  simp only [lengthField_extendedBytes,Nat.add_zero]
  rw [if_neg hfit,matchStep,List.take_length,List.drop_length,if_pos hend]
  rfl

theorem length_le_foldl_expand {window : ℕ} {ss : List (LzSequence UInt8)} {out : List UInt8}
    (hv : ValidFrom kMinMatch window out ss) : out.length ≤ (ss.foldl expand out).length := by
  induction ss generalizing out with
  | nil => exact le_refl _
  | cons s ss ih =>
    have h₁ := hv.1.expand_length
    have h₂ := ih hv.2
    rw [List.foldl_cons]
    omega

/-- Valid sequences parse to what they expand to, whatever follows them. -/
theorem parse_matches {n : ℕ} {ss : List (LzSequence UInt8)} {out : List UInt8} (rest : List UInt8)
    (hv : ValidFrom kMinMatch 0xFFFF out ss) (hn : (ss.foldl expand out).length ≤ n) :
    parse n (ss.flatMap matchBytes ++ rest) out = parse n rest (ss.foldl expand out) := by
  induction ss generalizing out with
  | nil => rfl
  | cons s ss ih =>
    have hle := length_le_foldl_expand hv.2
    rw [hv.1.expand_length] at hle
    rw [List.foldl_cons] at hn
    rw [List.flatMap_cons,List.append_assoc,parse_matchBytes _ hv.1 (by omega),ih hv.2 hn,List.foldl_cons]

/-! ### The encoder's plan -/

/-- The sequences that the encoder emits from `v` on, and the start of the last literals. -/
def plan (input : List UInt8) (windowSize : ℕ) : ℕ → ScanVars → List (LzSequence UInt8) × ℕ
  | 0, v => ([],v.anchor)
  | fuel + 1, v =>
    if v.index + kMinMatch ≤ input.length then
      match scanNext input windowSize v with
      | (none,v') => plan input windowSize fuel v'
      | (some s,v') =>
        let r := plan input windowSize fuel v'
        (s :: r.1,r.2)
    else ([],v.anchor)

/-- The block that the encoder writes for an input when its buffer can grow. -/
def encodeBlock (input : List UInt8) (windowSize : ℕ) : List UInt8 :=
  if input.length = 0 then []
  else
    let p := plan input windowSize (input.length + 1) scanStart
    p.1.flatMap matchBytes ++ lastBytes (input.drop p.2)

theorem extendMatch_spec (input : List UInt8) (current candidate n length : ℕ)
    (hle : current + length ≤ input.length) :
    length ≤ extendMatch input current candidate n length ∧
    current + extendMatch input current candidate n length ≤ input.length ∧
    ∀ k, length ≤ k → k < extendMatch input current candidate n length →
      input[candidate + k]? = input[current + k]? := by
  induction n generalizing length with
  | zero => exact ⟨le_refl _,hle,fun k h₁ h₂ => absurd h₂ (by simp only [extendMatch]; omega)⟩
  | succ n ih =>
    unfold extendMatch
    split_ifs with h
    · obtain ⟨h₁,h₂,h₃⟩ := ih (length + 1) (by omega)
      refine ⟨by omega,h₂,fun k hk hlt => ?_⟩
      rcases Nat.eq_or_lt_of_le hk with rfl | hk
      · exact h.2
      · exact h₃ k hk hlt
    · exact ⟨le_refl _,hle,fun k h₁ h₂ => by omega⟩

/-- A match that is long enough lies within the window and the input, and its bytes agree. -/
theorem findMatch_spec {input : List UInt8} {windowSize index : ℕ} {prev : Int32}
    (hi : index ≤ input.length) (h : kMinMatch ≤ (findMatch input windowSize prev index).1) :
    let found := findMatch input windowSize prev index
    1 ≤ found.2 ∧ found.2 ≤ min windowSize 0xFFFF ∧ found.2 ≤ index ∧
      index + found.1 ≤ input.length ∧
      ∀ k < found.1, input[index - found.2 + k]? = input[index + k]? := by
  dsimp only [findMatch] at h ⊢
  split_ifs at h ⊢ with hprev hcand
  · obtain ⟨h₁,h₂,h₃,-⟩ := hcand
    obtain ⟨-,hlen,heq⟩ := extendMatch_spec input index prev.toNatClampNeg
      (input.length - index) 0 (by omega)
    refine ⟨by simp only; omega,by simp only; omega,by simp only; omega,hlen,fun k hk => ?_⟩
    have hback : index - (index - prev.toNatClampNeg) = prev.toNatClampNeg := by omega
    simp only [hback]
    exact heq k (Nat.zero_le k) hk
  · exact absurd h (by decide)
  · exact absurd h (by decide)

/-- One emitted sequence is valid and takes the output from the anchor to the new anchor. -/
theorem scanNext_some {input : List UInt8} {windowSize : ℕ} {v v' : ScanVars}
    {s : LzSequence UInt8} (ha : v.anchor ≤ v.index) (hi : v.index ≤ input.length)
    (h : scanNext input windowSize v = (some s,v')) :
    s.Valid kMinMatch (min windowSize 0xFFFF) (input.take v.anchor) ∧
      expand (input.take v.anchor) s = input.take v'.anchor ∧
      v'.anchor = v'.index ∧ v.index < v'.index ∧ v'.index ≤ input.length := by
  dsimp only [scanNext] at h
  split_ifs at h with hfound <;>
    simp only [Prod.mk.injEq,Option.some.injEq,reduceCtorEq,false_and] at h
  obtain ⟨rfl,rfl⟩ := h
  obtain ⟨h₁,h₂,h₃,h₄,h₅⟩ := findMatch_spec hi hfound
  have htake : input.take v.anchor ++ (input.drop v.anchor).take (v.index - v.anchor) =
      input.take v.index := by
    rw [← List.take_add,Nat.add_sub_cancel' ha]
  have hpos : 0 < kMinMatch := by decide
  refine ⟨⟨h₁,h₂,?_,hfound⟩,?_,rfl,by simp only; omega,h₄⟩
  · simp only [htake,List.length_take]
    omega
  · simp only [expand,htake]
    exact copyBack_take h₁ h₃ _ h₄ h₅

theorem scanNext_none {input : List UInt8} {windowSize : ℕ} {v v' : ScanVars}
    (h : scanNext input windowSize v = (none,v')) :
    v'.anchor = v.anchor ∧ v'.index = v.index + 1 := by
  dsimp only [scanNext] at h
  split_ifs at h <;> simp only [Prod.mk.injEq,reduceCtorEq,false_and,true_and] at h
  rw [← h]
  exact ⟨rfl,rfl⟩

/-- The plan expands to the input up to its last literals. -/
theorem plan_spec (input : List UInt8) (windowSize fuel : ℕ) (v : ScanVars)
    (ha : v.anchor ≤ v.index) (hi : v.index ≤ input.length) :
    ValidFrom kMinMatch (min windowSize 0xFFFF) (input.take v.anchor)
      (plan input windowSize fuel v).1 ∧
    (plan input windowSize fuel v).1.foldl expand (input.take v.anchor) =
      input.take (plan input windowSize fuel v).2 ∧
    (plan input windowSize fuel v).2 ≤ input.length := by
  induction fuel generalizing v with
  | zero => exact ⟨trivial,rfl,ha.trans hi⟩
  | succ fuel ih =>
    unfold plan
    split_ifs with hround
    · rcases hs : scanNext input windowSize v with ⟨_ | s,v'⟩
      · obtain ⟨h₁,h₂⟩ := scanNext_none hs
        have hk : kMinMatch = 3 := rfl
        have := ih v' (by omega) (by omega)
        rwa [h₁] at this
      · obtain ⟨hv,he,haa,hlt,hle⟩ := scanNext_some ha hi hs
        obtain ⟨h₁,h₂,h₃⟩ := ih v' haa.le hle
        refine ⟨⟨hv,he ▸ h₁⟩,?_,h₃⟩
        simp only [List.foldl_cons,he]
        exact h₂
    · exact ⟨trivial,rfl,ha.trans hi⟩

theorem ValidFrom.mono {window window' : ℕ} (hw : window ≤ window') {out : List UInt8}
    {ss : List (LzSequence UInt8)} (h : ValidFrom kMinMatch window out ss) :
    ValidFrom kMinMatch window' out ss := by
  induction ss generalizing out with
  | nil => trivial
  | cons s ss ih =>
    exact ⟨⟨h.1.offset_pos,h.1.offset_le_window.trans hw,h.1.offset_le_length,h.1.minMatch_le⟩,
      ih h.2⟩

@[simp] theorem encodeBlock_nil (windowSize : ℕ) : encodeBlock [] windowSize = [] := rfl

/-- An encoded block is made of sequences that expand to its input, but for the last literals. -/
theorem encodeBlock_eq {input : List UInt8} (windowSize : ℕ) (h : input ≠ []) : ∃ ss literals,
    encodeBlock input windowSize = ss.flatMap matchBytes ++ lastBytes literals ∧
      ValidFrom kMinMatch 0xFFFF [] ss ∧ ss.foldl expand [] ++ literals = input := by
  have hlen : input.length ≠ 0 := fun hzero => h (List.length_eq_zero_iff.mp hzero)
  obtain ⟨hv,he,-⟩ := plan_spec input windowSize (input.length + 1) scanStart
    (le_refl _) (Nat.zero_le _)
  have hstart : input.take scanStart.anchor = [] := rfl
  rw [hstart] at hv he
  exact ⟨_,_,if_neg hlen,ValidFrom.mono (min_le_right _ _) hv,by rw [he,List.take_append_drop]⟩

/-- Every encoded block decodes to its input. -/
theorem decodeBlock_encodeBlock (input : List UInt8) (windowSize : ℕ) :
    decodeBlock (encodeBlock input windowSize) input.length = some input := by
  by_cases h : input = []
  · rw [h,encodeBlock_nil,decodeBlock,parse]
    rfl
  · obtain ⟨ss,literals,hencode,hv,hinput⟩ := encodeBlock_eq windowSize h
    have hlen := congrArg List.length hinput
    rw [List.length_append] at hlen
    rw [hencode,decodeBlock,parse_matches _ hv (by omega),parse_lastBytes hlen,hinput]

/-! ### Size -/

theorem extendedBytes_length_le (value : ℕ) :
    (extendedBytes value).length ≤ value ∧ (extendedBytes value).length ≤ (value + 3) / 18 := by
  unfold extendedBytes
  by_cases h : 15 ≤ value
  · rw [if_pos h,lengthBytes_length]
    omega
  · rw [if_neg h,List.length_nil]
    omega

/-- A match pays for its offset and its length; only a run of literals can cost extra. -/
theorem matchBytes_length_le {window : ℕ} {s : LzSequence UInt8} {out : List UInt8}
    (hv : s.Valid kMinMatch window out) :
    (matchBytes s).length ≤ s.literals.length + s.length + (s.literals.length + 3) / 18 := by
  have hmin : 3 ≤ s.length := hv.minMatch_le
  have h₁ := (extendedBytes_length_le s.literals.length).2
  have h₂ := (extendedBytes_length_le (s.length - kMinMatch)).1
  simp only [matchBytes,offsetBytes,List.length_cons,List.length_append,List.length_nil]
  simp only [kMinMatch] at h₂ ⊢
  omega

theorem sequences_length_le {window : ℕ} {ss : List (LzSequence UInt8)} {out literals : List UInt8}
    (hv : ValidFrom kMinMatch window out ss) (n : ℕ)
    (hn : (ss.foldl expand out).length + literals.length = out.length + n) :
    (ss.flatMap matchBytes ++ lastBytes literals).length ≤ n + 1 + (n + 3) / 18 := by
  induction ss generalizing out n with
  | nil =>
    have h := (extendedBytes_length_le literals.length).2
    simp only [List.foldl_nil] at hn
    simp only [List.flatMap_nil,List.nil_append,lastBytes,List.length_cons,List.length_append]
    omega
  | cons s ss ih =>
    have hmin : 3 ≤ s.length := hv.1.minMatch_le
    have hs := matchBytes_length_le hv.1
    have hle := length_le_foldl_expand hv.2
    have hlen := hv.1.expand_length
    rw [List.foldl_cons] at hn
    have h := ih hv.2 (n - s.literals.length - s.length) (by omega)
    rw [List.flatMap_cons,List.append_assoc,List.length_append]
    omega

/-- An encoded block exceeds its input by at most a byte and an eighteenth. -/
theorem encodeBlock_length_le (input : List UInt8) (windowSize : ℕ) :
    (encodeBlock input windowSize).length ≤ input.length + 1 + (input.length + 3) / 18 := by
  by_cases h : input = []
  · rw [h,encodeBlock_nil]
    exact Nat.zero_le _
  · obtain ⟨ss,literals,hencode,hv,hinput⟩ := encodeBlock_eq windowSize h
    have hlen := congrArg List.length hinput
    rw [List.length_append] at hlen
    rw [hencode]
    refine sequences_length_le hv input.length ?_
    rw [hlen,List.length_nil,Nat.zero_add]

end LzLite
end EspCompressor
