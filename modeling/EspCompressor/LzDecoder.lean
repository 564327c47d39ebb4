import EspCompressor.LzLite

/-! The decoder computes exactly the parse of a payload, whatever its output
buffer held before, and never reads or writes outside its buffers. -/
namespace EspCompressor
namespace Codec

open MemoryBuffer (overwrite resize resize_spec)
open LzSequence (copyBack copyBack_length)
open LzLite (Step step matchStep takeOffset takeOffset_short parse parse_cons takeLength lengthField
  decodeBlock)

/-- The first bytes of a buffer of size `n` are `out`. -/
structure Produced (n : ℕ) (out : List UInt8) (s : BufferState) : Prop where
  size_eq : s.buffer.size = n
  length_le : out.length ≤ n
  taken : s.buffer.contents.take out.length = out

theorem Produced.data_take {n : ℕ} {out : List UInt8} {s : BufferState} (h : Produced n out s) :
    s.buffer.data.take out.length = out := by
  have ht := h.taken
  have hle := h.length_le
  rwa [MemoryBuffer.contents,List.take_take,h.size_eq,Nat.min_eq_left hle] at ht

/-- Storing at the end of what is produced extends it. -/
theorem storeBytes_spec {n : ℕ} {out : List UInt8} (bytes : List UInt8) {s : BufferState}
    (h : Produced n out s)
    (hn : out.length + bytes.length ≤ n) {R : CompressionError → BufferState → Prop}
    {S : BufferState → Prop} :
    Proc.wp (storeBytes out.length bytes) (fun _ s' => Produced n (out ++ bytes) s' ∧ s'.heap = s.heap)
      R S s := by
  have hle := s.buffer.size_le
  have hsize := h.size_eq
  unfold Proc.wp storeBytes
  rw [if_pos (by omega)]
  refine ⟨⟨hsize,by simpa using hn,?_⟩,rfl⟩
  simp only [MemoryBuffer.contents,MemoryBuffer.store]
  rw [List.take_take,List.length_append,Nat.min_eq_left (by omega),
    MemoryBuffer.overwrite_take _ _ _ (by omega),h.data_take]

theorem moveByte_spec {n : ℕ} (origin : ℕ) {out : List UInt8} {s : BufferState}
    (h : Produced n out s)
    (ho : origin < out.length) (hn : out.length + 1 ≤ n)
    {R : CompressionError → BufferState → Prop} {S : BufferState → Prop} :
    Proc.wp (moveByte out.length origin)
      (fun _ s' => Produced n (out ++ (out[origin]?).toList) s' ∧ s'.heap = s.heap) R S s := by
  have hread : s.buffer.contents[origin]? = out[origin]? := by
    conv_rhs => rw [← h.taken]
    rw [List.getElem?_take_of_lt ho]
  have hget : out[origin]? = some out[origin] := List.getElem?_eq_getElem ho
  have hstore := storeBytes_spec [out[origin]] h (by simpa using hn) (R := R) (S := S)
  unfold Proc.wp moveByte
  rw [hread,hget]
  exact hstore

/-- Copying a match, byte after byte, is `copyBack`. -/
theorem copyMatch_spec {n offset : ℕ} {out : List UInt8} {s : BufferState} (h : Produced n out s)
    (h₁ : 1 ≤ offset) (h₂ : offset ≤ out.length) (k : ℕ) (hn : out.length + k ≤ n)
    {R : CompressionError → BufferState → Prop} {S : BufferState → Prop} :
    Proc.wp (copyMatch out.length offset k)
      (fun _ s' => Produced n (copyBack out offset k) s' ∧ s'.heap = s.heap) R S s := by
  induction k with
  | zero => exact ⟨h,rfl⟩
  | succ k ih =>
    rw [copyMatch_succ,Proc.wp_bind]
    refine Proc.wp_mono (ih (by omega)) ?_ (fun _ _ h => h) (fun _ h => h)
    rintro _ s₁ ⟨hp,hheap⟩
    have hlen := copyBack_length h₁ h₂ k
    have hmove := moveByte_spec (out.length - offset + k) hp (by omega) (by omega)
      (R := R) (S := S)
    rw [hlen] at hmove
    refine Proc.wp_mono hmove ?_ (fun _ _ h => h) (fun _ h => h)
    rintro _ s₂ ⟨hp₂,hheap₂⟩
    refine ⟨?_,hheap₂.trans hheap⟩
    rw [copyBack,hlen,show out.length + k - offset = out.length - offset + k by omega]
    exact hp₂

/-- Reading an extended length is `takeLength` on the rest of the input. -/
theorem readExtendedLength_spec {input : List UInt8} {inputOffset : ℕ} (value : ℕ)
    (hle : inputOffset ≤ input.length) (s : BufferState) :
    Proc.wp (readExtendedLength input inputOffset value)
      (fun p s' => s' = s ∧ p.1 ≤ input.length ∧
        takeLength (input.drop inputOffset) value = some (p.2,input.drop p.1))
      (fun r s' => s' = s ∧ r = .corruptData ∧ takeLength (input.drop inputOffset) value = none)
      (fun _ => False) s := by
  rw [readExtendedLength_eq]
  have hfuel : input.length < inputOffset + (input.length + 1) := by omega
  generalize input.length + 1 = n at hfuel ⊢
  induction n generalizing inputOffset value with
  | zero => omega
  | succ n ih =>
    rw [Proc.wp_loop_succ]
    by_cases hlt : inputOffset < input.length
    · rw [List.drop_eq_getElem_cons hlt,takeLength,List.getElem?_eq_getElem hlt]
      by_cases hb : input[inputOffset] = 255
      · simp only [hb,if_true,Proc.wp_pure,Sum.elim_inl]
        exact ih (value + 255) (by omega) (by omega)
      · simp only [hb,if_false,Proc.wp_pure,Sum.elim_inr]
        exact ⟨trivial,by omega,trivial⟩
    · rw [List.drop_eq_nil_of_le (by omega),List.getElem?_eq_none (by omega)]
      exact ⟨rfl,rfl,rfl⟩

theorem readLength_spec {input : List UInt8} {inputOffset : ℕ} (bits base : ℕ)
    (hle : inputOffset ≤ input.length) (s : BufferState) :
    Proc.wp (readLength input bits base inputOffset)
      (fun p s' => s' = s ∧ p.1 ≤ input.length ∧
        lengthField bits base (input.drop inputOffset) = some (p.2,input.drop p.1))
      (fun r s' => s' = s ∧ r = .corruptData ∧ lengthField bits base (input.drop inputOffset) = none)
      (fun _ => False) s := by
  rw [readLength_eq]
  unfold lengthField
  by_cases h : bits = 15
  · simp only [h,if_true]
    exact readExtendedLength_spec _ hle s
  · simp only [h,if_false]
    exact ⟨rfl,hle,rfl⟩

/-- A round goes on from what the step of the grammar leaves. -/
def RoundEnds (input : List UInt8) (n : ℕ) (o : Step) (heap : Heap) (c : DecodeVars ⊕ DecodeVars)
    (s : BufferState) : Prop :=
  ∃ v out, c = .inl v ∧ o = .more (input.drop v.inputOffset) out ∧
    v.inputOffset ≤ input.length ∧ v.outputOffset = out.length ∧ Produced n out s ∧ s.heap = heap

/-- A round returns what the step of the grammar decides. -/
def RoundReturns (o : Step) (heap : Heap) (r : CompressionError) (s : BufferState) : Prop :=
  s.heap = heap ∧ (r = .corruptData ∧ o = .corrupt ∨ r = .ok ∧ o = .finished s.buffer.contents)

theorem byteAt_spec {input : List UInt8} {i : ℕ} (h : i < input.length) {Q : UInt8 → BufferState → Prop}
    {R : CompressionError → BufferState → Prop} {S : BufferState → Prop} {s : BufferState} :
    Proc.wp (byteAt input i) Q R S s ↔ Q input[i] s := by
  rw [byteAt,List.getElem?_eq_getElem h]
  exact Iff.rfl

theorem Produced.contents_eq {n : ℕ} {out : List UInt8} {s : BufferState} (h : Produced n out s)
    (hn : out.length = n) : s.buffer.contents = out := by
  have ht := h.taken
  rwa [hn,← h.size_eq,← MemoryBuffer.contents_length,List.take_length] at ht

theorem decodeMatch_spec {input out : List UInt8} {n : ℕ} (token : UInt8) {v : DecodeVars}
    {s : BufferState} (hin : v.inputOffset ≤ input.length) (hout : v.outputOffset = out.length)
    (hp : Produced n out s) :
    Proc.wp (decodeMatch input n token v)
      (RoundEnds input n (matchStep n token (input.drop v.inputOffset) out) s.heap)
      (RoundReturns (matchStep n token (input.drop v.inputOffset) out) s.heap) (fun _ => False) s := by
  rw [decodeMatch_eq]
  unfold matchStep
  simp only [Proc.wp_bind,Proc.wp_returnIf,hout]
  refine ⟨fun hfull => ?_,fun hopen => ⟨fun hshort => ?_,fun hlong => ?_⟩⟩
  · -- the block is complete
    rw [if_pos hfull,List.length_drop]
    refine ⟨rfl,?_⟩
    by_cases hend : v.inputOffset = input.length
    · rw [if_pos hend,if_pos (by omega),hp.contents_eq hfull]
      exact .inr ⟨rfl,rfl⟩
    · rw [if_neg hend,if_neg (by omega)]
      exact .inl ⟨rfl,rfl⟩
  · -- fewer than two bytes are left
    rw [if_neg hopen]
    have hlen : (input.drop v.inputOffset).length < 2 := by
      rw [List.length_drop]
      omega
    rw [takeOffset_short hlen]
    exact ⟨rfl,.inl ⟨rfl,rfl⟩⟩
  · have h₀ : v.inputOffset < input.length := by omega
    have h₁ : v.inputOffset + 1 < input.length := by omega
    rw [if_neg hopen,List.drop_eq_getElem_cons h₀,List.drop_eq_getElem_cons h₁,byteAt_spec h₀,
      byteAt_spec h₁]
    simp only [takeOffset]
    generalize input[v.inputOffset].toNat ||| input[v.inputOffset + 1].toNat <<< 8 = offset
    refine ⟨fun hbad => ?_,fun hgood => ?_⟩
    · rw [if_pos hbad]
      exact ⟨rfl,.inl ⟨rfl,rfl⟩⟩
    · rw [if_neg hgood]
      refine Proc.wp_mono (readLength_spec _ _ (by omega) s) ?_ ?_ fun _ h => h
      · rintro ⟨inputOffset,matchLength⟩ s₁ ⟨rfl,hle,hfield⟩
        simp only [hfield]
        refine ⟨fun hover => ?_,fun hfit => ?_⟩
        · rw [if_pos hover]
          exact ⟨rfl,.inl ⟨rfl,rfl⟩⟩
        · rw [if_neg hfit]
          have hlen : (copyBack out offset matchLength).length = out.length + matchLength :=
            copyBack_length (by omega) (by omega) matchLength
          refine Proc.wp_mono (copyMatch_spec hp (by omega) (by omega) matchLength (by omega)) ?_
            (fun _ _ h => h) fun _ h => h
          rintro _ s₂ ⟨hp₂,hheap⟩
          exact ⟨_,_,rfl,rfl,hle,hlen.symm,hp₂,hheap⟩
      · rintro r s₁ ⟨rfl,rfl,hfield⟩
        rw [hfield]
        exact ⟨rfl,.inl ⟨rfl,rfl⟩⟩

/-- One round of the decoder is one step of the grammar. -/
theorem decodeStep_spec {input out : List UInt8} {n : ℕ} {v : DecodeVars} {s : BufferState}
    (hin : v.inputOffset < input.length) (hout : v.outputOffset = out.length)
    (hp : Produced n out s) :
    Proc.wp (decodeStep input n v)
      (RoundEnds input n
        (step n input[v.inputOffset] (input.drop (v.inputOffset + 1)) out) s.heap)
      (RoundReturns (step n input[v.inputOffset] (input.drop (v.inputOffset + 1)) out) s.heap)
      (fun _ => False) s := by
  rw [decodeStep_eq]
  unfold step
  rw [List.getElem?_eq_getElem hin]
  simp only [Proc.wp_bind,Proc.wp_returnIf,hout]
  generalize input[v.inputOffset] = token
  refine Proc.wp_mono (readLength_spec _ _ (by omega) s) ?_ ?_ fun _ h => h
  · rintro ⟨inputOffset,literalLength⟩ s₁ ⟨rfl,hle,hfield⟩
    simp only [hfield,List.length_drop]
    refine ⟨fun hbad => ?_,fun hgood => ?_⟩
    · rw [if_pos (by omega)]
      exact ⟨rfl,.inl ⟨rfl,rfl⟩⟩
    · rw [if_neg (by omega)]
      have hlen : ((input.drop inputOffset).take literalLength).length = literalLength := by
        rw [List.length_take,List.length_drop]; omega
      have hstore := storeBytes_spec ((input.drop inputOffset).take literalLength) hp
        (by rw [hlen]; omega) (R := RoundReturns (matchStep n token
          ((input.drop inputOffset).drop literalLength) (out ++ (input.drop inputOffset).take
            literalLength)) s₁.heap) (S := fun _ => False)
      refine Proc.wp_mono hstore ?_ (fun _ _ h => h) fun _ h => h
      rintro _ s₂ ⟨hp₂,hheap⟩
      let v' : DecodeVars := ⟨inputOffset + literalLength,out.length + literalLength⟩
      have hin' : v'.inputOffset ≤ input.length := by simp only [v']; omega
      have hmatch := decodeMatch_spec token hin' (by simp only [v',List.length_append,hlen]) hp₂
      rw [hheap] at hmatch
      rw [List.drop_drop]
      exact hmatch
  · rintro r s₁ ⟨rfl,rfl,hfield⟩
    rw [hfield]
    exact ⟨rfl,.inl ⟨rfl,rfl⟩⟩

/-- The decoder's loop parses the rest of the payload. -/
theorem decodeLoop_spec {input : List UInt8} {n : ℕ} (k : ℕ) {v : DecodeVars} {out : List UInt8}
    {s : BufferState} (hin : v.inputOffset ≤ input.length) (hk : input.length < v.inputOffset + k)
    (hout : v.outputOffset = out.length) (hp : Produced n out s) :
    Proc.wp (Proc.loop (decodeStep input n) k v)
      (fun v' s' => s'.heap = s.heap ∧ parse n (input.drop v.inputOffset) out =
        if v'.outputOffset = n then some s'.buffer.contents else none)
      (fun r s' => s'.heap = s.heap ∧
        (r = .corruptData ∧ parse n (input.drop v.inputOffset) out = none ∨
          r = .ok ∧ parse n (input.drop v.inputOffset) out = some s'.buffer.contents))
      (fun _ => False) s := by
  induction k generalizing v out s with
  | zero => omega
  | succ k ih =>
    rw [Proc.wp_loop_succ]
    by_cases hlt : v.inputOffset < input.length
    · rw [List.drop_eq_getElem_cons hlt,parse_cons]
      refine Proc.wp_mono (decodeStep_spec hlt hout hp) ?_ ?_ fun _ h => h
      · rintro c s₁ ⟨v₁,out₁,rfl,hstep,hle,hout₁,hp₁,hheap⟩
        have hsuffix := (LzLite.step_more_suffix hstep).length_le
        simp only [List.length_drop] at hsuffix
        have h := ih hle (by omega) hout₁ hp₁
        rw [hheap] at h
        rw [hstep]
        exact h
      · rintro r s₁ ⟨hheap,⟨hr,hstep⟩ | ⟨hr,hstep⟩⟩
        · rw [hstep]
          exact ⟨hheap,.inl ⟨hr,rfl⟩⟩
        · rw [hstep]
          exact ⟨hheap,.inr ⟨hr,rfl⟩⟩
    · rw [decodeStep_eq,List.getElem?_eq_none (by omega),List.drop_eq_nil_of_le (by omega),parse]
      refine ⟨rfl,?_⟩
      by_cases hn : out.length = n
      · rw [if_pos hn,if_pos (hout.trans hn),hp.contents_eq hn]
      · rw [if_neg hn,if_neg (by rwa [hout])]

/-- The decoder's result: the parse of the payload in the buffer, or no memory for it. -/
def Decoded (payload : List UInt8) (n : ℕ) (s : BufferState) (error : CompressionError)
    (s' : BufferState) : Prop :=
  s.heap.SameSupply s'.heap ∧
    (error = .ok ∧ decodeBlock payload n = some s'.buffer.contents ∨
      error = .corruptData ∧ decodeBlock payload n = none ∨
      error = .noMemory ∧ ¬s.heap.Ample n)

theorem decompressLzLiteBlock_spec (payload : List UInt8) (n : ℕ) (s : BufferState) :
    Proc.wp (decompressLzLiteBlock payload n) (Decoded payload n s) (Decoded payload n s)
      (fun _ => False) s := by
  rw [decompressLzLiteBlock_eq]
  simp only [Proc.wp_bind,Proc.wp_modify,Proc.wp_lift,Proc.wp_returnIf,Proc.wp_pure]
  obtain ⟨hsupply,htrue,hfalse⟩ := resize_spec n ⟨s.buffer.clear,s.heap⟩
  refine ⟨fun h => ?_,fun h => ?_⟩
  · have hrefused : s.heap.answer s.heap.calls = none := (hfalse h).2
    have hample : ¬s.heap.Ample n := fun ha => by
      have hgrant := ha.grants s.heap.calls
      rw [hrefused] at hgrant
      exact absurd hgrant (by simp)
    have hpos : n ≠ 0 := by
      rintro rfl
      rw [resize,dif_pos (Nat.zero_le _)] at h
      simp at h
    rw [if_neg hpos]
    exact ⟨hsupply,.inr (.inr ⟨rfl,hample⟩)⟩
  · have hsize := (htrue (by simpa using h)).1
    have hstart : Produced n [] (resize n ⟨s.buffer.clear,s.heap⟩).2 := ⟨hsize,Nat.zero_le _,rfl⟩
    have hloop := decodeLoop_spec (v := ⟨0,0⟩) (payload.length + 1) (Nat.zero_le payload.length)
      (by simp) rfl hstart
    simp only [List.drop_zero] at hloop
    refine Proc.wp_mono hloop ?_ ?_ fun _ h => h
    · rintro v s₁ ⟨hheap,hparse⟩
      refine ⟨hheap ▸ hsupply,?_⟩
      by_cases hn : v.outputOffset = n
      · rw [if_pos hn] at hparse ⊢
        exact .inl ⟨rfl,hparse⟩
      · rw [if_neg hn] at hparse ⊢
        exact .inr (.inl ⟨rfl,hparse⟩)
    · rintro r s₁ ⟨hheap,⟨hr,hparse⟩ | ⟨hr,hparse⟩⟩
      · exact ⟨hheap ▸ hsupply,.inr (.inl ⟨hr,hparse⟩)⟩
      · exact ⟨hheap ▸ hsupply,.inl ⟨hr,hparse⟩⟩

end Codec
end EspCompressor
