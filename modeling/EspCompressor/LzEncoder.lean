import EspCompressor.LzLite

/-! The encoder writes exactly the block of its plan, or stops for want of memory. -/
namespace EspCompressor
namespace Codec

open MemoryBuffer (append appendByte append_spec)
open LzLite (extendedBytes lengthBytes lengthBytes_of_ge lengthBytes_of_lt matchBytes lastBytes offsetBytes plan encodeBlock)

/-- `bytes` have been added to the buffer, whatever was requested for it. -/
def Appended (bytes : List UInt8) (s s' : BufferState) : Prop :=
  s.heap.SameSupply s'.heap ∧ s'.buffer.contents = s.buffer.contents ++ bytes

/-- Room for `n` more bytes was refused at some point. -/
def Refused (n : ℕ) (s s' : BufferState) : Prop :=
  s.heap.SameSupply s'.heap ∧ ¬s.heap.Ample (s.buffer.size + n)

theorem Appended.nil (s : BufferState) : Appended [] s s := ⟨Heap.SameSupply.refl _,by simp⟩

theorem Appended.size {bytes : List UInt8} {s s' : BufferState} (h : Appended bytes s s') :
    s'.buffer.size = s.buffer.size + bytes.length := by
  simpa using congrArg List.length h.2

theorem Appended.trans {bytes bytes' : List UInt8} {s s' s'' : BufferState}
    (h : Appended bytes s s') (h' : Appended bytes' s' s'') : Appended (bytes ++ bytes') s s'' :=
  ⟨h.1.trans h'.1,by rw [h'.2,h.2,List.append_assoc]⟩

theorem Refused.mono {m n : ℕ} {s s' : BufferState} (h : Refused m s s') (hmn : m ≤ n) :
    Refused n s s' := ⟨h.1,fun ha => h.2 (ha.mono (by omega))⟩

theorem Refused.after {bytes : List UInt8} {n : ℕ} {s s' s'' : BufferState}
    (h : Appended bytes s s') (h' : Refused n s' s'') : Refused (bytes.length + n) s s'' := by
  refine ⟨h.1.trans h'.1,fun ha => h'.2 ?_⟩
  rw [h.size,Nat.add_assoc]
  exact ha.of_sameSupply h.1

/-- What a `bool` function that writes `bytes` leaves behind. -/
def Emitted (bytes : List UInt8) (s : BufferState) (succeeded : Bool) (s' : BufferState) : Prop :=
  (succeeded = true ∧ Appended bytes s s') ∨ (succeeded = false ∧ Refused bytes.length s s')

/-- A function that writes `bytes`. -/
def Emits (bytes : List UInt8) (m : Proc Bool BufferState Bool) : Prop :=
  ∀ s, Proc.wp m (Emitted bytes s) (Emitted bytes s) (fun _ => False) s

/-- A statement that writes `bytes` and goes on. -/
def Puts (bytes : List UInt8) (m : Proc Bool BufferState Unit) : Prop :=
  ∀ s, Proc.wp m (fun _ s' => Appended bytes s s')
    (fun r s' => r = false ∧ Refused bytes.length s s') (fun _ => False) s

theorem append_emitted (bytes : List UInt8) (s : BufferState) :
    Emitted bytes s (append bytes s).1 (append bytes s).2 := by
  obtain ⟨hsupply,htrue,-,hample⟩ := append_spec bytes s
  cases h : (append bytes s).1 with
  | true => exact .inl ⟨rfl,hsupply,htrue h⟩
  | false => exact .inr ⟨rfl,hsupply,fun ha => by simp [hample ha] at h⟩

/-- `return true;` before statements that are not reached. -/
theorem Emits.returned {c : Prop} [Decidable c] (hc : c) (f : Unit → Proc Bool BufferState Bool) :
    Emits [] (Proc.returnIf c true >>= f) := by
  intro s
  rw [Proc.wp_bind,Proc.wp_returnIf]
  exact ⟨fun _ => .inl ⟨rfl,Appended.nil s⟩,fun h => absurd hc h⟩

theorem Emits.done : Emits [] (pure true) := fun s => .inl ⟨rfl,Appended.nil s⟩

/-- Going on after a statement that writes. -/
theorem Puts.bind {bytes bytes' : List UInt8} {m : Proc Bool BufferState Unit}
    {f : Unit → Proc Bool BufferState Bool} (hm : Puts bytes m) (hf : ∀ u, Emits bytes' (f u)) :
    Emits (bytes ++ bytes') (m >>= f) := by
  intro s
  rw [Proc.wp_bind]
  refine Proc.wp_mono (hm s) (fun _ s' h => ?_) (fun r s' h => ?_) (fun _ h => h)
  · have hcombine (b : Bool) (s'' : BufferState) (h' : Emitted bytes' s' b s'') :
        Emitted (bytes ++ bytes') s b s'' := by
      rcases h' with ⟨hb,h'⟩ | ⟨hb,h'⟩
      · exact .inl ⟨hb,h.trans h'⟩
      · exact .inr ⟨hb,by rw [List.length_append]; exact Refused.after h h'⟩
    exact Proc.wp_mono (hf () s') hcombine hcombine fun _ h => h
  · exact .inr ⟨h.1,h.2.mono (by simp)⟩

theorem Emits.callOrFail {bytes : List UInt8} {m : Proc Bool BufferState Bool} (h : Emits bytes m) :
    Puts bytes (callOrFail m) := by
  intro s
  have hend (b : Bool) (s' : BufferState) (hb : Emitted bytes s b s') :
      Proc.wp (Proc.returnIf (b = false) false) (fun _ s' => Appended bytes s s')
        (fun r s' => r = false ∧ Refused bytes.length s s') (fun _ => False) s' := by
    rcases hb with ⟨rfl,hb⟩ | ⟨rfl,hb⟩ <;> simpa using hb
  rw [Codec.callOrFail,Proc.wp_bind,Proc.wp_call]
  exact Proc.wp_mono (h s) hend hend fun _ h => h

theorem Puts.orFail (bytes : List UInt8) : Puts bytes (orFail (MemoryBuffer.append bytes)) := by
  intro s
  rw [Codec.orFail,Proc.wp_bind,Proc.wp_lift]
  have h := append_emitted bytes s
  rcases h with ⟨hb,h⟩ | ⟨hb,h⟩ <;> simpa [hb] using h

theorem Puts.onlyIf {bytes : List UInt8} {m : Proc Bool BufferState Unit} {c : Prop} [Decidable c]
    (h : c → Puts bytes m) : Puts (if c then bytes else []) (Proc.onlyIf c m) := by
  unfold Proc.onlyIf
  by_cases hc : c
  · simpa only [hc,if_true] using h hc
  · simp only [hc,if_false]
    exact fun s => Appended.nil s

theorem appendLength_emits (value : ℕ) : Emits (lengthBytes value) (appendLength value) := by
  have hloop (n value : ℕ) (h : value < n) : Emits (lengthBytes value) (do
      let rest ← Proc.loop (fun value =>
        if 255 ≤ value then do
          orFail (appendByte 255)
          pure (.inl (value - 255))
        else pure (.inr value)) n value
      Proc.lift (appendByte (UInt8.ofNat rest))) := by
    induction n generalizing value with
    | zero => omega
    | succ n ih =>
      intro s
      rw [Proc.wp_bind,Proc.wp_loop_succ,Proc.wp_ite]
      refine ⟨fun hge => ?_,fun hlt => ?_⟩
      · have h₁ := (Puts.orFail [255]).bind (fun _ => ih (value - 255) (by omega)) s
        rw [lengthBytes_of_ge hge]
        simp only [Proc.wp_bind,Proc.wp_pure,Sum.elim_inl] at h₁ ⊢
        exact h₁
      · rw [lengthBytes_of_lt (by omega)]
        exact append_emitted _ s
  exact hloop (value + 1) value (Nat.lt_succ_self value)

theorem offset_low (offset : ℕ) : (UInt16.ofNat offset &&& 0xFF).toUInt8 = UInt8.ofNat offset := by
  apply UInt8.toNat_inj.mp
  have hmask (n : ℕ) : n &&& 255 = n % 256 := Nat.and_two_pow_sub_one_eq_mod n 8
  simp [hmask]

theorem offset_high (offset : ℕ) :
    ((UInt16.ofNat offset >>> 8) &&& 0xFF).toUInt8 = UInt8.ofNat (offset / 256) := by
  apply UInt8.toNat_inj.mp
  have hmask (n : ℕ) : n &&& 255 = n % 256 := Nat.and_two_pow_sub_one_eq_mod n 8
  simp [hmask,Nat.shiftRight_eq_div_pow]
  omega

/-- The literals of a sequence, empty or not. -/
theorem literals_puts (literals : List UInt8) :
    Puts literals (Proc.onlyIf (literals.length ≠ 0) (orFail (append literals))) := by
  have h := Puts.onlyIf (c := literals.length ≠ 0) fun _ => Puts.orFail literals
  by_cases hl : literals = []
  · simpa [hl] using h
  · simpa [hl] using h

theorem extended_puts (value : ℕ) :
    Puts (extendedBytes value) (Proc.onlyIf (15 ≤ value) (callOrFail (appendLength (value - 15)))) :=
  Puts.onlyIf fun _ => (appendLength_emits _).callOrFail

theorem emitSequence_match (s : LzSequence UInt8) :
    Emits (matchBytes s) (emitSequence s.literals (UInt16.ofNat s.offset) s.length true) := by
  have hlow : Puts [UInt8.ofNat s.offset] (orFail (appendByte (UInt16.ofNat s.offset &&& 0xFF).toUInt8)) := by
    rw [offset_low]
    exact Puts.orFail _
  have hhigh : Puts [UInt8.ofNat (s.offset / 256)]
      (orFail (appendByte ((UInt16.ofNat s.offset >>> 8) &&& 0xFF).toUInt8)) := by
    rw [offset_high]
    exact Puts.orFail _
  have htail := hlow.bind fun _ => hhigh.bind fun _ =>
    (extended_puts (s.length - kMinMatch)).bind fun _ => Emits.done
  have h := (Puts.orFail [sequenceToken s.literals.length (s.length - kMinMatch) true]).bind fun _ =>
    (extended_puts s.literals.length).bind fun _ => (literals_puts s.literals).bind fun _ => htail
  rw [List.append_nil] at h
  exact h

theorem emitSequence_last (literals : List UInt8) :
    Emits (lastBytes literals) (emitSequence literals 0 0 false) := by
  have h : lastBytes literals = [sequenceToken literals.length 0 false] ++
      (extendedBytes literals.length ++ (literals ++ [])) := by simp [lastBytes]
  rw [h]
  exact (Puts.orFail _).bind fun _ => (extended_puts _).bind fun _ =>
    (literals_puts literals).bind fun _ => Emits.returned rfl _

theorem scanNext_index {input : List UInt8} (windowSize : ℕ) {v : ScanVars}
    (h : v.index + kMinMatch ≤ input.length) :
    v.index < (scanNext input windowSize v).2.index ∧
      (scanNext input windowSize v).2.index ≤ input.length := by
  have hk : kMinMatch = 3 := rfl
  dsimp only [scanNext]
  by_cases hfound : kMinMatch ≤ (findMatch input windowSize (v.table (slotOf input v.index)) v.index).1
  · obtain ⟨-,-,-,hle,-⟩ := LzLite.findMatch_spec (by omega) hfound
    rw [if_pos hfound]
    exact ⟨by simp only; omega,hle⟩
  · rw [if_neg hfound]
    exact ⟨by simp only; omega,by simp only; omega⟩

/-- One round writes the sequence it found, if any. -/
theorem scanStep_spec (input : List UInt8) (windowSize : ℕ) (v : ScanVars) (s : BufferState)
    (h : v.index + kMinMatch ≤ input.length) :
    Proc.wp (scanStep input windowSize v)
      (fun c s' => c = .inl (scanNext input windowSize v).2 ∧
        Appended ((scanNext input windowSize v).1.toList.flatMap matchBytes) s s')
      (fun r s' => r = .noMemory ∧
        Refused ((scanNext input windowSize v).1.toList.flatMap matchBytes).length s s')
      (fun _ => False) s := by
  rw [scanStep,if_pos h]
  rcases hs : scanNext input windowSize v with ⟨_ | q,v'⟩
  · exact ⟨rfl,Appended.nil s⟩
  · have hend (b : Bool) (s' : BufferState) (hb : Emitted (matchBytes q) s b s') :
        Proc.wp (do Proc.returnIf (b = false) .noMemory; pure (.inl v'))
          (fun c s' => c = (.inl v' : ScanVars ⊕ ScanVars) ∧ Appended ([q].flatMap matchBytes) s s')
          (fun r s' => r = CompressionError.noMemory ∧ Refused ([q].flatMap matchBytes).length s s')
          (fun _ => False) s' := by
      rcases hb with ⟨rfl,hb⟩ | ⟨rfl,hb⟩ <;> simpa using hb
    simp only [Option.toList_some]
    rw [Proc.wp_bind,Proc.wp_call]
    exact Proc.wp_mono (emitSequence_match q s) hend hend fun _ h => h

theorem plan_succ {input : List UInt8} {windowSize : ℕ} {v : ScanVars} (n : ℕ)
    (h : v.index + kMinMatch ≤ input.length) :
    plan input windowSize (n + 1) v =
      ((scanNext input windowSize v).1.toList ++ (plan input windowSize n (scanNext input windowSize v).2).1,
        (plan input windowSize n (scanNext input windowSize v).2).2) := by
  rw [plan,if_pos h]
  rcases scanNext input windowSize v with ⟨_ | q,v'⟩ <;> rfl

/-- The loop of the encoder writes the sequences of its plan. -/
theorem scanLoop_spec (input : List UInt8) (windowSize n : ℕ) (v : ScanVars) (s : BufferState)
    (hn : input.length < v.index + n) (hv : v.index ≤ input.length) :
    Proc.wp (Proc.loop (scanStep input windowSize) n v)
      (fun v' s' => Appended ((plan input windowSize n v).1.flatMap matchBytes) s s' ∧
        v'.anchor = (plan input windowSize n v).2)
      (fun r s' => r = .noMemory ∧
        Refused ((plan input windowSize n v).1.flatMap matchBytes).length s s')
      (fun _ => False) s := by
  induction n generalizing v s with
  | zero => omega
  | succ n ih =>
    rw [Proc.wp_loop_succ]
    by_cases h : v.index + kMinMatch ≤ input.length
    · obtain ⟨hlt,hle⟩ := scanNext_index windowSize h
      rw [plan_succ n h]
      simp only [List.flatMap_append,List.length_append]
      refine Proc.wp_mono (scanStep_spec input windowSize v s h) ?_ ?_ fun _ h => h
      · rintro c s₁ ⟨rfl,h₁⟩
        refine Proc.wp_mono (ih (scanNext input windowSize v).2 s₁ (by omega) hle) ?_ ?_ fun _ h => h
        · exact fun v' s₂ h₂ => ⟨h₁.trans h₂.1,h₂.2⟩
        · exact fun r s₂ h₂ => ⟨h₂.1,Refused.after h₁ h₂.2⟩
      · exact fun r s₁ h₁ => ⟨h₁.1,h₁.2.mono (by omega)⟩
    · rw [scanStep,if_neg h,plan,if_neg h]
      exact ⟨Appended.nil s,rfl⟩

/-- The encoder's result: the block of its plan in the buffer, or no memory for that block. -/
def Encoded (input : List UInt8) (windowSize : ℕ) (s : BufferState) (error : CompressionError)
    (s' : BufferState) : Prop :=
  s.heap.SameSupply s'.heap ∧
    (error = .ok ∧ s'.buffer.contents = encodeBlock input windowSize ∨
      error = .noMemory ∧ ¬s.heap.Ample (encodeBlock input windowSize).length)

theorem compressLzLiteBlock_spec (input : List UInt8) (windowSize : ℕ) (s : BufferState) :
    Proc.wp (compressLzLiteBlock input windowSize) (Encoded input windowSize s)
      (Encoded input windowSize s) (fun _ => False) s := by
  unfold compressLzLiteBlock
  simp only [Proc.wp_bind,Proc.wp_modify,Proc.wp_returnIf,Proc.wp_call,Proc.wp_pure]
  let s₀ : BufferState := ⟨s.buffer.clear,s.heap⟩
  refine ⟨fun h => ?_,fun h => ?_⟩
  · have hempty : encodeBlock input windowSize = [] := if_pos h
    exact ⟨Heap.SameSupply.refl _,.inl ⟨rfl,by rw [hempty]; exact MemoryBuffer.contents_clear _⟩⟩
  · have hblock : encodeBlock input windowSize =
        (plan input windowSize (input.length + 1) scanStart).1.flatMap matchBytes ++
          lastBytes (input.drop (plan input windowSize (input.length + 1) scanStart).2) := if_neg h
    have hrefused (n : ℕ) (hn : n ≤ (encodeBlock input windowSize).length) (s' : BufferState)
        (hr : Refused n s₀ s') : Encoded input windowSize s .noMemory s' :=
      ⟨hr.1,.inr ⟨rfl,fun ha => hr.2 (ha.mono (by simpa [s₀] using hn))⟩⟩
    refine Proc.wp_mono (scanLoop_spec input windowSize _ scanStart s₀ (by simp [scanStart])
      (Nat.zero_le _)) ?_ ?_ fun _ h => h
    · rintro v s₁ ⟨h₁,hanchor⟩
      have hlast (b : Bool) (s₂ : BufferState) (hb : Emitted (lastBytes (input.drop v.anchor)) s₁ b s₂) :
          (b = false → Encoded input windowSize s .noMemory s₂) ∧
          (¬b = false → Encoded input windowSize s .ok s₂) := by
        rw [hanchor] at hb
        rcases hb with ⟨rfl,hb⟩ | ⟨rfl,hb⟩
        · have h₂ := h₁.trans hb
          refine ⟨by simp,fun _ => ⟨h₂.1,.inl ⟨rfl,?_⟩⟩⟩
          rw [h₂.2,MemoryBuffer.contents_clear,List.nil_append,hblock]
        · refine ⟨fun _ => hrefused _ ?_ s₂ (Refused.after h₁ hb),by simp⟩
          rw [hblock,List.length_append]
      exact Proc.wp_mono (emitSequence_last _ s₁) hlast hlast fun _ h => h
    · rintro r s₁ ⟨rfl,h₁⟩
      exact hrefused _ (by rw [hblock,List.length_append]; omega) s₁ h₁

/-! ### The window -/

open LzSequence (ValidFrom expand)

/-- What the encoder makes of an input: matches that lie within the window and within what precedes
them, then one run of literals. -/
structure Windowed (input : List UInt8) (windowSize : ℕ) (bytes : List UInt8)
    (ss : List (LzSequence UInt8)) (literals : List UInt8) : Prop where
  bytes_eq : bytes = ss.flatMap matchBytes ++ lastBytes literals
  valid : ValidFrom kMinMatch (min windowSize 65535) [] ss
  narrow : ∀ s ∈ ss, (UInt16.ofNat s.offset).toNat = s.offset
  expand_eq : ss.foldl expand [] ++ literals = input
  lengths : (ss.map fun s => s.literals.length + s.length).sum + literals.length = input.length
  length_le : bytes.length ≤ input.length + 1 + (input.length + 3) / 18

theorem ValidFrom.narrow {windowSize : ℕ} {out : List UInt8} {ss : List (LzSequence UInt8)}
    (h : ValidFrom kMinMatch (min windowSize 65535) out ss) :
    ∀ s ∈ ss, (UInt16.ofNat s.offset).toNat = s.offset := by
  induction ss generalizing out with
  | nil => simp
  | cons s ss ih =>
    have hle := h.1.offset_le_window.trans (min_le_right _ _)
    exact List.forall_mem_cons.mpr ⟨UInt16.toNat_ofNat_of_lt' (Nat.lt_succ_of_le hle),ih h.2⟩

/-- The output grows by the literals and the copy of every sequence. -/
theorem ValidFrom.foldl_length {window : ℕ} {out : List UInt8} {ss : List (LzSequence UInt8)}
    (h : ValidFrom kMinMatch window out ss) :
    (ss.foldl expand out).length = out.length + (ss.map fun s => s.literals.length + s.length).sum := by
  induction ss generalizing out with
  | nil => rfl
  | cons s ss ih =>
    have hs := h.1.expand_length
    rw [List.foldl_cons,ih h.2,List.map_cons,List.sum_cons]
    omega

theorem encodeBlock_windowed {input : List UInt8} (windowSize : ℕ) (hne : input ≠ []) :
    ∃ ss literals, Windowed input windowSize (encodeBlock input windowSize) ss literals := by
  have hlen : input.length ≠ 0 := fun hzero => hne (List.length_eq_zero_iff.mp hzero)
  obtain ⟨hv,he,-⟩ := LzLite.plan_spec input windowSize (input.length + 1) scanStart
    (le_refl _) (Nat.zero_le _)
  have hstart : input.take scanStart.anchor = [] := rfl
  rw [hstart] at hv he
  have hinput : (plan input windowSize (input.length + 1) scanStart).1.foldl expand [] ++
      input.drop (plan input windowSize (input.length + 1) scanStart).2 = input := by
    rw [he,List.take_append_drop]
  have hlengths := congrArg List.length hinput
  rw [List.length_append,ValidFrom.foldl_length hv,List.length_nil,Nat.zero_add] at hlengths
  exact ⟨_,_,if_neg hlen,hv,ValidFrom.narrow hv,hinput,hlengths,
    LzLite.encodeBlock_length_le input windowSize⟩

/-- The encoder returns: with a block that respects the window, or for want of memory. -/
theorem compress_windowed (input : List UInt8) (windowSize : ℕ) (s : BufferState) (hne : input ≠ []) :
    ∃ e s', Proc.exec (compressLzLiteBlock input windowSize) s = (some e,s') ∧
      (e = .ok ∧ (∃ ss literals, Windowed input windowSize s'.buffer.contents ss literals) ∨
        e = .noMemory ∧ ¬s.heap.Ample (input.length + 1 + (input.length + 3) / 18)) := by
  obtain ⟨e,s',hrun,-,⟨rfl,hblock⟩ | ⟨rfl,hrefused⟩⟩ :=
    Proc.exec_returns (compressLzLiteBlock_spec input windowSize s)
  · exact ⟨_,s',hrun,.inl ⟨rfl,hblock ▸ encodeBlock_windowed windowSize hne⟩⟩
  · exact ⟨_,s',hrun,.inr ⟨rfl,fun ha => hrefused
      (ha.mono (LzLite.encodeBlock_length_le input windowSize))⟩⟩

/-- One letter and a match of it. -/
theorem compress_windowed_run : ∃ s',
    Proc.exec (compressLzLiteBlock (List.replicate 40 7) 16) ⟨.new,.unlimited⟩ = (some .ok,s') ∧
      s'.buffer.contents = [31,7,1,0,21,0] ∧
      ∃ ss literals, Windowed (List.replicate 40 7) 16 s'.buffer.contents ss literals := by
  obtain ⟨e,s',hrun,⟨rfl,hwindowed⟩ | ⟨-,hrefused⟩⟩ :=
    compress_windowed (List.replicate 40 7) 16 ⟨.new,.unlimited⟩ (by simp)
  · have hcontents : (Proc.exec (compressLzLiteBlock (List.replicate 40 7) 16)
        ⟨.new,.unlimited⟩).2.buffer.contents = [31,7,1,0,21,0] := by decide +kernel
    rw [hrun] at hcontents
    exact ⟨s',hrun,hcontents,hwindowed⟩
  · exact absurd (Heap.unlimited_ample _) hrefused

end Codec
end EspCompressor
