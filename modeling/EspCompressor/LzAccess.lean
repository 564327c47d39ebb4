import EspCompressor.Lockstep
import EspCompressor.LzDecoder
import EspCompressor.LzGrammar

/-! The decoder with a record of its memory accesses: it reads within its input, writes within its
output, and copies only what it has written itself. -/
namespace EspCompressor
namespace Codec

open MemoryBuffer (resize)

/-- The decoder's state, and all accesses so far. -/
structure Recorded where
  state : BufferState
  accesses : List Access := []

variable {ρ σ τ α β : Type}

/-- A statement that makes the given accesses. -/
def recording (accesses : List Access) (m : Proc ρ BufferState α) : Proc ρ Recorded α := fun s =>
  ((m s.state).1,⟨(m s.state).2,s.accesses ++ accesses⟩)

/-- The decoder's statements with a record of their accesses. -/
def recorded : Machine Recorded where
  access := recording
  add a b := pure (a + b)

def Recorded.decompressLzLiteBlock (input : List UInt8) (expectedOutputSize : ℕ) :
    Proc CompressionError Recorded CompressionError := recorded.decompressLzLiteBlock input expectedOutputSize

/-! ### Two machines in lockstep -/

/-- Two machines that keep their states related, by every access and every sum. -/
structure Machine.Coupled (A : Machine σ) (B : Machine τ) (P : σ → τ → Prop) : Prop where
  access : ∀ {α : Type} (accesses : List Access) (m : Proc CompressionError BufferState α),
    Proc.Alongside P (A.access accesses m) (B.access accesses m)
  add : ∀ a b, Proc.Alongside P (A.add a b) (B.add a b)

namespace Machine.Coupled

variable {A : Machine σ} {B : Machine τ} {P : σ → τ → Prop}

theorem extendRound (h : A.Coupled B P) (input : List UInt8) (p : ℕ × ℕ) :
    Proc.Alongside P (A.extendRound input p) (B.extendRound input p) := by
  unfold Machine.extendRound
  cases input[p.1]? with
  | none => exact .ret fun _ _ hP => hP
  | some extra =>
    exact (h.access _ _).bind fun _ => (h.add _ _).bind fun _ => (h.add _ _).bind fun _ => Proc.pure_alongside _

theorem readLength (h : A.Coupled B P) (input : List UInt8) (bits base inputOffset : ℕ) :
    Proc.Alongside P (A.readLength input bits base inputOffset) (B.readLength input bits base inputOffset) :=
  .ite (fun _ => Proc.loop_alongside (h.extendRound input) _ _) fun _ => Proc.pure_alongside _

theorem copyMatch (h : A.Coupled B P) (outputOffset offset n : ℕ) :
    Proc.Alongside P (A.copyMatch outputOffset offset n) (B.copyMatch outputOffset offset n) := by
  induction n with
  | zero => exact Proc.pure_alongside ()
  | succ n ih => exact ih.bind fun _ => h.access _ _

theorem decodeMatch (h : A.Coupled B P) (input : List UInt8) (n : ℕ) (token : UInt8) (v : DecodeVars) :
    Proc.Alongside P (A.decodeMatch input n token v) (B.decodeMatch input n token v) :=
  (Proc.returnIf_alongside _ _).bind fun _ => (h.add _ _).bind fun _ => (Proc.returnIf_alongside _ _).bind fun _ =>
    (h.access _ _).bind fun _ => (h.access _ _).bind fun _ => (Proc.returnIf_alongside _ _).bind fun _ =>
    (h.readLength _ _ _ _).bind fun _ => (h.add _ _).bind fun _ => (Proc.returnIf_alongside _ _).bind fun _ =>
    (h.copyMatch _ _ _).bind fun _ => Proc.pure_alongside _

theorem decodeStep (h : A.Coupled B P) (input : List UInt8) (n : ℕ) (v : DecodeVars) :
    Proc.Alongside P (A.decodeStep input n v) (B.decodeStep input n v) := by
  unfold Machine.decodeStep
  cases input[v.inputOffset]? with
  | none => exact Proc.pure_alongside _
  | some token =>
    exact (h.access _ _).bind fun _ => (h.add _ _).bind fun _ => (h.readLength _ _ _ _).bind fun _ =>
      (h.add _ _).bind fun _ => (Proc.returnIf_alongside _ _).bind fun _ => (h.add _ _).bind fun _ =>
      (Proc.returnIf_alongside _ _).bind fun _ => (h.access _ _).bind fun _ => h.decodeMatch _ _ _ _

theorem decompressLzLiteBlock (h : A.Coupled B P) (input : List UInt8) (n : ℕ) :
    Proc.Alongside P (A.decompressLzLiteBlock input n) (B.decompressLzLiteBlock input n) :=
  (h.access _ _).bind fun _ => (h.access _ _).bind fun _ => (Proc.returnIf_alongside _ _).bind fun _ =>
    (Proc.loop_alongside (h.decodeStep input n) _ _).bind fun _ => Proc.pure_alongside _

end Machine.Coupled

/-! ### The record changes nothing -/

/-- The recorded procedure does what the other one does. -/
abbrev Records (m : Proc ρ Recorded α) (n : Proc ρ BufferState α) : Prop :=
  Proc.Alongside (fun s t => s.state = t) m n

theorem recording_records (accesses : List Access) (m : Proc ρ BufferState α) :
    Records (recording accesses m) m := by
  refine ⟨fun _ => trivial,?_⟩
  rintro s _ rfl
  unfold recording
  rcases m s.state with ⟨o,t⟩
  cases o with
  | done a => exact .done rfl
  | returned r => exact .returned rfl
  | pending => exact .pending rfl
  | undefined => exact .undefined

theorem recorded_coupled : recorded.Coupled unbounded fun s t => s.state = t :=
  ⟨fun accesses m => recording_records accesses m,fun _ _ => Proc.pure_alongside _⟩

theorem decompressLzLiteBlock_records (input : List UInt8) (n : ℕ) :
    Records (Recorded.decompressLzLiteBlock input n) (decompressLzLiteBlock input n) :=
  recorded_coupled.decompressLzLiteBlock input n

/-- Called on the same state, both give the same. -/
theorem Records.exec_eq {m : Proc ρ Recorded ρ} {n : Proc ρ BufferState ρ} (h : Records m n)
    {s s' : BufferState} {r : ρ} (hexec : Proc.exec n s = (some r,s')) :
    ∃ accesses, Proc.exec m ⟨s,[]⟩ = (some r,⟨s',accesses⟩) := by
  refine ⟨(m ⟨s,[]⟩).2.accesses,?_⟩
  have hends := h.ends ⟨s,[]⟩ s rfl
  unfold Proc.exec at hexec ⊢
  generalize m ⟨s,[]⟩ = x at hends ⊢
  generalize n s = y at hends hexec
  cases hends with
  | @done a x y hsame =>
    obtain rfl : x.state = y := hsame
    obtain ⟨⟨⟩,rfl⟩ := Prod.mk.inj hexec
    rfl
  | @returned r x y hsame =>
    obtain rfl : x.state = y := hsame
    obtain ⟨⟨⟩,rfl⟩ := Prod.mk.inj hexec
    rfl
  | pending => simp at hexec
  | undefined => simp at hexec
  | stopped hstop => exact hstop.elim

/-! ### The accesses -/

/-- The access is within its buffer; a copied byte has been written before. -/
def Allowed (inputSize n : ℕ) (before : List Access) : Access → Prop
  | .readInput i => i < inputSize
  | .writeOutput i => i < n
  | .readOutput i => .writeOutput i ∈ before

/-- Each access is allowed after those before it. -/
def Disciplined (inputSize n : ℕ) (accesses : List Access) : Prop :=
  ∀ before a after, accesses = before ++ a :: after → Allowed inputSize n before a

theorem Allowed.mono {inputSize n : ℕ} {before before' : List Access} {a : Access}
    (h : Allowed inputSize n before a) (hsub : before ⊆ before') : Allowed inputSize n before' a := by
  cases a with
  | readInput i => exact h
  | writeOutput i => exact h
  | readOutput i => exact hsub h

theorem Disciplined.append {inputSize n : ℕ} {as bs : List Access} (h : Disciplined inputSize n as)
    (hbs : ∀ b ∈ bs, Allowed inputSize n as b) : Disciplined inputSize n (as ++ bs) := by
  intro before a after heq
  rcases List.append_eq_append_iff.mp heq with ⟨c,rfl,hbs'⟩ | ⟨c,rfl,hafter⟩
  · exact (hbs a (by rw [hbs']; simp)).mono (List.subset_append_left _ _)
  · cases c with
    | nil =>
      obtain rfl : a :: after = bs := hafter
      have hallowed := hbs a List.mem_cons_self
      rwa [List.append_nil] at hallowed
    | cons b c =>
      obtain ⟨rfl,-⟩ := List.cons.inj hafter
      exact h before a c rfl

/-- The output has `n` bytes, of which the first `k` have been written. -/
structure Kept (inputSize n k : ℕ) (s : Recorded) : Prop where
  size_eq : s.state.buffer.size = n
  disciplined : Disciplined inputSize n s.accesses
  written : ∀ i < k, .writeOutput i ∈ s.accesses

variable {R : ρ → Recorded → Prop} {S : Recorded → Prop}

@[simp] theorem wp_recording (accesses : List Access) (m : Proc ρ BufferState α)
    {Q : α → Recorded → Prop} (s : Recorded) : Proc.wp (recording accesses m) Q R S s ↔
      Proc.wp m (fun a t => Q a ⟨t,s.accesses ++ accesses⟩) (fun r t => R r ⟨t,s.accesses ++ accesses⟩)
        (fun t => S ⟨t,s.accesses ++ accesses⟩) s.state := by
  unfold Proc.wp recording
  rcases m s.state with ⟨o,t⟩
  cases o <;> rfl

theorem Kept.record {inputSize n k : ℕ} {s : Recorded} (h : Kept inputSize n k s) {t : BufferState}
    (ht : t.buffer.size = s.state.buffer.size) {accesses : List Access}
    (hallowed : ∀ a ∈ accesses, Allowed inputSize n s.accesses a) :
    Kept inputSize n k ⟨t,s.accesses ++ accesses⟩ :=
  ⟨ht.trans h.size_eq,h.disciplined.append hallowed,
    fun i hi => List.mem_append_left _ (h.written i hi)⟩

/-- A statement that keeps the discipline, from `k` bytes written to `k'`. -/
abbrev Keeps (input : List UInt8) (n k : ℕ) (m : Proc CompressionError Recorded α)
    (Q : α → Recorded → Prop) : Prop :=
  ∀ s, Kept input.length n k s → Proc.wp m Q (fun _ s' => Disciplined input.length n s'.accesses)
    (fun s' => Disciplined input.length n s'.accesses) s

theorem readExtendedLength_keeps (input : List UInt8) (n k inputOffset value : ℕ) :
    Keeps input n k (recorded.readExtendedLength input inputOffset value)
      fun _ => Kept input.length n k := by
  intro s h
  refine Proc.wp_loop (I := fun _ => Kept input.length n k) (fun p s h => ?_)
    (fun _ _ h => h.disciplined) _ _ h
  unfold Machine.extendRound
  cases hread : input[p.1]? with
  | none => exact h.disciplined
  | some extra =>
    have hlt : p.1 < input.length := (List.getElem?_eq_some_iff.mp hread).1
    have hkept : Kept input.length n k ⟨s.state,s.accesses ++ [.readInput p.1]⟩ :=
      h.record rfl (by simpa [Allowed] using hlt)
    simp only [recorded,Proc.wp_bind,wp_recording,Proc.wp_pure]
    split_ifs <;> exact hkept

theorem readLength_keeps (input : List UInt8) (n k bits base inputOffset : ℕ) :
    Keeps input n k (recorded.readLength input bits base inputOffset) fun _ => Kept input.length n k := by
  intro s h
  rw [Machine.readLength,Proc.wp_ite]
  exact ⟨fun _ => readExtendedLength_keeps input n k _ _ s h,fun _ => h⟩

/-- Storing bytes right after those written. -/
theorem Kept.wrote {inputSize n k : ℕ} {s : Recorded} (h : Kept inputSize n k s) {t : BufferState}
    (ht : t.buffer.size = s.state.buffer.size) (reads : List Access) (length : ℕ)
    (hfit : k + length ≤ n) (hreads : ∀ a ∈ reads, Allowed inputSize n s.accesses a) :
    Kept inputSize n (k + length) ⟨t,s.accesses ++ (reads ++ writesTo k length)⟩ := by
  have hwrites : ∀ a ∈ writesTo k length, Allowed inputSize n s.accesses a := by
    intro a ha
    obtain ⟨i,hi,rfl⟩ := List.mem_map.mp ha
    have hlt := List.mem_range.mp hi
    change k + i < n
    omega
  have hkept := h.record ht fun a ha => (List.mem_append.mp ha).elim (hreads a) (hwrites a)
  refine ⟨hkept.size_eq,hkept.disciplined,fun i hi => ?_⟩
  by_cases hlt : i < k
  · exact hkept.written i hlt
  · refine List.mem_append_right _ (List.mem_append_right _ (List.mem_map.mpr ⟨i - k,?_,?_⟩))
    · exact List.mem_range.mpr (by omega)
    · rw [Nat.add_sub_cancel' (not_lt.mp hlt)]

theorem storeBytes_size {s : BufferState} {offset : ℕ} {bytes : List UInt8}
    (h : offset + bytes.length ≤ s.buffer.size) {R : CompressionError → BufferState → Prop}
    {S : BufferState → Prop} :
    Proc.wp (storeBytes offset bytes) (fun _ t => t.buffer.size = s.buffer.size) R S s := by
  unfold Proc.wp storeBytes
  rw [if_pos h]
  rfl

theorem moveByte_size {s : BufferState} {target origin : ℕ} (ho : origin < s.buffer.size)
    (ht : target + 1 ≤ s.buffer.size) {R : CompressionError → BufferState → Prop}
    {S : BufferState → Prop} :
    Proc.wp (moveByte target origin) (fun _ t => t.buffer.size = s.buffer.size) R S s := by
  have hread : origin < s.buffer.contents.length := by rwa [MemoryBuffer.contents_length]
  have hstore := @storeBytes_size s target [s.buffer.contents[origin]] ht R S
  unfold Proc.wp at hstore ⊢
  rw [moveByte,List.getElem?_eq_getElem hread]
  exact hstore

theorem copyMatch_keeps (input : List UInt8) {n outputOffset offset : ℕ} (h₁ : 1 ≤ offset)
    (h₂ : offset ≤ outputOffset) (k : ℕ) (hfit : outputOffset + k ≤ n) :
    Keeps input n outputOffset (recorded.copyMatch outputOffset offset k)
      fun _ => Kept input.length n (outputOffset + k) := by
  intro s h
  induction k with
  | zero => exact h
  | succ k ih =>
    rw [Machine.copyMatch,Proc.wp_bind]
    refine Proc.wp_mono (ih (by omega)) (fun _ s₁ hkept => ?_) (fun _ _ h => h) fun _ h => h
    have hsize := hkept.size_eq
    have hread : ∀ a ∈ [Access.readOutput (outputOffset - offset + k)],
        Allowed input.length n s₁.accesses a := by
      intro a ha
      obtain rfl := List.mem_singleton.mp ha
      exact hkept.written _ (by omega)
    rw [recorded,wp_recording]
    refine Proc.wp_mono (moveByte_size (by omega) (by omega)) (fun _ t ht => ?_)
      (fun _ _ h => h) fun _ h => h
    exact hkept.wrote ht _ 1 (by omega) hread

theorem byteAt_keeps (input : List UInt8) (n k : ℕ) {i : ℕ} (hi : i < input.length) :
    Keeps input n k (recording [.readInput i] (byteAt input i)) fun _ => Kept input.length n k := by
  intro s h
  rw [wp_recording,byteAt,List.getElem?_eq_getElem hi]
  exact h.record rfl (by simpa [Allowed] using hi)

/-- The output is written up to the offset. -/
def KeptUpTo (input : List UInt8) (n : ℕ) (v : DecodeVars) (s : Recorded) : Prop :=
  v.outputOffset ≤ n ∧ Kept input.length n v.outputOffset s

theorem decodeMatch_keeps (input : List UInt8) {n : ℕ} (token : UInt8) {v : DecodeVars} :
    Keeps input n v.outputOffset (recorded.decodeMatch input n token v)
      fun c s' => c.elim (KeptUpTo input n · s') (KeptUpTo input n · s') := by
  intro s h
  simp only [Machine.decodeMatch,recorded,Proc.wp_bind,Proc.wp_returnIf,Proc.wp_pure]
  refine ⟨fun _ => h.disciplined,fun _ => ⟨fun _ => h.disciplined,fun hshort => ?_⟩⟩
  refine Proc.wp_mono (byteAt_keeps input n _ (by omega) s h) (fun low s₁ h₁ => ?_)
    (fun _ _ h => h) fun _ h => h
  refine Proc.wp_mono (byteAt_keeps input n _ (by omega) s₁ h₁) (fun high s₂ h₂ => ?_)
    (fun _ _ h => h) fun _ h => h
  refine ⟨fun _ => h₂.disciplined,fun hoffset => ?_⟩
  refine Proc.wp_mono (readLength_keeps input n _ _ _ _ s₂ h₂) (fun p s₃ h₃ => ?_)
    (fun _ _ h => h) fun _ h => h
  refine ⟨fun _ => h₃.disciplined,fun hroom => ?_⟩
  refine Proc.wp_mono (copyMatch_keeps input (by omega) (by omega) p.2 (by omega) s₃ h₃)
    (fun _ s₄ h₄ => ?_) (fun _ _ h => h) fun _ h => h
  exact ⟨not_lt.mp hroom,h₄⟩

theorem decodeStep_keeps (input : List UInt8) {n : ℕ} {v : DecodeVars} (hv : v.outputOffset ≤ n) :
    Keeps input n v.outputOffset (recorded.decodeStep input n v)
      fun c s' => c.elim (KeptUpTo input n · s') (KeptUpTo input n · s') := by
  intro s h
  unfold Machine.decodeStep
  cases hread : input[v.inputOffset]? with
  | none => exact ⟨hv,h⟩
  | some token =>
    have hlt : v.inputOffset < input.length := (List.getElem?_eq_some_iff.mp hread).1
    have hkept : Kept input.length n v.outputOffset ⟨s.state,s.accesses ++ [.readInput v.inputOffset]⟩ :=
      h.record rfl (by simpa [Allowed] using hlt)
    simp only [recorded,Proc.wp_bind,wp_recording,Proc.wp_pure]
    refine Proc.wp_mono (readLength_keeps input n _ _ _ _ _ hkept) (fun p s₁ h₁ => ?_)
      (fun _ _ h => h) fun _ h => h
    simp only [Proc.wp_returnIf]
    refine ⟨fun _ => h₁.disciplined,fun hin => ⟨fun _ => h₁.disciplined,fun hroom => ?_⟩⟩
    have hlen : ((input.drop p.1).take p.2).length = p.2 := by
      rw [List.length_take,List.length_drop]
      omega
    have hreads : ∀ a ∈ readsFrom p.1 p.2, Allowed input.length n s₁.accesses a := by
      intro a ha
      obtain ⟨i,hi,rfl⟩ := List.mem_map.mp ha
      have hlt := List.mem_range.mp hi
      change p.1 + i < input.length
      omega
    rw [copyLiterals,if_pos (not_lt.mp hin)]
    refine Proc.wp_mono (storeBytes_size (by rw [h₁.size_eq,hlen]; omega)) (fun _ t ht => ?_)
      (fun _ _ h => h) fun _ h => h
    exact decodeMatch_keeps input token _
      (h₁.wrote ht _ p.2 (by omega) hreads)

/-- Every access of the decoder is allowed. -/
theorem decompressLzLiteBlock_keeps (input : List UInt8) (n : ℕ) (s : BufferState) :
    Proc.wp (Recorded.decompressLzLiteBlock input n)
      (fun _ s' => Disciplined input.length n s'.accesses)
      (fun _ s' => Disciplined input.length n s'.accesses)
      (fun s' => Disciplined input.length n s'.accesses) ⟨s,[]⟩ := by
  have hnone : Disciplined input.length n [] := by
    intro before a after heq
    simp at heq
  simp only [Recorded.decompressLzLiteBlock,Machine.decompressLzLiteBlock,recorded,Proc.wp_bind,wp_recording,Proc.wp_modify,Proc.wp_lift,
    Proc.wp_returnIf,Proc.wp_pure,List.append_nil]
  refine ⟨fun _ => hnone,fun hresized => ?_⟩
  obtain ⟨-,htrue,-⟩ := MemoryBuffer.resize_spec n ⟨s.buffer.clear,s.heap⟩
  have hstart : KeptUpTo input n ⟨0,0⟩ ⟨(resize n ⟨s.buffer.clear,s.heap⟩).2,[]⟩ :=
    ⟨Nat.zero_le n,(htrue (Bool.eq_true_of_not_eq_false hresized)).1,hnone,by simp⟩
  refine Proc.wp_mono (Proc.wp_loop (J := KeptUpTo input n) (fun v s h => ?_)
    (fun _ _ h => h.2.disciplined) _ _ hstart) (fun _ _ h => h.2.disciplined) (fun _ _ h => h)
    fun _ h => h
  exact decodeStep_keeps input h.1 s h.2

/-- The decoder returns, having made only allowed accesses; it accepts exactly the payloads of the
grammar, with what they stand for, whatever its buffer held before; and it refuses all others as
corrupt, unless it got no memory. -/
theorem decoder_accepts_grammar (payload : List UInt8) (n : ℕ) (s : BufferState) :
    ∃ error s' accesses,
      Proc.exec (decompressLzLiteBlock payload n) s = (some error,s') ∧
      Proc.exec (Recorded.decompressLzLiteBlock payload n) ⟨s,[]⟩ = (some error,⟨s',accesses⟩) ∧
      Disciplined payload.length n accesses ∧
      (error = .noMemory ∧ ¬s.heap.Ample n ∨
        (∀ o, error = .ok ∧ s'.buffer.contents = o ↔ LzLite.Denotes payload n o) ∧
        (error ≠ .ok → error = .corruptData)) := by
  obtain ⟨error,s',hexec,hdecoded⟩ := Proc.exec_returns (decompressLzLiteBlock_spec payload n s)
  obtain ⟨accesses,hrecorded⟩ := (decompressLzLiteBlock_records payload n).exec_eq hexec
  have hallowed := Proc.exec_of_wp (decompressLzLiteBlock_keeps payload n s) hrecorded
  refine ⟨error,s',accesses,hexec,hrecorded,hallowed,?_⟩
  rcases hdecoded.2 with ⟨rfl,hparse⟩ | ⟨rfl,hparse⟩ | hmemory
  · refine .inr ⟨fun o => ?_,fun hne => absurd rfl hne⟩
    rw [← LzLite.decodeBlock_iff,hparse,Option.some_inj]
    simp
  · refine .inr ⟨fun o => ?_,fun _ => rfl⟩
    rw [← LzLite.decodeBlock_iff,hparse]
    simp
  · exact .inl hmemory

end Codec
end EspCompressor
