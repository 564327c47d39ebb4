import EspCompressor.Cancellation

/-! How soon a run sees that it is cancelled: the calls that it makes between two loads of the cancel flag, and
that it ends once a load finds the flag set, whatever the source does. -/
namespace EspCompressor

/-- The calls since the last load of the cancel flag. -/
def sinceLoad (trace : List IoEvent) : ℕ := (trace.reverse.takeWhile fun e => !e.isLoad).length

@[simp] theorem sinceLoad_nil : sinceLoad [] = 0 := rfl

theorem sinceLoad_concat (trace : List IoEvent) (e : IoEvent) :
    sinceLoad (trace ++ [e]) = if e.isLoad = true then 0 else sinceLoad trace + 1 := by
  cases h : e.isLoad <;> simp [sinceLoad,h]

/-- At no moment of the run have there been more than `n` calls since the flag was last loaded. -/
def Prompt (n : ℕ) (trace : List IoEvent) : Prop := ∀ before, before <+: trace → sinceLoad before ≤ n

theorem Prompt.nil (n : ℕ) : Prompt n [] := by
  intro before hbefore
  rw [List.prefix_nil.mp hbefore]
  exact Nat.zero_le n

theorem Prompt.concat {n : ℕ} {trace : List IoEvent} {e : IoEvent} (h : Prompt n trace)
    (he : sinceLoad (trace ++ [e]) ≤ n) : Prompt n (trace ++ [e]) := by
  intro before hbefore
  obtain rfl | hbefore := List.prefix_concat_iff.mp hbefore
  · exact he
  · exact h before hbefore

theorem Prompt.mono {m n : ℕ} {trace : List IoEvent} (h : Prompt m trace) (hmn : m ≤ n) : Prompt n trace :=
  fun before hbefore => (h before hbefore).trans hmn

/-- The bytes that the source has delivered. -/
def IoEvent.delivered : IoEvent → List UInt8
  | .read _ _ data => data
  | _ => []

def delivered (trace : List IoEvent) : List UInt8 := trace.flatMap IoEvent.delivered

@[simp] theorem delivered_nil : delivered [] = [] := rfl

@[simp] theorem delivered_append (trace more : List IoEvent) :
    delivered (trace ++ more) = delivered trace ++ delivered more := by simp [delivered]

@[simp] theorem delivered_singleton (e : IoEvent) : delivered [e] = e.delivered := by simp [delivered]

/-- The block size that the delivered container announces. -/
def announcedBlockSize (trace : List IoEvent) : ℕ :=
  (EscFormat.decodeEscHeader ((delivered trace).take kEscEncodedHeaderSize) {}).2.blockSize.toNat

namespace Compressor

variable {σ κ ρ α β : Type}

/-- The run that has begun in `s₀` has made at most `a` calls since the last load, and never more than `k`. -/
structure Paced (k a : ℕ) (s₀ s : RunState σ κ) : Prop where
  since : sinceLoad s.trace ≤ a
  prompt : Prompt k s.trace
  grows : s₀.trace <+: s.trace

theorem Paced.relax {k a : ℕ} {s₀ s : RunState σ κ} (h : Paced k a s₀ s) : Paced k k s₀ s :=
  ⟨h.prompt _ (List.prefix_refl _),h.prompt,h.grows⟩

theorem Paced.mono {k a b : ℕ} {s₀ s : RunState σ κ} (h : Paced k a s₀ s) (hab : a ≤ b) : Paced k b s₀ s :=
  ⟨h.since.trans hab,h.prompt,h.grows⟩

/-- A call that is no load. -/
theorem Paced.call {k a : ℕ} {s₀ s s' : RunState σ κ} (h : Paced k a s₀ s) (e : IoEvent) (he : e.isLoad = false)
    (htrace : s'.trace = s.trace ++ [e]) (hak : a < k) : Paced k (a + 1) s₀ s' := by
  have hsince : sinceLoad s'.trace ≤ a + 1 := by
    rw [htrace,sinceLoad_concat,he]
    exact Nat.succ_le_succ h.since
  refine ⟨hsince,?_,?_⟩
  · rw [htrace] at hsince ⊢
    exact h.prompt.concat (hsince.trans hak)
  · rw [htrace]
    exact h.grows.trans (List.prefix_append _ _)

theorem Paced.load {k a : ℕ} {s₀ s s' : RunState σ κ} (h : Paced k a s₀ s) (answer : Bool)
    (htrace : s'.trace = s.trace ++ [.cancelLoad answer]) : Paced k 0 s₀ s' := by
  have hsince : sinceLoad s'.trace = 0 := by
    rw [htrace,sinceLoad_concat]
    rfl
  refine ⟨hsince.le,?_,?_⟩
  · rw [htrace] at hsince ⊢
    exact h.prompt.concat (hsince.le.trans (Nat.zero_le k))
  · rw [htrace]
    exact h.grows.trans (List.prefix_append _ _)

/-- Neither a call nor a load. -/
theorem Paced.quiet {k a : ℕ} {s₀ s s' : RunState σ κ} (h : Paced k a s₀ s) (htrace : s'.trace = s.trace) :
    Paced k a s₀ s' := by
  refine ⟨?_,?_,?_⟩
  · rw [htrace]
    exact h.since
  · rw [htrace]
    exact h.prompt
  · rw [htrace]
    exact h.grows

/-- A statement without loads: from at most `a` calls since the last load to at most `b`. -/
def Takes (k a b : ℕ) (m : Proc ρ (RunState σ κ) α) : Prop :=
  ∀ s₀ s, Paced k a s₀ s → Proc.wp m (fun _ s' => Paced k b s₀ s' ∧ s'.loads = s.loads)
    (fun _ s' => Paced k k s₀ s') (fun _ => False) s

section Rules

variable {k a b c : ℕ} {m : Proc ρ (RunState σ κ) α}

theorem Takes.pure (x : α) : Takes k a a (Pure.pure x : Proc ρ (RunState σ κ) α) := fun _ _ h => ⟨h,rfl⟩

theorem Takes.bind {f : α → Proc ρ (RunState σ κ) β} (hm : Takes k a b m) (hf : ∀ x, Takes k b c (f x)) :
    Takes k a c (m >>= f) := fun s₀ s h => by
  rw [Proc.wp_bind]
  refine Proc.wp_mono (hm s₀ s h) (fun x s' h' => ?_) (fun _ _ h' => h') fun _ h' => h'
  refine Proc.wp_mono (hf x s₀ s' h'.1) (fun y s'' h'' => ?_) (fun _ _ h'' => h'') fun _ h'' => h''
  exact ⟨h''.1,h''.2.trans h'.2⟩

theorem Takes.mono (hm : Takes k a b m) (hbc : b ≤ c) : Takes k a c m := fun s₀ s h =>
  Proc.wp_mono (hm s₀ s h) (fun _ _ h' => ⟨h'.1.mono hbc,h'.2⟩) (fun _ _ h' => h') fun _ h' => h'

theorem Takes.ite {p : Prop} [Decidable p] {n : Proc ρ (RunState σ κ) α} (hm : p → Takes k a b m)
    (hn : ¬p → Takes k a b n) : Takes k a b (if p then m else n) := fun s₀ s h => by
  rw [Proc.wp_ite]
  exact ⟨fun hp => hm hp s₀ s h,fun hp => hn hp s₀ s h⟩

theorem Takes.returnIf (p : Prop) [Decidable p] (r : ρ) :
    Takes k a a (Proc.returnIf p r : Proc ρ (RunState σ κ) Unit) := fun _ _ h => by
  rw [Proc.wp_returnIf]
  exact ⟨fun _ => h.relax,fun _ => ⟨h,rfl⟩⟩

/-- What follows a check that has been passed. -/
theorem Takes.unless {p : Prop} [Decidable p] {r : ρ} (hm : ¬p → Takes k a b m) :
    Takes k a b (do
      Proc.returnIf p r
      m) := fun s₀ s h => by
  rw [Proc.wp_bind,Proc.wp_returnIf]
  exact ⟨fun _ => h.relax,fun hp => hm hp s₀ s h⟩

theorem Takes.check (result : CompressionResult) (e : CompressionError) :
    Takes k a a (check result e : Proc CompressionResult (RunState σ κ) Unit) := Takes.returnIf _ _

theorem Takes.get (f : RunState σ κ → α) : Takes k a a (Proc.get f : Proc ρ (RunState σ κ) α) :=
  fun _ _ h => ⟨h,rfl⟩

/-- One call that is recorded. -/
theorem Takes.call {f : RunState σ κ → α × RunState σ κ} (e : RunState σ κ → IoEvent)
    (he : ∀ s, (e s).isLoad = false) (htrace : ∀ s, (f s).2.trace = s.trace ++ [e s])
    (hloads : ∀ s, (f s).2.loads = s.loads) (hak : a < k) :
    Takes k a (a + 1) (Proc.lift f : Proc ρ (RunState σ κ) α) := fun _ s h =>
  ⟨h.call (e s) (he s) (htrace s) hak,hloads s⟩

end Rules

/-! ### The statements of a run -/

section Statements

variable {k a : ℕ}

theorem readSource_takes (source : CompressionSource σ) (capacity : ℕ) (hak : a < k) :
    Takes k a (a + 1) (readSource source capacity : Proc ρ (RunState σ κ) (ReadResult capacity)) :=
  Takes.call (fun s => .read capacity (source.read capacity s.source).1.err
    (source.read capacity s.source).1.data) (fun _ => rfl) (fun _ => rfl) (fun _ => rfl) hak

theorem sourceEof_takes (source : CompressionSource σ) (hak : a < k) :
    Takes k a (a + 1) (sourceEof source : Proc ρ (RunState σ κ) Bool) :=
  Takes.call (fun s => .eof (source.eof s.source).1) (fun _ => rfl) (fun _ => rfl) (fun _ => rfl) hak

theorem sourceHasKnownSize_takes (source : CompressionSource σ) (hak : a < k) :
    Takes k a (a + 1) (sourceHasKnownSize source : Proc ρ (RunState σ κ) Bool) :=
  Takes.call (fun s => .hasKnownSize (source.hasKnownSize s.source).1) (fun _ => rfl) (fun _ => rfl)
    (fun _ => rfl) hak

theorem sourceTotalSize_takes (source : CompressionSource σ) (hak : a < k) :
    Takes k a (a + 1) (sourceTotalSize source : Proc ρ (RunState σ κ) UInt64) :=
  Takes.call (fun s => .totalSize (source.totalSize s.source).1) (fun _ => rfl) (fun _ => rfl) (fun _ => rfl) hak

theorem emitProgress_takes (progress : CompressionProgress) (result : CompressionResult) (done : Bool)
    (hak : a < k) :
    Takes k a (a + 1) (emitProgress progress result done : Proc ρ (RunState σ κ) CompressionProgress) :=
  Takes.call (fun _ => .progress { progress with
    done := done, cancelled := decide (result.error = .cancelled) }) (fun _ => rfl) (fun _ => rfl)
    (fun _ => rfl) hak

theorem writeOrReturn_takes (sink : CompressionSink κ) (result : CompressionResult) (bytes : List UInt8)
    (hak : a < k) :
    Takes k a (a + 1) (writeOrReturn sink result bytes : Proc CompressionResult (RunState σ κ) Unit) :=
  Takes.bind (Takes.call (fun s => .write bytes (sink.write bytes s.sink).1) (fun _ => rfl) (fun _ => rfl)
    (fun _ => rfl) hak) fun _ => Takes.check _ _

theorem onBuffer_takes (buffer : MemoryBuffer) (op : BufferState → Bool × BufferState) :
    Takes k a a (onBuffer buffer op : Proc ρ (RunState σ κ) (Bool × MemoryBuffer)) := fun _ _ h =>
  ⟨h.quiet rfl,rfl⟩

/-- A call that fills a local buffer, and that returns. -/
theorem callWith_takes (buffer : MemoryBuffer) {f : Proc CompressionError BufferState CompressionError}
    (hf : ∀ t, Proc.wp f (fun _ _ => True) (fun _ _ => True) (fun _ => False) t) :
    Takes k a a (callWith buffer f : Proc ρ (RunState σ κ) (CompressionError × BufferState)) := fun s₀ s h => by
  rw [callWith,Proc.wp_callOn]
  exact Proc.wp_mono (hf _) (fun _ _ _ => ⟨h.quiet rfl,rfl⟩) (fun _ _ _ => ⟨h.quiet rfl,rfl⟩) fun _ h' => h'

theorem encodeEscHeader_returns (header : EscHeader) (t : BufferState) :
    Proc.wp (EscFormat.encodeEscHeader header) (fun _ _ => True) (fun _ _ => True) (fun _ => False) t :=
  Proc.wp_mono (EscFormat.encodeEscHeader_spec header t) (fun _ _ _ => trivial) (fun _ _ _ => trivial)
    fun _ h => h

theorem compressLzLiteBlock_returns (input : List UInt8) (windowSize : ℕ) (t : BufferState) :
    Proc.wp (Codec.compressLzLiteBlock input windowSize) (fun _ _ => True) (fun _ _ => True) (fun _ => False) t :=
  Proc.wp_mono (Codec.compressLzLiteBlock_spec input windowSize t) (fun _ _ _ => trivial)
    (fun _ _ _ => trivial) fun _ h => h

theorem decompressLzLiteBlock_returns (payload : List UInt8) (n : ℕ) (t : BufferState) :
    Proc.wp (Codec.decompressLzLiteBlock payload n) (fun _ _ => True) (fun _ _ => True) (fun _ => False) t :=
  Proc.wp_mono (Codec.decompressLzLiteBlock_spec payload n t) (fun _ _ _ => trivial)
    (fun _ _ _ => trivial) fun _ h => h

theorem startProgress_takes (ctx : RunContext σ κ) (hak : a + 1 < k) :
    Takes k a (a + 2) (startProgress ctx : Proc ρ (RunState σ κ) CompressionProgress) :=
  (sourceHasKnownSize_takes _ (by omega)).bind fun _ => (sourceTotalSize_takes _ hak).bind fun _ => Takes.pure _

/-! ### Compression -/

variable (ctx : RunContext σ κ)

theorem writeFileHeader_takes (result : CompressionResult) (hak : a + 3 < k) :
    Takes k a (a + 4) (writeFileHeader ctx result) := by
  have hsize : Takes k a (a + 2) (declaredSize ctx.source : Proc CompressionResult (RunState σ κ) UInt64) :=
    (sourceHasKnownSize_takes _ (by omega)).bind fun _ =>
      Takes.ite (fun _ => sourceTotalSize_takes _ (by omega)) fun _ => (Takes.pure _).mono (by omega)
  exact hsize.bind fun _ => (sourceHasKnownSize_takes _ (by omega)).bind fun _ =>
    (callWith_takes _ (encodeEscHeader_returns _)).bind fun _ => (Takes.check _ _).bind fun _ =>
    writeOrReturn_takes _ _ _ hak

theorem compressChunk_takes (v : CompressVars) (readBytes : ℕ) (hak : a + 3 < k) :
    Takes k a (a + 4) (compressChunk ctx v readBytes) :=
  (callWith_takes _ (compressLzLiteBlock_returns _ _)).bind fun _ => (Takes.check _ _).bind fun _ =>
    (sourceEof_takes _ (by omega)).bind fun _ => (Takes.check _ _).bind fun _ =>
    (writeOrReturn_takes _ _ _ (by omega)).bind fun _ => (writeOrReturn_takes _ _ _ (by omega)).bind fun _ =>
    (Takes.get _).bind fun _ => (emitProgress_takes _ _ _ hak).bind fun _ => Takes.pure _

theorem endOfInput_takes (v : CompressVars) (hak : a < k) : Takes k a (a + 1) (endOfInput ctx v) :=
  (sourceEof_takes _ hak).bind fun _ => (Takes.returnIf _ _).bind fun _ => Takes.pure _

theorem writeTerminator_takes (v : CompressVars) (hak : a < k) : Takes k a (a + 1) (writeTerminator ctx v) :=
  Takes.ite (fun _ => (Takes.check _ _).bind fun _ => (writeOrReturn_takes _ _ _ hak).bind fun _ =>
    (Takes.get _).bind fun _ => Takes.pure _) fun _ => (Takes.pure _).mono (by omega)

end Statements

/-! ### Rounds -/

/-- A statement that begins with a load of the flag: it goes on only when the flag is clear. -/
def Loads (ctx : RunContext σ κ) (k b : ℕ) (m : Proc ρ (RunState σ κ) α) : Prop :=
  ∀ s₀ s, Paced k k s₀ s → Proc.wp m
    (fun _ s' => Paced k b s₀ s' ∧ s'.loads = s.loads + 1 ∧ ctx.cancelRequested s.loads = false)
    (fun _ s' => Paced k k s₀ s') (fun _ => False) s

theorem shouldAbortForCancel_loads (ctx : RunContext σ κ) (k : ℕ) (result : CompressionResult) :
    Loads ctx k 0 (shouldAbortForCancel ctx result) := fun s₀ s h => by
  simp only [shouldAbortForCancel,Proc.wp_bind,loadCancel,Proc.wp_lift,Proc.wp_returnIf]
  have hload : Paced k 0 s₀ { s with
      loads := s.loads + 1, trace := s.trace ++ [.cancelLoad (ctx.cancelRequested s.loads)] } := h.load _ rfl
  exact ⟨fun _ => hload.relax,fun hclear => ⟨hload,trivial,by simpa using hclear⟩⟩

theorem Loads.bind {ctx : RunContext σ κ} {k b c : ℕ} {m : Proc ρ (RunState σ κ) α}
    {f : α → Proc ρ (RunState σ κ) β} (hm : Loads ctx k b m) (hf : ∀ x, Takes k b c (f x)) :
    Loads ctx k c (m >>= f) := fun s₀ s h => by
  rw [Proc.wp_bind]
  refine Proc.wp_mono (hm s₀ s h) (fun x s' h' => ?_) (fun _ _ h' => h') fun _ h' => h'
  refine Proc.wp_mono (hf x s₀ s' h'.1) (fun y s'' h'' => ?_) (fun _ _ h'' => h'') fun _ h'' => h''
  exact ⟨h''.1,h''.2.trans h'.2.1,h'.2.2⟩

/-- The run has begun `n` rounds, and has found the flag clear each time. -/
structure Clear (ctx : RunContext σ κ) (n : ℕ) (s : RunState σ κ) : Prop where
  loads : s.loads = n
  clear : ∀ i < n, ctx.cancelRequested i = false

/-- The rounds of a loop: only running out of rounds leaves it running. -/
theorem Loads.loop {ctx : RunContext σ κ} {k b : ℕ} {body : α → Proc ρ (RunState σ κ) (α ⊕ β)}
    (hbody : ∀ x, Loads ctx k b (body x)) (n : ℕ) (x : α) {begun : ℕ} {s₀ s : RunState σ κ} (h : Paced k k s₀ s)
    (hs : Clear ctx begun s) :
    Proc.wp (Proc.loop body n x) (fun _ s' => Paced k b s₀ s') (fun _ s' => Paced k k s₀ s')
      (fun s' => Paced k k s₀ s' ∧ Clear ctx (begun + n) s') s := by
  induction n generalizing x begun s with
  | zero => exact ⟨h,hs⟩
  | succ n ih =>
    rw [Proc.wp_loop_succ]
    refine Proc.wp_mono (hbody x s₀ s h) (fun c s' h' => ?_) (fun _ _ h' => h') fun _ h' => h'.elim
    obtain ⟨hpaced,hloads,hclear⟩ := h'
    cases c with
    | inr y => exact hpaced
    | inl x' =>
      have hnext : Clear ctx (begun + 1) s' := by
        refine ⟨by rw [hloads,hs.loads],fun i hi => ?_⟩
        obtain hi | rfl := Nat.lt_succ_iff_lt_or_eq.mp hi
        · exact hs.clear i hi
        · exact hs.loads ▸ hclear
      have hrest := ih x' hpaced.relax hnext
      rwa [Nat.add_assoc,Nat.add_comm 1 n] at hrest

theorem compressRound_loads (ctx : RunContext σ κ) {k : ℕ} (hk : 5 ≤ k) (v : CompressVars) :
    Loads ctx k 5 (compressRound ctx v) :=
  (shouldAbortForCancel_loads ctx k _).bind fun _ => (readSource_takes _ _ (by omega)).bind fun _ =>
    (Takes.check _ _).bind fun _ =>
    Takes.ite (fun _ => (endOfInput_takes ctx _ (by omega)).mono (by omega)) fun _ =>
      compressChunk_takes ctx _ _ (by omega)

/-! ### Decompression -/

/-- What reading exactly `size` bytes does: at most `size` reads, which have delivered those bytes. -/
theorem readLoop_takes {source : CompressionSource σ} {size k a : ℕ} (hak : a + size ≤ k) (n : ℕ)
    (p : List UInt8 × UInt64) {s₀ s : RunState σ κ} (h : Paced k (a + p.1.length) s₀ s) (hp : p.1.length ≤ size)
    (hn : size < p.1.length + n) :
    Proc.wp (Proc.loop (readRound source size) n p)
      (fun q s' => (Paced k (a + size) s₀ s' ∧ s'.loads = s.loads) ∧ q.1.length = size ∧
        ∃ bytes, q.1 = p.1 ++ bytes ∧ delivered s'.trace = delivered s.trace ++ bytes)
      (fun _ s' => Paced k k s₀ s') (fun _ => False) s := by
  induction n generalizing p s with
  | zero => omega
  | succ n ih =>
    rw [Proc.wp_loop_succ]
    simp only [readRound,Proc.wp_ite,Proc.wp_bind,readSource,Proc.wp_lift,Proc.wp_returnIf,Proc.wp_pure]
    refine ⟨fun hmore => ?_,fun hfull => ?_⟩
    · generalize source.read (size - p.1.length) s.source = r
      obtain ⟨⟨err,data,hfits⟩,source'⟩ := r
      have hread : Paced k (a + p.1.length + 1) s₀ { s with
          source := source', trace := s.trace ++ [.read (size - p.1.length) err data] } :=
        h.call _ rfl rfl (by omega)
      refine ⟨fun _ => hread.relax,fun _ => ⟨fun _ => hread.relax,fun hsome => ?_⟩⟩
      have hlength : 0 < data.length := Nat.pos_of_ne_zero hsome
      refine Proc.wp_mono (ih (p.1 ++ data,p.2 + UInt64.ofNat data.length) (hread.mono ?_) ?_ ?_)
        (fun q s' h' => ?_) (fun _ _ h' => h') fun _ h' => h'
      · simp only [List.length_append]
        omega
      · simp only [List.length_append]
        omega
      · simp only [List.length_append]
        omega
      · obtain ⟨hpaced,hsize,bytes,hbytes,hdelivered⟩ := h'
        refine ⟨hpaced,hsize,data ++ bytes,by rw [hbytes,List.append_assoc],?_⟩
        rw [hdelivered]
        simp [IoEvent.delivered]
    · have hsize : p.1.length = size := by omega
      exact ⟨⟨hsize ▸ h,trivial⟩,hsize,[],by simp,by simp⟩

theorem readOrReturn_paced (ctx : RunContext σ κ) (result : CompressionResult) (size : ℕ) (processed : UInt64)
    {k a : ℕ} (hak : a + size ≤ k) {s₀ s : RunState σ κ} (h : Paced k a s₀ s) :
    Proc.wp (readOrReturn ctx result size processed)
      (fun p s' => (Paced k (a + size) s₀ s' ∧ s'.loads = s.loads) ∧ p.1.length = size ∧
        delivered s'.trace = delivered s.trace ++ p.1)
      (fun _ s' => Paced k k s₀ s') (fun _ => False) s := by
  rw [readOrReturn,Proc.wp_mapReturn,readExact]
  refine Proc.wp_mono (readLoop_takes hak (size + 1) ([],processed) h (Nat.zero_le _) (by simp))
    (fun q s' h' => ?_) (fun _ _ h' => h') fun _ h' => h'
  obtain ⟨hpaced,hsize,bytes,hbytes,hdelivered⟩ := h'
  refine ⟨hpaced,hsize,?_⟩
  rw [hdelivered,hbytes]
  rfl

theorem readOrReturn_takes (ctx : RunContext σ κ) (result : CompressionResult) (size : ℕ) (processed : UInt64)
    {k a : ℕ} (hak : a + size ≤ k) : Takes k a (a + size) (readOrReturn ctx result size processed) :=
  fun _ _ h => Proc.wp_mono (readOrReturn_paced ctx result size processed hak h) (fun _ _ h' => h'.1)
    (fun _ _ h' => h') fun _ h' => h'

section Decompression

variable (ctx : RunContext σ κ) {k a : ℕ}

theorem readPayload_takes (v : DecompressVars) (storedSize : ℕ) (hak : a + storedSize ≤ k) :
    Takes k a (a + storedSize) (readPayload ctx v storedSize) :=
  (onBuffer_takes _ _).bind fun _ => (Takes.returnIf _ _).bind fun _ =>
    Takes.ite (fun _ => (readOrReturn_takes ctx _ _ _ hak).bind fun _ => Takes.pure _) fun _ =>
      (Takes.pure _).mono (by omega)

theorem writeBlock_takes (v : DecompressVars) (blockHeader : EscBlockHeader) (hak : a < k) :
    Takes k a (a + 1) (writeBlock ctx v blockHeader) :=
  Takes.ite (fun _ => (Takes.returnIf _ _).bind fun _ => (Takes.returnIf _ _).bind fun _ =>
      (writeOrReturn_takes _ _ _ hak).bind fun _ => Takes.pure _) fun _ =>
    (callWith_takes _ (decompressLzLiteBlock_returns _ _)).bind fun _ => (Takes.check _ _).bind fun _ =>
      (Takes.returnIf _ _).bind fun _ => (writeOrReturn_takes _ _ _ hak).bind fun _ => Takes.pure _

theorem storedSize_le {header : EscHeader} {blockHeader : EscBlockHeader}
    (h : ¬validateEscBlockBounds header blockHeader = false) :
    blockHeader.storedSize.toNat ≤ header.blockSize.toNat := by
  unfold validateEscBlockBounds at h
  split_ifs at h with _ hblock hstored
  · exact absurd rfl h
  · exact absurd rfl h
  · exact absurd rfl h
  · exact absurd rfl h
  · rw [UInt32.not_lt,UInt32.le_iff_toNat_le] at hblock hstored
    exact hstored.trans hblock

theorem decompressRound_loads {header : EscHeader} (hk : 15 + header.blockSize.toNat ≤ k) (v : DecompressVars) :
    Loads ctx k (15 + header.blockSize.toNat) (decompressRound ctx header v) := by
  refine (shouldAbortForCancel_loads ctx k _).bind fun _ => ?_
  refine (readOrReturn_takes ctx _ kEscEncodedBlockHeaderSize _ ?_).bind fun headerBytes => ?_
  · simp only [kEscEncodedBlockHeaderSize]
    omega
  refine (Takes.check _ _).bind fun _ => Takes.unless fun hvalid => ?_
  have hstored := storedSize_le hvalid
  have hsize : kEscEncodedBlockHeaderSize = 13 := rfl
  exact (readPayload_takes ctx _ _ (by omega)).bind fun _ => (writeBlock_takes ctx _ _ (by omega)).bind fun _ =>
    ((emitProgress_takes _ _ _ (by omega)).mono (by omega)).bind fun _ => Takes.pure _

end Decompression

/-! ### Whole runs -/

/-- A statement that may load the flag, and that does not go on for ever. -/
def Finishes (k a : ℕ) (m : Proc ρ (RunState σ κ) α) : Prop :=
  ∀ s₀ s, Paced k a s₀ s → Proc.wp m (fun _ s' => Paced k k s₀ s') (fun _ s' => Paced k k s₀ s') (fun _ => False) s

/-- A statement that begins before the first load. -/
def Ends (ctx : RunContext σ κ) (fuel k a : ℕ) (m : Proc ρ (RunState σ κ) α) : Prop :=
  ∀ s₀ s, Paced k a s₀ s → s.loads = 0 → Proc.wp m (fun _ s' => Paced k k s₀ s') (fun _ s' => Paced k k s₀ s')
    (fun s' => Paced k k s₀ s' ∧ Clear ctx fuel s') s

section Whole

variable {ctx : RunContext σ κ} {fuel k a b : ℕ} {m : Proc ρ (RunState σ κ) α} {f : α → Proc ρ (RunState σ κ) β}

theorem Takes.bind_finishes (hm : Takes k a b m) (hf : ∀ x, Finishes k b (f x)) : Finishes k a (m >>= f) :=
  fun s₀ s h => by
    rw [Proc.wp_bind]
    exact Proc.wp_mono (hm s₀ s h) (fun x s' h' => hf x s₀ s' h'.1) (fun _ _ h' => h') fun _ h' => h'

theorem Loads.finishes (hm : Loads ctx k b m) : Finishes k a m := fun s₀ s h =>
  Proc.wp_mono (hm s₀ s h.relax) (fun _ _ h' => h'.1.relax) (fun _ _ h' => h') fun _ h' => h'

theorem Takes.bind_ends (hm : Takes k a b m) (hf : ∀ x, Ends ctx fuel k b (f x)) : Ends ctx fuel k a (m >>= f) :=
  fun s₀ s h hloads => by
    rw [Proc.wp_bind]
    exact Proc.wp_mono (hm s₀ s h) (fun x s' h' => hf x s₀ s' h'.1 (h'.2.trans hloads)) (fun _ _ h' => h')
      fun _ h' => h'.elim

/-- The block loop and what comes after it. -/
theorem Loads.loop_ends {γ : Type} {body : γ → Proc ρ (RunState σ κ) (γ ⊕ α)}
    (hbody : ∀ x, Loads ctx k b (body x)) (hf : ∀ y, Finishes k b (f y)) (x : γ) :
    Ends ctx fuel k a (Proc.loop body fuel x >>= f) := fun s₀ s h hloads => by
  rw [Proc.wp_bind]
  have hnone : Clear ctx 0 s := ⟨hloads,fun i hi => absurd hi (Nat.not_lt_zero i)⟩
  refine Proc.wp_mono (Loads.loop hbody fuel x h.relax hnone) (fun y s' h' => ?_) (fun _ _ h' => h') fun s' h' => ?_
  · exact Proc.wp_mono (hf y s₀ s' h') (fun _ _ h'' => h'') (fun _ _ h'' => h'') fun _ h'' => h''.elim
  · rwa [Nat.zero_add] at h'

end Whole

theorem commitSession_takes (ctx : RunContext σ κ) (result : CompressionResult) {k a : ℕ} (hak : a < k) :
    Takes k a (a + 1) (commitSession ctx result) := by
  have hcommitted : Takes k (a + 1) (a + 1) (Proc.modify (fun s => { s with committed := true }) :
      Proc CompressionResult (RunState σ κ) Unit) := fun _ _ h => ⟨h.quiet rfl,rfl⟩
  exact (Takes.call (fun s => .commit (ctx.sink.commit s.sink).1) (fun _ => rfl) (fun _ => rfl)
    (fun _ => rfl) hak).bind fun _ => (Takes.check _ _).bind fun _ => hcommitted.bind fun _ => Takes.pure _

/-- Closing the session takes three calls at most. -/
theorem Paced.destroy {ctx : RunContext σ κ} {k : ℕ} {s₀ s : RunState σ κ} (h : Paced k k s₀ s) :
    Paced (k + 3) (k + 3) s₀ (destroySession ctx s) := by
  have hwide : Paced (k + 3) k s₀ s := ⟨h.since,h.prompt.mono (by omega),h.grows⟩
  have hclose : ∀ {a : ℕ} {t : RunState σ κ}, a + 1 < k + 3 → Paced (k + 3) a s₀ t → Paced (k + 3) (a + 2) s₀ { t with
      sink := ctx.sink.close t.sink
      source := ctx.source.close t.source
      trace := t.trace ++ [.sinkClose,.sourceClose] } := by
    intro a t ha ht
    have hsink : Paced (k + 3) (a + 1) s₀ { t with trace := t.trace ++ [.sinkClose] } :=
      ht.call .sinkClose rfl rfl (by omega)
    exact hsink.call .sourceClose rfl (by simp) ha
  unfold destroySession
  split_ifs
  · exact hclose (by omega) (hwide.call .abort rfl rfl (by omega))
  · exact (hclose (by omega) hwide).mono (by omega)

theorem compressSession_ends (ctx : RunContext σ κ) (result : CompressionResult) (fuel : ℕ) :
    Ends ctx fuel 8 2 (compressSession ctx result fuel) := by
  refine (onBuffer_takes _ _).bind_ends fun _ => (Takes.returnIf _ _).bind_ends fun _ =>
    (writeFileHeader_takes ctx _ (by omega)).bind_ends fun _ => (startProgress_takes ctx (by omega)).bind_ends fun _ =>
    (Takes.get _).bind_ends fun _ => Loads.loop_ends (compressRound_loads ctx (by omega)) (fun v => ?_) _
  exact (writeTerminator_takes ctx v (by omega)).bind_finishes fun _ =>
    ((shouldAbortForCancel_loads ctx 8 _).bind fun _ => (commitSession_takes (a := 0) ctx _ (by omega)).bind fun _ =>
      (Takes.get _).bind fun _ => (emitProgress_takes _ _ _ (by omega)).bind fun _ => Takes.pure _).finishes

/-- The block size that the header has announced stays announced. -/
theorem announcedBlockSize_of_grown {trace more : List IoEvent} (hlength : (delivered trace).length = kEscEncodedHeaderSize)
    (h : trace <+: more) :
    announcedBlockSize more = (EscFormat.decodeEscHeader (delivered trace) {}).2.blockSize.toNat := by
  obtain ⟨after,rfl⟩ := h
  rw [announcedBlockSize,delivered_append,List.take_append_of_le_length hlength.ge,List.take_of_length_le hlength.le]

/-- Reading the file header: at most one read for each of its bytes. -/
theorem readFileHeader_paced (ctx : RunContext σ κ) (result : CompressionResult) {s₀ s : RunState σ κ}
    (h : Paced 28 2 s₀ s) (hs : delivered s.trace = []) :
    Proc.wp (readFileHeader ctx result)
      (fun p s' => (Paced 28 26 s₀ s' ∧ s'.loads = s.loads) ∧ (delivered s'.trace).length = kEscEncodedHeaderSize ∧
        p.1.blockSize = (EscFormat.decodeEscHeader (delivered s'.trace) {}).2.blockSize)
      (fun _ s' => Paced 28 28 s₀ s') (fun _ => False) s := by
  simp only [readFileHeader,Proc.wp_bind]
  refine Proc.wp_mono (readOrReturn_paced ctx result kEscEncodedHeaderSize 0 (k := 28) (a := 2) (by decide) h)
    (fun p s' h' => ?_) (fun _ _ h' => h') fun _ h' => h'
  obtain ⟨⟨hpaced,hloads⟩,hsize,hdelivered⟩ := h'
  rw [hs,List.nil_append] at hdelivered
  simp only [check,Proc.wp_returnIf,Proc.wp_pure]
  exact ⟨fun _ => hpaced.relax,fun _ => ⟨fun _ => hpaced.relax,fun _ => ⟨fun _ => hpaced.relax,fun _ =>
    ⟨fun _ => hpaced.relax,fun _ => ⟨⟨hpaced,hloads⟩,by rw [hdelivered,hsize],by rw [hdelivered]⟩⟩⟩⟩⟩

/-- The part of a decompression after the file header. -/
theorem decompressBlocks_ends (ctx : RunContext σ κ) (fuel : ℕ) (header : EscHeader) (v : CompressionProgress → DecompressVars) :
    Ends ctx fuel (28 + header.blockSize.toNat) 26 (do
      let progress ← startProgress ctx
      let v ← Proc.loop (decompressRound ctx header) fuel (v progress)
      Proc.returnIf (header.flags &&& kEscHeaderFlagUnknownOriginalSize = 0 ∧
        v.result.outputBytes ≠ header.originalSize) { v.result with error := .corruptData }
      shouldAbortForCancel ctx v.result
      let result ← commitSession ctx v.result
      let result := { result with inputBytes := v.processedCompressedInput }
      let _ ← emitProgress { v.progress with
        processedInputBytes := result.inputBytes, producedOutputBytes := result.outputBytes } result true
      pure result) := by
  refine (startProgress_takes ctx (by omega)).bind_ends fun _ =>
    Loads.loop_ends (decompressRound_loads ctx (by omega)) (fun v => ?_) _
  exact (Takes.returnIf _ _).bind_finishes fun _ =>
    ((shouldAbortForCancel_loads ctx (28 + header.blockSize.toNat) _).bind fun _ =>
      (commitSession_takes (a := 0) ctx _ (by omega)).bind fun _ => (emitProgress_takes _ _ _ (by omega)).bind fun _ =>
      Takes.pure _).finishes

/-- How many calls a run makes at most without looking at the flag. -/
def callBound : CompressionOperation → List IoEvent → ℕ
  | .compress, _ => 11
  | .decompress, trace => 31 + announcedBlockSize trace

/-- An open session that keeps within the bound. -/
def WithinBound (ctx : RunContext σ κ) (s : RunState σ κ) : Prop :=
  ∃ k s₀, Paced k k s₀ s ∧ k + 3 ≤ callBound ctx.operation s.trace

theorem WithinBound.destroy {ctx : RunContext σ κ} {s : RunState σ κ} (h : WithinBound ctx s) :
    Prompt (callBound ctx.operation (destroySession ctx s).trace) (destroySession ctx s).trace := by
  obtain ⟨k,s₀,hpaced,hbound⟩ := h
  have hsame : announcedBlockSize (destroySession ctx s).trace = announcedBlockSize s.trace := by
    unfold destroySession announcedBlockSize
    split_ifs <;> simp [delivered,IoEvent.delivered]
  have hbound : k + 3 ≤ callBound ctx.operation (destroySession ctx s).trace := by
    cases hop : ctx.operation with
    | compress => simpa [callBound,hop] using hbound
    | decompress => simpa [callBound,hop,hsame] using hbound
  exact hpaced.destroy.prompt.mono hbound

theorem session_prompt {ctx : RunContext σ κ} (fuel : ℕ) (result : CompressionResult)
    {m : Proc CompressionResult (RunState σ κ) CompressionResult} (source : σ) (k₀ : κ) (heap : Heap)
    (hm : ∀ s, Paced 2 2 (.start source k₀ heap) s → s.loads = 0 → delivered s.trace = [] →
      Proc.wp m (fun _ => WithinBound ctx) (fun _ => WithinBound ctx)
        (fun s' => WithinBound ctx s' ∧ Clear ctx fuel s') s) :
    Proc.wp (do
        requireTransactional ctx result
        Proc.destroying (destroySession ctx) do
          openSession ctx result
          m)
      (fun _ s => Prompt (callBound ctx.operation s.trace) s.trace)
      (fun _ s => Prompt (callBound ctx.operation s.trace) s.trace)
      (fun s => Prompt (callBound ctx.operation s.trace) s.trace ∧ Clear ctx fuel s)
      (.start source k₀ heap) := by
  have hfew : ∀ s : RunState σ κ, Paced 2 2 (.start source k₀ heap) s → WithinBound ctx s := fun s hs => by
    refine ⟨2,_,hs,?_⟩
    cases ctx.operation <;> simp [callBound]
    omega
  have hstart : Paced 2 0 (RunState.start source k₀ heap) (.start source k₀ heap) :=
    ⟨Nat.le_refl 0,Prompt.nil 2,List.prefix_refl _⟩
  simp only [requireTransactional,Proc.wp_bind,Proc.wp_get,Proc.wp_returnIf,Proc.wp_destroying]
  refine ⟨fun _ => Prompt.nil _,fun _ => ?_⟩
  simp only [openSession,openSource,openSink,check,Proc.wp_bind,Proc.wp_lift,Proc.wp_returnIf,Proc.wp_modify]
  generalize ctx.source.open' (RunState.start source k₀ heap).source = r
  obtain ⟨e,source'⟩ := r
  have hsource : Paced 2 1 (.start source k₀ heap) { RunState.start source k₀ heap with
      source := source', trace := (RunState.start source k₀ heap).trace ++ [.sourceOpen e] } :=
    hstart.call _ rfl rfl (by omega)
  refine ⟨fun _ => (hfew _ (hsource.mono (by omega))).destroy,fun _ => ?_⟩
  generalize ctx.sink.open' _ = r
  obtain ⟨e',sink'⟩ := r
  have hsink : Paced 2 2 (.start source k₀ heap) { RunState.start source k₀ heap with
      source := source'
      sink := sink'
      trace := (RunState.start source k₀ heap).trace ++ [.sourceOpen e] ++ [.sinkOpen e'] } :=
    hsource.call _ rfl rfl (by omega)
  refine ⟨fun _ => (hfew _ hsink).destroy,fun _ => ?_⟩
  refine Proc.wp_mono (hm _ (hsink.quiet rfl) rfl rfl) (fun _ _ h => h.destroy) (fun _ _ h => h.destroy) fun s h => ?_
  obtain ⟨⟨k,s₀,hpaced,hbound⟩,hclear⟩ := h
  exact ⟨hpaced.prompt.mono (by omega),hclear⟩

/-- Between two loads of the flag a run makes at most 11 calls when it compresses, and when it decompresses at
most 31 and one for each byte of a block; it is left running only when every round has found the flag clear. -/
theorem runSyncJob_prompt (ctx : RunContext σ κ) (fuel : ℕ) (source : σ) (k₀ : κ) (heap : Heap) :
    Proc.wp (runSyncJob ctx fuel) (fun _ s => Prompt (callBound ctx.operation s.trace) s.trace)
      (fun _ s => Prompt (callBound ctx.operation s.trace) s.trace)
      (fun s => Prompt (callBound ctx.operation s.trace) s.trace ∧ Clear ctx fuel s)
      (.start source k₀ heap) := by
  cases hop : ctx.operation with
  | compress =>
    have hwithin : ∀ {s₀ s : RunState σ κ}, Paced 8 8 s₀ s → WithinBound ctx s := fun h =>
      ⟨8,_,h,by simp [callBound,hop]⟩
    have hsession := session_prompt fuel (makeResult ctx.operation .ok) source k₀ heap
      (m := compressSession ctx (makeResult ctx.operation .ok) fuel) fun s hs hloads _ => by
        have hstart : Paced 8 2 (.start source k₀ heap) s := ⟨hs.since,hs.prompt.mono (by omega),hs.grows⟩
        exact Proc.wp_mono (compressSession_ends ctx _ fuel _ s hstart hloads) (fun _ _ h => hwithin h)
          (fun _ _ h => hwithin h) fun _ h => ⟨hwithin h.1,h.2⟩
    simp only [hop] at hsession
    simp only [runSyncJob,runSyncJobBy,hop,runCompress]
    rw [Proc.wp_bind,Proc.wp_returnIf]
    exact ⟨fun _ => Prompt.nil _,fun _ => hsession⟩
  | decompress =>
    have hsession := session_prompt fuel (makeResult ctx.operation .ok) source k₀ heap
      (m := decompressSession ctx (makeResult ctx.operation .ok) fuel) fun s hs hloads hnone => by
        have hstart : Paced 28 2 (.start source k₀ heap) s := ⟨hs.since,hs.prompt.mono (by omega),hs.grows⟩
        rw [decompressSession,decompressSessionBy,Proc.wp_bind]
        refine Proc.wp_mono (readFileHeader_paced ctx _ hstart hnone) (fun p s₁ h₁ => ?_) (fun _ s₁ h₁ => ?_)
          fun _ h => h.elim
        · obtain ⟨⟨hpaced,hloads₁⟩,hlength,hheader⟩ := h₁
          have hwithin : ∀ {s' : RunState σ κ}, Paced (28 + p.1.blockSize.toNat) (28 + p.1.blockSize.toNat) s₁ s' →
              WithinBound ctx s' := fun h =>
            ⟨_,s₁,h,by
              simp only [callBound,hop]
              rw [announcedBlockSize_of_grown hlength h.grows,hheader]
              omega⟩
          have hnext : Paced (28 + p.1.blockSize.toNat) 26 s₁ s₁ :=
            ⟨hpaced.since,hpaced.prompt.mono (by omega),List.prefix_refl _⟩
          exact Proc.wp_mono (decompressBlocks_ends ctx fuel p.1 _ s₁ s₁ hnext (hloads₁.trans hloads))
            (fun _ _ h => hwithin h) (fun _ _ h => hwithin h) fun _ h => ⟨hwithin h.1,h.2⟩
        · exact ⟨28,_,h₁,by simp [callBound,hop]⟩
    simp only [hop] at hsession
    simp only [runSyncJob,runSyncJobBy,hop,runDecompressBy]
    exact hsession

/-- The run sees in time that it is cancelled: it looks at the flag after so many calls at most, and it returns
once a load that it gets to finds the flag set. -/
structure SeesCancel (ctx : RunContext σ κ) (fuel : ℕ) (run : Option CompressionResult × RunState σ κ) : Prop where
  prompt : Prompt (callBound ctx.operation run.2.trace) run.2.trace
  returns : ∀ n < fuel, ctx.cancelRequested n = true → ∃ r, run.1 = some r

/-- Every job, on any source and any sink, also on a source that never ends. -/
theorem cancel_is_seen (ctx : RunContext σ κ) (fuel : ℕ) (source : σ) (k₀ : κ) (heap : Heap) :
    SeesCancel ctx fuel (Proc.exec (runSyncJob ctx fuel) (.start source k₀ heap)) := by
  obtain ⟨r,hr,hprompt⟩ | ⟨_,hprompt,hclear⟩ := Proc.exec_cases (runSyncJob_prompt ctx fuel source k₀ heap)
  · exact ⟨hprompt,fun _ _ _ => ⟨r,hr⟩⟩
  · refine ⟨hprompt,fun n hn hset => ?_⟩
    rw [hclear.clear n hn] at hset
    cases hset

/-- A source that never ends. -/
def endlessSource : CompressionSource Unit where
  open' s := (.ok,s)
  close s := s
  read capacity s := (⟨.ok,List.replicate (min capacity 1) 7,by simp⟩,s)
  eof s := (false,s)
  hasKnownSize s := (false,s)
  totalSize s := (0,s)

/-- The compression of an endless source, cancelled at the third look at the flag. -/
theorem cancel_is_seen_endless :
    let ctx : RunContext Unit PrintSink := {
      operation := .compress
      source := endlessSource
      sink := PrintSink.sink
      options := { allowPartialOutput := true }
      cancelRequested := fun n => decide (2 ≤ n) }
    let run := Proc.exec (runSyncJob ctx 3) (.start () ⟨⟨[],id,0⟩,0,false⟩ .unlimited)
    Prompt 11 run.2.trace ∧ ∃ r, run.1 = some r := by
  intro ctx run
  have hseen := cancel_is_seen ctx 3 () ⟨⟨[],id,0⟩,0,false⟩ .unlimited
  exact ⟨hseen.prompt,hseen.returns 2 (by decide) rfl⟩

end Compressor
end EspCompressor
