import EspCompressor.Salvage

/-! Sources whose reads may fail or give nothing at any time, but which do not lie: whatever they do, a
commit is only made once the whole result has been written. -/
namespace EspCompressor

/-- A source of `d` that does not lie: what it gives comes next in `d`, it reports no early end, and the size is
unknown, or it is the length of `d`. -/
structure Truthful {σ : Type} (source : CompressionSource σ) (d : List UInt8) (known : Bool)
    (Inv : List UInt8 → σ → Prop) : Prop where
  read_inv : ∀ {rest s} capacity, Inv rest s → ∃ rest',
    rest = (source.read capacity s).1.data ++ rest' ∧ Inv rest' (source.read capacity s).2
  eof_inv : ∀ {rest s}, Inv rest s → Inv rest (source.eof s).2
  hasKnownSize_inv : ∀ {rest s}, Inv rest s → Inv rest (source.hasKnownSize s).2
  totalSize_inv : ∀ {rest s}, Inv rest s → Inv rest (source.totalSize s).2
  eof_late : ∀ {rest s}, Inv rest s → (source.eof s).1 = true → rest = []
  known_eq : ∀ {rest s}, Inv rest s → (source.hasKnownSize s).1 = known
  size_eq : ∀ {rest s}, Inv rest s → known = true → (source.totalSize s).1 = UInt64.ofNat d.length

theorem Honest.truthful {σ : Type} {source : CompressionSource σ} {d : List UInt8} {known : Bool}
    {Inv : List UInt8 → σ → Prop} (h : Honest source d known Inv) : Truthful source d known Inv where
  read_inv := h.read_inv
  eof_inv := h.eof_inv
  hasKnownSize_inv := h.hasKnownSize_inv
  totalSize_inv := h.totalSize_inv
  eof_late := h.eof_late
  known_eq := h.known_eq
  size_eq := h.size_eq

namespace Compressor

open Container

variable {σ κ α β : Type}

/-! ### What is read -/

section Transcript

variable {source : CompressionSource σ} {d : List UInt8} {known : Bool} {Inv : List UInt8 → σ → Prop}

/-- A truthful source that is read to its end has given all that it has. -/
theorem truthful_readAll (h : Truthful source d known Inv) {blockSize n : ℕ} {rest : List UInt8} {s : σ}
    (hinv : Inv rest s) {chunks : List (List UInt8 × Bool)} (hchunks : readAll source blockSize n s = some chunks) :
    chunkData chunks = rest ∧ ∀ c ∈ chunks.dropLast, c.2 = false := by
  induction n generalizing rest s chunks with
  | zero => simp [readAll] at hchunks
  | succ n ih =>
    obtain ⟨rest',hrest,hinv'⟩ := h.read_inv blockSize hinv
    simp only [readAll] at hchunks
    split_ifs at hchunks with herr hempty hended
    · obtain rfl := Option.some.inj hchunks
      rw [List.length_eq_zero_iff.mp hempty,h.eof_late hinv' hended] at hrest
      exact ⟨hrest.symm,by simp⟩
    · rw [Option.map_eq_some_iff] at hchunks
      obtain ⟨cs,hcs,rfl⟩ := hchunks
      obtain ⟨hdata,hlast⟩ := ih (h.eof_inv hinv') hcs
      refine ⟨by rw [chunkData_cons,hdata,← hrest],?_⟩
      cases cs with
      | nil => simp
      | cons c cs =>
        rw [List.dropLast_cons_cons]
        refine List.forall_mem_cons.mpr ⟨?_,hlast⟩
        -- data came after this chunk, so the source had not ended
        by_contra hended
        have hnil := h.eof_late hinv' (Bool.eq_true_of_not_eq_false hended)
        have hne := (readAll_chunks hcs c List.mem_cons_self).1
        rw [hnil,chunkData_cons] at hdata
        exact hne (List.append_eq_nil_iff.mp hdata).1

theorem truthful_declared (h : Truthful source d known Inv) {s : σ} (hinv : Inv d s) :
    Inv d (declared source s).2 ∧ (known = true → (declared source s).1 = UInt64.ofNat d.length) := by
  have hasked := h.hasKnownSize_inv hinv
  unfold declared
  dsimp only
  rw [h.known_eq hinv]
  split_ifs with hknown
  · exact ⟨h.totalSize_inv hasked,fun _ => h.size_eq hasked hknown⟩
  · exact ⟨hasked,fun h => absurd h hknown⟩

/-- The header of a truthful source declares its size or leaves it open, and the chunks are its data. -/
theorem truthful_transcript (h : Truthful source d known Inv) {blockSize n : ℕ} {s : σ} (hinv : Inv d s)
    {header : EscHeader} {chunks : List (List UInt8 × Bool)}
    (htranscript : transcript source blockSize n s = some (header,chunks)) :
    chunkData chunks = d ∧ (∀ c ∈ chunks.dropLast, c.2 = false) ∧
      (¬UnknownSize header → header.originalSize = UInt64.ofNat d.length) := by
  rw [transcript,Option.map_eq_some_iff] at htranscript
  obtain ⟨cs,hcs,heq⟩ := htranscript
  obtain ⟨rfl,rfl⟩ := Prod.mk.inj heq
  obtain ⟨hdeclared,hsize⟩ := truthful_declared h hinv
  obtain ⟨hdata,hlast⟩ := truthful_readAll h
    (h.totalSize_inv (h.hasKnownSize_inv (h.hasKnownSize_inv hdeclared))) hcs
  refine ⟨hdata,hlast,fun hknown => hsize ?_⟩
  by_contra hno
  refine hknown ?_
  unfold UnknownSize fileHeader
  dsimp only
  rw [h.known_eq hdeclared,if_neg hno]
  decide

end Transcript

/-- A compression from a truthful source that returns `Ok` has written a container of the whole of it. -/
theorem truthful_compressed {ctx : RunContext σ κ} {d : List UInt8} {known : Bool} {Inv : List UInt8 → σ → Prop}
    (h : Truthful ctx.source d known Inv) {fuel : ℕ} {source : σ} {k₀ : κ} {heap : Heap}
    (hopened : Inv d (ctx.source.open' source).2) {r : CompressionResult} {s : RunState σ κ}
    (hrun : Proc.exec (runCompress ctx fuel) (.start source k₀ heap) = (some r,s)) (hok : r.error = .ok) :
    decode (written s.trace) = .ok (d,[]) := by
  obtain ⟨hdone,-⟩ := compressed_of_exec hrun hok
  obtain ⟨header,chunks,htranscript,hwritten,-⟩ := hdone.written_eq
  obtain ⟨hdata,hlast,hsize⟩ := truthful_transcript h hopened htranscript
  rw [hwritten,decode_of_transcript hdone.valid htranscript hlast (by rwa [hdata]),hdata]

/-! ### The moment of the commit -/

theorem commits_ne_nil_iff {trace : List IoEvent} : commits trace ≠ [] ↔ ∃ e, IoEvent.commit e ∈ trace := by
  rw [commits,ne_eq,List.flatMap_eq_nil_iff]
  push Not
  constructor
  · rintro ⟨e,he,hne⟩
    cases e <;> first | exact absurd rfl hne | exact ⟨_,he⟩
  · rintro ⟨e,he⟩
    exact ⟨_,he,by simp [IoEvent.commits]⟩

/-- Nothing is read or written after a commit. -/
theorem after_commit {before after : List IoEvent} {e : CompressionError}
    (h : Histories.Each CallAllowed (before ++ .commit e :: after)) : written after = [] ∧ delivered after = [] := by
  have hquiet : ∀ x ∈ after, x.written = [] ∧ x.delivered = [] := by
    intro x hx
    obtain ⟨mid,more,rfl⟩ := List.append_of_mem hx
    have hallowed := h (before ++ .commit e :: mid) x more (by simp)
    have hbefore : IoEvent.commit e ∈ before ++ .commit e :: mid := by simp
    cases x with
    | read n e' data => exact absurd hbefore (hallowed.2.2 e)
    | write bytes e' => exact absurd hbefore (hallowed.2.2 e)
    | _ => exact ⟨rfl,rfl⟩
  exact ⟨List.flatMap_eq_nil_iff.mpr fun x hx => (hquiet x hx).1,
    List.flatMap_eq_nil_iff.mpr fun x hx => (hquiet x hx).2⟩

section Commit

variable {ctx : RunContext σ κ} {fuel : ℕ} {source : σ} {k₀ : κ} {heap : Heap}

/-- A job whose commit has succeeded has returned `Ok`, and nothing was read or written after that commit. -/
theorem commit_ok_returns {before after : List IoEvent}
    (htrace : (jobRun ctx fuel source k₀ heap).2.trace = before ++ .commit .ok :: after) :
    (∃ r, (jobRun ctx fuel source k₀ heap).1 = some r ∧ r.error = .ok) ∧ written after = [] ∧ delivered after = [] := by
  have hmem : IoEvent.commit .ok ∈ (jobRun ctx fuel source k₀ heap).2.trace := by rw [htrace]; simp
  obtain ⟨r,hr,⟨-,-,hnone⟩ | ⟨-,hobeys⟩⟩ | ⟨-,-,hnone⟩ :=
    Proc.exec_cases (job_conforms ctx fuel source k₀ heap)
  · exact absurd hmem (by rw [jobRun,hnone]; simp)
  · have hordered := hobeys.ordered
    rw [← jobRun,htrace] at hordered
    exact ⟨⟨r,hr,hobeys.ok_iff.mpr hmem⟩,after_commit hordered⟩
  · exact absurd rfl (hnone _ hmem).2

/-- A job that has come to its commit has read and written what the job without faults reads and writes, and that
one returns `Ok`. -/
theorem committed_faultless (hcommit : commits (jobRun ctx fuel source k₀ heap).2.trace ≠ []) :
    ∃ r t, jobRun ctx.faultless fuel source k₀ heap = (some r,t) ∧ r.error = .ok ∧
      written t.trace = written (jobRun ctx fuel source k₀ heap).2.trace ∧
      delivered t.trace = delivered (jobRun ctx fuel source k₀ heap).2.trace := by
  obtain ⟨e,he⟩ := commits_ne_nil_iff.mp hcommit
  obtain ⟨hsame,hok⟩ | ⟨r,s,before,failed,hrun,hfaulty,hlater⟩ := same_or_faulted ctx fuel source k₀ heap
  · -- no call failed, so the commit succeeded
    obtain rfl : e = .ok := hok _ he
    obtain ⟨before,after,htrace⟩ := List.append_of_mem he
    obtain ⟨⟨r,hr,hdone⟩,-⟩ := commit_ok_returns htrace
    rw [← hsame]
    exact ⟨r,_,Prod.ext hr rfl,hdone,rfl,rfl⟩
  · -- the commit is the call that failed
    have hne : e ≠ .ok := by
      rintro rfl
      obtain ⟨before',after',hsplit⟩ := List.append_of_mem he
      obtain ⟨⟨r',hr',hdone⟩,-⟩ := commit_ok_returns hsplit
      rw [hrun] at hr'
      obtain rfl : r = r' := Option.some.inj hr'
      exact hfaulty.error_ne hdone
    rw [hrun] at he ⊢
    obtain rfl := hfaulty.failed_eq he hne
    obtain ⟨after,hafter⟩ := hlater
    have htrace : (jobRun ctx.faultless fuel source k₀ heap).2.trace = before ++ .commit .ok :: after := by
      rw [← hafter,List.append_assoc]
      rfl
    obtain ⟨⟨r',hr',hdone⟩,hwritten,hdelivered⟩ := commit_ok_returns htrace
    refine ⟨r',_,Prod.ext hr' rfl,hdone,?_,?_⟩
    · rw [hfaulty.written_eq,htrace,written_append,written_cons,hwritten]
      exact List.append_nil _
    · rw [hfaulty.delivered_eq,← hafter,delivered_append,hdelivered,List.append_nil]

end Commit

/-! ### What has been delivered -/

/-- `I got s` keeps up with a source: it is in the state `s` once it has delivered `got`. -/
structure Tracks (source : CompressionSource σ) (I : List UInt8 → σ → Prop) : Prop where
  read : ∀ {got s} capacity, I got s →
    I (got ++ (source.read capacity s).1.data) (source.read capacity s).2
  eof : ∀ {got s}, I got s → I got (source.eof s).2
  hasKnownSize : ∀ {got s}, I got s → I got (source.hasKnownSize s).2
  totalSize : ∀ {got s}, I got s → I got (source.totalSize s).2

/-- A run whose source is where `I` has it. -/
def Tracked (I : List UInt8 → σ → Prop) (s : RunState σ κ) : Prop := I (delivered s.trace) s.source

/-- An invariant of what a source still has to give keeps up with it. -/
theorem tracks_of_inv {source : CompressionSource σ} {Inv : List UInt8 → σ → Prop} (d : List UInt8)
    (hread : ∀ {rest s} capacity, Inv rest s → ∃ rest',
      rest = (source.read capacity s).1.data ++ rest' ∧ Inv rest' (source.read capacity s).2)
    (heof : ∀ {rest s}, Inv rest s → Inv rest (source.eof s).2)
    (hknown : ∀ {rest s}, Inv rest s → Inv rest (source.hasKnownSize s).2)
    (htotal : ∀ {rest s}, Inv rest s → Inv rest (source.totalSize s).2) :
    Tracks source fun got s => ∃ rest, d = got ++ rest ∧ Inv rest s := by
  refine ⟨?_,?_,?_,?_⟩
  · rintro got s capacity ⟨rest,rfl,hinv⟩
    obtain ⟨rest',rfl,hinv'⟩ := hread capacity hinv
    exact ⟨rest',(List.append_assoc _ _ _).symm,hinv'⟩
  · rintro got s ⟨rest,hd,hinv⟩
    exact ⟨rest,hd,heof hinv⟩
  · rintro got s ⟨rest,hd,hinv⟩
    exact ⟨rest,hd,hknown hinv⟩
  · rintro got s ⟨rest,hd,hinv⟩
    exact ⟨rest,hd,htotal hinv⟩

theorem truthful_tracks {source : CompressionSource σ} {d : List UInt8} {known : Bool} {Inv : List UInt8 → σ → Prop}
    (h : Truthful source d known Inv) : Tracks source fun got s => ∃ rest, d = got ++ rest ∧ Inv rest s :=
  tracks_of_inv d h.read_inv h.eof_inv h.hasKnownSize_inv h.totalSize_inv

theorem delivers_tracks {source : CompressionSource σ} {Inv : List UInt8 → σ → Prop} (h : Delivers source Inv)
    (d : List UInt8) : Tracks source fun got s => ∃ rest, d = got ++ rest ∧ Inv rest s :=
  tracks_of_inv d h.read_inv h.eof_inv h.hasKnownSize_inv h.totalSize_inv

/-- A statement that keeps up with the source. -/
def Keeps {ρ : Type} (I : List UInt8 → σ → Prop) (m : Proc ρ (RunState σ κ) α) : Prop :=
  ∀ s, Tracked I s → Proc.wp m (fun _ => Tracked I) (fun _ => Tracked I) (Tracked I) s

namespace Keeps

variable {ρ : Type} {I : List UInt8 → σ → Prop} {m : Proc ρ (RunState σ κ) α}

theorem pure (a : α) : Keeps I (Pure.pure a : Proc ρ (RunState σ κ) α) := fun _ h => h

theorem bind {f : α → Proc ρ (RunState σ κ) β} (hm : Keeps I m) (hf : ∀ a, Keeps I (f a)) : Keeps I (m >>= f) :=
  fun s h => by
    rw [Proc.wp_bind]
    exact Proc.wp_mono (hm s h) (fun a s' h' => hf a s' h') (fun _ _ h' => h') fun _ h' => h'

theorem ite {c : Prop} [Decidable c] {n : Proc ρ (RunState σ κ) α} (hm : Keeps I m) (hn : Keeps I n) :
    Keeps I (if c then m else n) := fun s h => by
  rw [Proc.wp_ite]
  exact ⟨fun _ => hm s h,fun _ => hn s h⟩

theorem loop {body : α → Proc ρ (RunState σ κ) (α ⊕ β)} (hbody : ∀ a, Keeps I (body a)) (n : ℕ) (a : α) :
    Keeps I (Proc.loop body n a) := fun s h => by
  refine Proc.wp_loop (I := fun _ => Tracked I) (fun a s h => ?_) (fun _ _ h => h) n a h
  refine Proc.wp_mono (hbody a s h) (fun c s' h' => ?_) (fun _ _ h' => h') fun _ h' => h'
  cases c <;> exact h'

theorem returnIf {c : Prop} [Decidable c] {r : ρ} : Keeps I (Proc.returnIf c r : Proc ρ (RunState σ κ) Unit) :=
  fun s h => by
    rw [Proc.wp_returnIf]
    exact ⟨fun _ => h,fun _ => h⟩

theorem get (f : RunState σ κ → α) : Keeps I (Proc.get f : Proc ρ (RunState σ κ) α) := fun _ h => h

/-- A call that leaves the source alone. -/
theorem quiet {f : RunState σ κ → α × RunState σ κ} (hsource : ∀ s, (f s).2.source = s.source)
    (hdelivered : ∀ s, delivered (f s).2.trace = delivered s.trace) :
    Keeps I (Proc.lift f : Proc ρ (RunState σ κ) α) := fun s h => by
  rw [Proc.wp_lift]
  change I (delivered (f s).2.trace) (f s).2.source
  rw [hsource,hdelivered]
  exact h

end Keeps

section Tracks

variable {ctx : RunContext σ κ} {I : List UInt8 → σ → Prop}

theorem delivered_more {e : IoEvent} (he : e.delivered = []) (trace : List IoEvent) :
    delivered (trace ++ [e]) = delivered trace := by
  rw [delivered_append,delivered_singleton,he,List.append_nil]

theorem keeps_read {ρ : Type} (h : Tracks ctx.source I) (capacity : ℕ) :
    Keeps I (readSource ctx.source capacity : Proc ρ (RunState σ κ) (ReadResult capacity)) := fun s hs => by
  rw [readSource,Proc.wp_lift]
  change I (delivered (s.trace ++ [_])) _
  rw [delivered_append,delivered_singleton]
  exact h.read capacity hs

theorem keeps_eof (h : Tracks ctx.source I) :
    Keeps I (sourceEof ctx.source : Proc CompressionResult (RunState σ κ) Bool) := fun s hs => by
  rw [sourceEof,Proc.wp_lift]
  change I (delivered (s.trace ++ [_])) _
  rw [delivered_more rfl]
  exact h.eof hs

theorem keeps_hasKnownSize (h : Tracks ctx.source I) :
    Keeps I (sourceHasKnownSize ctx.source : Proc CompressionResult (RunState σ κ) Bool) := fun s hs => by
  rw [sourceHasKnownSize,Proc.wp_lift]
  change I (delivered (s.trace ++ [_])) _
  rw [delivered_more rfl]
  exact h.hasKnownSize hs

theorem keeps_totalSize (h : Tracks ctx.source I) :
    Keeps I (sourceTotalSize ctx.source : Proc CompressionResult (RunState σ κ) UInt64) := fun s hs => by
  rw [sourceTotalSize,Proc.wp_lift]
  change I (delivered (s.trace ++ [_])) _
  rw [delivered_more rfl]
  exact h.totalSize hs

theorem keeps_check (r : CompressionResult) (e : CompressionError) :
    Keeps I (check r e : Proc CompressionResult (RunState σ κ) Unit) := Keeps.returnIf

theorem keeps_write (r : CompressionResult) (bytes : List UInt8) :
    Keeps I (writeOrReturn ctx.sink r bytes : Proc CompressionResult (RunState σ κ) Unit) :=
  (Keeps.quiet (fun _ => rfl) fun _ => delivered_more rfl _).bind fun _ => Keeps.returnIf

theorem keeps_cancel (r : CompressionResult) : Keeps I (shouldAbortForCancel ctx r) :=
  (Keeps.quiet (fun _ => rfl) fun _ => delivered_more rfl _).bind fun _ => Keeps.returnIf

theorem keeps_progress (progress : CompressionProgress) (r : CompressionResult) (done : Bool) :
    Keeps I (emitProgress progress r done : Proc CompressionResult (RunState σ κ) CompressionProgress) :=
  Keeps.quiet (fun _ => rfl) fun _ => delivered_more rfl _

theorem keeps_buffer (buffer : MemoryBuffer) (op : BufferState → Bool × BufferState) :
    Keeps I (onBuffer buffer op : Proc CompressionResult (RunState σ κ) (Bool × MemoryBuffer)) := fun _ h => h

theorem keeps_call (buffer : MemoryBuffer) {f : Proc CompressionError BufferState CompressionError}
    (hf : ∀ t, Proc.wp f (fun _ _ => True) (fun _ _ => True) (fun _ => True) t) :
    Keeps I (callWith buffer f : Proc CompressionResult (RunState σ κ) (CompressionError × BufferState)) := fun s h => by
  rw [callWith,Proc.wp_callOn]
  exact Proc.wp_mono (hf _) (fun _ _ _ => h) (fun _ _ _ => h) fun _ _ => h

theorem keeps_startProgress (h : Tracks ctx.source I) :
    Keeps I (startProgress ctx : Proc CompressionResult (RunState σ κ) CompressionProgress) :=
  (keeps_hasKnownSize h).bind fun _ => (keeps_totalSize h).bind fun _ => Keeps.pure _

theorem keeps_commit (r : CompressionResult) : Keeps I (commitSession ctx r) :=
  (Keeps.quiet (fun _ => rfl) fun _ => delivered_more rfl _).bind fun _ => Keeps.returnIf.bind fun _ =>
    Keeps.bind (fun _ h => h) fun _ => Keeps.pure _

theorem keeps_readExact (h : Tracks ctx.source I) (size : ℕ) (processedBytes : UInt64) :
    Keeps I (readExact ctx.source size processedBytes :
      Proc CompressionError (RunState σ κ) (List UInt8 × UInt64)) :=
  Keeps.loop (fun _ => Keeps.ite
    ((keeps_read h _).bind fun _ => Keeps.returnIf.bind fun _ => Keeps.returnIf.bind fun _ => Keeps.pure _)
    (Keeps.pure _)) _ _

theorem keeps_readOrReturn (h : Tracks ctx.source I) (r : CompressionResult) (size : ℕ) (processedBytes : UInt64) :
    Keeps I (readOrReturn ctx r size processedBytes) := fun s hs => by
  rw [readOrReturn,Proc.wp_mapReturn]
  exact keeps_readExact h size processedBytes s hs

theorem compressSession_keeps (h : Tracks ctx.source I) (r : CompressionResult) (fuel : ℕ) :
    Keeps I (compressSession ctx r fuel) := by
  have hheader : Keeps I (writeFileHeader ctx r) :=
    ((keeps_hasKnownSize h).bind fun _ => Keeps.ite (keeps_totalSize h) (Keeps.pure _)).bind fun _ =>
      (keeps_hasKnownSize h).bind fun _ => (keeps_call _ (encodeEscHeader_safe _)).bind fun _ =>
      (keeps_check _ _).bind fun _ => keeps_write _ _
  have hchunk : ∀ v n, Keeps I (compressChunk ctx v n) := fun v n =>
    (keeps_call _ (compressLzLiteBlock_safe _ _)).bind fun _ => (keeps_check _ _).bind fun _ =>
      (keeps_eof h).bind fun _ => (keeps_check _ _).bind fun _ => (keeps_write _ _).bind fun _ =>
      (keeps_write _ _).bind fun _ => (Keeps.get _).bind fun _ => (keeps_progress _ _ _).bind fun _ => Keeps.pure _
  have hround : ∀ v, Keeps I (compressRound ctx v) := fun v =>
    (keeps_cancel _).bind fun _ => (keeps_read h _).bind fun _ => (keeps_check _ _).bind fun _ => Keeps.ite
      ((keeps_eof h).bind fun _ => Keeps.returnIf.bind fun _ => Keeps.pure _) (hchunk _ _)
  have hlast : ∀ v, Keeps I (writeTerminator ctx v) := fun v => Keeps.ite
    ((keeps_check _ _).bind fun _ => (keeps_write _ _).bind fun _ => (Keeps.get _).bind fun _ => Keeps.pure _)
    (Keeps.pure _)
  exact (keeps_buffer _ _).bind fun _ => Keeps.returnIf.bind fun _ => hheader.bind fun _ =>
    (keeps_startProgress h).bind fun _ => (Keeps.get _).bind fun _ => (Keeps.loop hround _ _).bind fun _ =>
    (hlast _).bind fun _ => (keeps_cancel _).bind fun _ => (keeps_commit _).bind fun _ => (Keeps.get _).bind fun _ =>
    (keeps_progress _ _ _).bind fun _ => Keeps.pure _

theorem decompressSession_keeps (h : Tracks ctx.source I) (r : CompressionResult) (fuel : ℕ) :
    Keeps I (decompressSession ctx r fuel) := by
  have hheader : Keeps I (readFileHeader ctx r) :=
    (keeps_readOrReturn h _ _ _).bind fun _ => (keeps_check _ _).bind fun _ => Keeps.returnIf.bind fun _ =>
      Keeps.returnIf.bind fun _ => Keeps.returnIf.bind fun _ => Keeps.pure _
  have hpayload : ∀ v n, Keeps I (readPayload ctx v n) := fun v n =>
    (keeps_buffer _ _).bind fun _ => Keeps.returnIf.bind fun _ =>
      Keeps.ite ((keeps_readOrReturn h _ _ _).bind fun _ => Keeps.pure _) (Keeps.pure _)
  have hblock : ∀ v b, Keeps I (writeBlock ctx v b) := fun v b => Keeps.ite
    (Keeps.returnIf.bind fun _ => Keeps.returnIf.bind fun _ => (keeps_write _ _).bind fun _ => Keeps.pure _)
    ((keeps_call _ (decompressLzLiteBlock_safe _ _)).bind fun _ => (keeps_check _ _).bind fun _ =>
      Keeps.returnIf.bind fun _ => (keeps_write _ _).bind fun _ => Keeps.pure _)
  have hround : ∀ header v, Keeps I (decompressRound ctx header v) := fun header v =>
    (keeps_cancel _).bind fun _ => (keeps_readOrReturn h _ _ _).bind fun _ => (keeps_check _ _).bind fun _ =>
      Keeps.returnIf.bind fun _ => (hpayload _ _).bind fun _ => (hblock _ _).bind fun _ =>
      (keeps_progress _ _ _).bind fun _ => Keeps.pure _
  exact hheader.bind fun _ => (keeps_startProgress h).bind fun _ => (Keeps.loop (hround _) _ _).bind fun _ =>
    Keeps.returnIf.bind fun _ => (keeps_cancel _).bind fun _ => (keeps_commit _).bind fun _ =>
    (keeps_progress _ _ _).bind fun _ => Keeps.pure _

/-- What has been delivered is what `I` says, or the source was not opened, and nothing came of that. -/
def Given (ctx : RunContext σ κ) (source : σ) (I : List UInt8 → σ → Prop) (s : RunState σ κ) : Prop :=
  ((ctx.source.open' source).1 = .ok ∧ ∃ source', I (delivered s.trace) source') ∨
    commits s.trace = [] ∧ delivered s.trace = []

theorem session_given {m : Proc CompressionResult (RunState σ κ) CompressionResult} (hm : Keeps I m)
    (r : CompressionResult) {source : σ} (k₀ : κ) (heap : Heap)
    (hopened : (ctx.source.open' source).1 = .ok → I [] (ctx.source.open' source).2) :
    Proc.wp (Proc.destroying (destroySession ctx) (do openSession ctx r; m)) (fun _ => Given ctx source I)
      (fun _ => Given ctx source I) (Given ctx source I) (.start source k₀ heap) := by
  have hdestroy : ∀ (hok : (ctx.source.open' source).1 = .ok) {s : RunState σ κ} {source' : σ},
      I (delivered s.trace) source' → Given ctx source I (destroySession ctx s) := by
    intro hok s source' h
    have hcarries : Carries [] [] s (destroySession ctx s) := destroySession_carries s
    have hdelivered := hcarries.delivered_eq
    rw [List.append_nil] at hdelivered
    exact .inl ⟨hok,source',by rwa [hdelivered]⟩
  simp only [openSession,openSource,openSink,check,Proc.wp_destroying,Proc.wp_bind,Proc.wp_lift,Proc.wp_returnIf,
    Proc.wp_modify]
  refine ⟨fun _ => .inr ⟨rfl,rfl⟩,fun hok => ?_⟩
  have hok' : (ctx.source.open' source).1 = .ok := not_not.mp hok
  refine ⟨fun _ => hdestroy hok' (hopened hok'),fun _ => ?_⟩
  exact Proc.wp_mono (hm _ (hopened hok')) (fun _ _ h => hdestroy hok' h) (fun _ _ h => hdestroy hok' h)
    fun _ h => .inl ⟨hok',_,h⟩

theorem runDecompress_given (h : Tracks ctx.source I) (fuel : ℕ) {source : σ} (k₀ : κ) (heap : Heap)
    (hopened : (ctx.source.open' source).1 = .ok → I [] (ctx.source.open' source).2) :
    Proc.wp (runDecompress ctx fuel) (fun _ => Given ctx source I) (fun _ => Given ctx source I) (Given ctx source I)
      (.start source k₀ heap) := by
  simp only [runDecompress,runDecompressBy,requireTransactional,Proc.wp_bind,Proc.wp_returnIf,Proc.wp_get]
  exact ⟨fun _ => .inr ⟨rfl,rfl⟩,fun _ => session_given (decompressSession_keeps h _ fuel) _ k₀ heap hopened⟩

/-- What a job has had delivered, whether or not it has returned. -/
theorem runSyncJob_given (h : Tracks ctx.source I) (fuel : ℕ) {source : σ} (k₀ : κ) (heap : Heap)
    (hopened : (ctx.source.open' source).1 = .ok → I [] (ctx.source.open' source).2) :
    Given ctx source I (jobRun ctx fuel source k₀ heap).2 := by
  have hjob : Proc.wp (runSyncJob ctx fuel) (fun _ => Given ctx source I) (fun _ => Given ctx source I)
      (Given ctx source I) (.start source k₀ heap) := by
    have hstart : Given ctx source I (.start source k₀ heap) := .inr ⟨rfl,rfl⟩
    unfold runSyncJob runSyncJobBy
    cases ctx.operation with
    | compress =>
      simp only [runCompress,requireTransactional,Proc.wp_bind,Proc.wp_returnIf,Proc.wp_get]
      exact ⟨fun _ => hstart,fun _ => ⟨fun _ => hstart,fun _ =>
        session_given (compressSession_keeps h _ fuel) _ k₀ heap hopened⟩⟩
    | decompress => exact runDecompress_given h fuel k₀ heap hopened
  obtain ⟨_,-,hgiven⟩ | ⟨-,hgiven⟩ := Proc.exec_cases hjob
  · exact hgiven
  · exact hgiven

end Tracks

/-! ### What a commit means -/

/-- A job on a truthful source of `d`, with any sink, heap and cancel flag. -/
structure TruthfulJob (d : List UInt8) where
  σ : Type
  κ : Type
  ctx : RunContext σ κ
  source : σ
  k₀ : κ
  heap : Heap
  fuel : ℕ
  known : Bool
  Inv : List UInt8 → σ → Prop
  truthful : Truthful ctx.source d known Inv
  opened : (ctx.source.open' source).1 = .ok → Inv d (ctx.source.open' source).2

namespace TruthfulJob

variable {d : List UInt8}

/-- The result of the job, if it has returned, and its state. -/
def run (job : TruthfulJob d) : Option CompressionResult × RunState job.σ job.κ :=
  jobRun job.ctx job.fuel job.source job.k₀ job.heap

/-- All that has been written: a container of `d`, or the data of the container that `d` starts with. -/
def Complete (job : TruthfulJob d) (trace : List IoEvent) : Prop :=
  match job.ctx.operation with
  | .compress => decode (written trace) = .ok (d,[])
  | .decompress => ∃ rest, d = delivered trace ++ rest ∧ decode d = .ok (written trace,rest)

/-- What a truthful source gives is the front of what it has, and no commit comes of one that cannot be opened. -/
theorem given (job : TruthfulJob d) : (∃ rest, d = delivered job.run.2.trace ++ rest) ∧
    (commits job.run.2.trace ≠ [] → (job.ctx.source.open' job.source).1 = .ok) := by
  obtain ⟨hok,-,rest,hd,-⟩ | ⟨hnone,hdelivered⟩ := runSyncJob_given (truthful_tracks job.truthful) job.fuel job.k₀
    job.heap fun hok => ⟨d,rfl,job.opened hok⟩
  · exact ⟨⟨rest,hd⟩,fun _ => hok⟩
  · exact ⟨⟨d,by rw [run,hdelivered]; rfl⟩,fun hcommit => absurd hnone hcommit⟩

theorem complete (job : TruthfulJob d) (hcommit : commits job.run.2.trace ≠ []) :
    job.Complete job.run.2.trace := by
  obtain ⟨⟨rest,hd⟩,hopen⟩ := job.given
  obtain ⟨r,t,hrun,hok,hwritten,hdelivered⟩ := committed_faultless hcommit
  rw [run,← hdelivered] at hd
  unfold jobRun runSyncJob runSyncJobBy at hrun
  unfold Complete
  rw [run,← hwritten,← hdelivered]
  change match job.ctx.faultless.operation with | .compress => _ | .decompress => _
  cases hoperation : job.ctx.faultless.operation with
  | compress =>
    rw [hoperation] at hrun
    have htruthful : Truthful job.ctx.faultless.source d job.known job.Inv := job.truthful
    exact truthful_compressed htruthful (job.opened (hopen hcommit)) hrun hok
  | decompress =>
    rw [hoperation] at hrun
    have hall : DecodesAll t.trace := (Proc.exec_of_wp (runDecompress_vouched _ _ _ _ _) hrun).2 hok
    have hexact : decode (delivered t.trace ++ []) = .ok (written t.trace,[]) := by rwa [List.append_nil]
    refine ⟨rest,hd,?_⟩
    have hmore := decode_append hexact rest
    rwa [← hd] at hmore

end TruthfulJob

end Compressor
end EspCompressor
