import EspCompressor.Container
import EspCompressor.RunSteps

/-! `runCompress` against its source: what it writes is a function of what the source answers, and
it fails only when the source does or when the run is hindered. -/
namespace EspCompressor
namespace Compressor

open EscFormat Container

variable {σ κ : Type}

/-! ### What a source answers -/

/-- The chunks that the encoder reads, each with what `eof` says after it, when the source comes to
its end in fewer than the given number of reads and no read fails. -/
def readAll (source : CompressionSource σ) (blockSize : ℕ) : ℕ → σ → Option (List (List UInt8 × Bool))
  | 0, _ => none
  | n + 1, s =>
    let r := source.read blockSize s
    let ended := source.eof r.2
    if r.1.err ≠ .ok then none
    else if r.1.data.length = 0 then if ended.1 then some [] else none
    else (readAll source blockSize n ended.2).map ((r.1.data,ended.1) :: ·)

/-- The size that the encoder declares. -/
def declared (source : CompressionSource σ) (s : σ) : UInt64 × σ :=
  let known := source.hasKnownSize s
  if known.1 = true then source.totalSize known.2 else (kEscUnknownOriginalSize,known.2)

/-- The file header that the encoder writes. -/
def fileHeader (source : CompressionSource σ) (blockSize : ℕ) (s : σ) : EscHeader × σ :=
  let size := declared source s
  let known := source.hasKnownSize size.2
  ({ blockSize := UInt32.ofNat blockSize
     originalSize := size.1
     flags := if known.1 then 0 else 0 ||| kEscHeaderFlagUnknownOriginalSize },known.2)

/-- The source when the encoder begins to read. -/
def beforeReads (source : CompressionSource σ) (blockSize : ℕ) (s : σ) : σ :=
  (source.totalSize (source.hasKnownSize (fileHeader source blockSize s).2).2).2

/-- The file header and the chunks of a source that has been opened. -/
def transcript (source : CompressionSource σ) (blockSize fuel : ℕ) (s : σ) :
    Option (EscHeader × List (List UInt8 × Bool)) :=
  (readAll source blockSize fuel (beforeReads source blockSize s)).map
    ((fileHeader source blockSize s).1,·)

theorem readAll_chunks {source : CompressionSource σ} {blockSize n : ℕ} {s : σ}
    {chunks : List (List UInt8 × Bool)} (h : readAll source blockSize n s = some chunks) :
    ∀ c ∈ chunks, c.1 ≠ [] ∧ c.1.length ≤ blockSize := by
  induction n generalizing s chunks with
  | zero => simp [readAll] at h
  | succ n ih =>
    simp only [readAll] at h
    split_ifs at h with herr hempty hended
    · obtain rfl := Option.some.inj h
      simp
    · rw [Option.map_eq_some_iff] at h
      obtain ⟨cs,hcs,rfl⟩ := h
      refine List.forall_mem_cons.mpr ⟨⟨?_,(source.read blockSize s).1.fits⟩,ih hcs⟩
      exact fun hnil => hempty (List.length_eq_zero_iff.mpr hnil)

/-- A request that is granted whatever the encoder asks for in one round. -/
def blockNeed (blockSize : ℕ) : ℕ := blockSize + 1 + (blockSize + 3) / 18

section Run

variable {ctx : RunContext σ κ} {k₀ : κ} {heap : Heap}

/-- How a step fails: the source failed in the given way, or the run is hindered. -/
def Aborts (ctx : RunContext σ κ) (k₀ : κ) (heap : Heap) (failed : Prop) (r : CompressionResult) : Prop :=
  r.error ≠ .ok ∧ (failed ∨ ¬Unhindered ctx k₀ heap (blockNeed ctx.config.blockSize))

theorem Aborts.mono {failed failed' : Prop} {r : CompressionResult} (h : Aborts ctx k₀ heap failed r)
    (himp : failed → failed') : Aborts ctx k₀ heap failed' r := ⟨h.1,h.2.imp_left himp⟩

/-- A step that makes no call to the source, before others. -/
theorem Running.adds {α : Type} {out bytes : List UInt8} {s : RunState σ κ} {failed : Prop}
    {m : Proc CompressionResult (RunState σ κ) α} {P : α → Prop} (h : Running ctx k₀ heap out s)
    (hm : Adds ctx k₀ heap (blockNeed ctx.config.blockSize) bytes m P) :
    Proc.wp m (fun a s' => P a ∧ Running ctx k₀ heap (out ++ bytes) s' ∧ s'.source = s.source)
      (fun r _ => Aborts ctx k₀ heap failed r) (fun _ => False) s :=
  Proc.wp_mono (hm out s h) (fun _ _ ⟨ha,hrun,hkept⟩ => ⟨ha,hrun,hkept.source_eq⟩)
    (fun _ _ ⟨he,hn⟩ => ⟨he,.inr hn⟩) fun _ h => h

/-- The encoder's call for a chunk. -/
theorem compressBlock_adds (buffer : MemoryBuffer) {chunk : List UInt8} {blockSize : ℕ}
    (hle : chunk.length ≤ blockSize) (windowSize : ℕ) :
    Adds ctx k₀ heap (blockNeed blockSize) [] (callWith buffer (Codec.compressLzLiteBlock chunk windowSize))
      fun r => r.1 = .ok ∧ r.2.buffer.contents = LzLite.encodeBlock chunk windowSize ∨
        r.1 ≠ .ok ∧ ¬heap.Ample (blockNeed blockSize) := by
  have hneed : (LzLite.encodeBlock chunk windowSize).length ≤ blockNeed blockSize := by
    have hlen := LzLite.encodeBlock_length_le chunk windowSize
    unfold blockNeed
    omega
  refine callWith_adds fun h hsupply => ?_
  have hresult (e : CompressionError) (t : BufferState)
      (hd : Codec.Encoded chunk windowSize ⟨buffer,h⟩ e t) : h.SameSupply t.heap ∧
      (e = .ok ∧ t.buffer.contents = LzLite.encodeBlock chunk windowSize ∨
        e ≠ .ok ∧ ¬heap.Ample (blockNeed blockSize)) :=
    ⟨hd.1,hd.2.imp_right fun hr => ⟨by simp [hr.1],fun ha =>
      hr.2 ((ha.of_sameSupply hsupply).mono hneed)⟩⟩
  exact Proc.wp_mono (Codec.compressLzLiteBlock_spec chunk windowSize ⟨buffer,h⟩) hresult hresult
    fun _ h => h

/-- What the loop variables say after the given chunks. -/
structure Covers (ctx : RunContext σ κ) (v : CompressVars) (chunks : List (List UInt8 × Bool)) : Prop where
  error : v.result.error = .ok
  inputBytes : v.result.inputBytes = UInt64.ofNat (chunkData chunks).length
  wroteAnyBlock : v.wroteAnyBlock = decide (chunks ≠ [])
  lastBlockWasFinal : v.lastBlockWasFinal = lastEnded chunks
  blockBuffer : v.blockBuffer.size = ctx.config.blockSize

/-- The records of some chunks. -/
def records (windowSize : ℕ) (chunks : List (List UInt8 × Bool)) : List UInt8 :=
  chunks.flatMap fun c => (chunkBlock windowSize c.1 c.2).bytes

@[simp] theorem records_append (windowSize : ℕ) (chunks chunks' : List (List UInt8 × Bool)) :
    records windowSize (chunks ++ chunks') = records windowSize chunks ++ records windowSize chunks' :=
  List.flatMap_append

/-- One chunk is encoded and written as one block. -/
theorem compressChunk_spec {v : CompressVars} {chunk out : List UInt8} {s : RunState σ κ}
    (h : Running ctx k₀ heap out s) (hchunk : v.blockBuffer.contents.take chunk.length = chunk)
    (hle : chunk.length ≤ ctx.config.blockSize) :
    Proc.wp (compressChunk ctx v chunk.length)
      (fun c s' => ∃ v', c = .inl v' ∧
        Running ctx k₀ heap (out ++ (chunkBlock ctx.config.windowSize chunk
          (ctx.source.eof s.source).1).bytes) s' ∧ s'.source = (ctx.source.eof s.source).2 ∧
        v'.result.error = v.result.error ∧ v'.result.inputBytes = v.result.inputBytes ∧
        v'.blockBuffer = v.blockBuffer ∧ v'.wroteAnyBlock = true ∧
        v'.lastBlockWasFinal = (ctx.source.eof s.source).1)
      (fun r _ => Aborts ctx k₀ heap False r) (fun _ => False) s := by
  simp only [compressChunk,hchunk]
  rw [Proc.wp_bind]
  refine Proc.wp_mono (h.adds (compressBlock_adds v.encodedBlock hle ctx.config.windowSize)) ?_
    (fun _ _ h => h) fun _ h => h
  rintro ⟨e,t⟩ s₁ ⟨hresult,h₁,hsource₁⟩
  rw [List.append_nil] at h₁
  rw [Proc.wp_bind,check,Proc.wp_returnIf]
  rcases hresult with ⟨rfl,hcontents⟩ | ⟨he,hrefused⟩
  swap
  · exact ⟨fun _ => ⟨he,.inr fun hu => hrefused hu.ample⟩,fun hok => absurd he hok⟩
  refine ⟨fun hok => absurd rfl hok,fun _ => ?_⟩
  have hsize : t.buffer.size = (LzLite.encodeBlock chunk ctx.config.windowSize).length := by
    rw [← MemoryBuffer.contents_length,hcontents]
  set b := chunkBlock ctx.config.windowSize chunk (ctx.source.eof s.source).1 with hb
  have hfinal : decide (b.header.flags &&& kEscBlockFlagFinal ≠ 0) = (ctx.source.eof s.source).1 := by
    rw [Bool.eq_iff_iff,decide_eq_true_iff]
    exact chunkBlock_isFinal _ _ _
  simp only [Proc.wp_bind,sourceEof,Proc.wp_lift,hsize,hcontents,check,Proc.wp_returnIf,hsource₁,
    encodeEscBlockHeader_spec _ _ List.length_replicate]
  refine ⟨fun hok => absurd rfl hok,fun _ => ?_⟩
  have h₂ : Running ctx k₀ heap out { s₁ with
      source := (ctx.source.eof s.source).2
      trace := s₁.trace ++ [.eof (ctx.source.eof s.source).1] } :=
    h₁.event _ rfl rfl rfl rfl rfl rfl rfl
  refine Proc.wp_mono (h₂.adds (writeOrReturn_adds (blockHeaderBytes b.header) v.result)) ?_
    (fun _ _ h => h) fun _ h => h
  rintro _ s₃ ⟨-,h₃,hsource₃⟩
  refine Proc.wp_mono (h₃.adds (writeOrReturn_adds b.payload v.result)) ?_ (fun _ _ h => h) fun _ h => h
  rintro _ s₄ ⟨-,h₄,hsource₄⟩
  rw [sinkBytesWritten,Proc.wp_get]
  refine Proc.wp_mono (h₄.adds (emitProgress_adds _ _ false)) ?_ (fun _ _ h => h) fun _ h => h
  rintro progress s₅ ⟨-,h₅,hsource₅⟩
  rw [List.append_nil,List.append_assoc] at h₅
  refine ⟨_,rfl,h₅,?_,rfl,rfl,rfl,rfl,hfinal⟩
  rw [hsource₅,hsource₄,hsource₃]

/-- A read of the source. -/
theorem Running.read {out : List UInt8} {s : RunState σ κ} (h : Running ctx k₀ heap out s)
    (capacity : ℕ) : Running ctx k₀ heap out { s with
      source := (ctx.source.read capacity s.source).2
      trace := s.trace ++ [.read capacity (ctx.source.read capacity s.source).1.err
        (ctx.source.read capacity s.source).1.data] } :=
  h.event _ rfl rfl rfl rfl rfl rfl rfl

/-- One round: the input has ended, or one more chunk was read and its block written. -/
theorem compressRound_spec {v : CompressVars} {chunks : List (List UInt8 × Bool)} {out : List UInt8}
    {s : RunState σ κ} (h : Running ctx k₀ heap out s) (hv : Covers ctx v chunks) :
    let r := ctx.source.read ctx.config.blockSize s.source
    let ended := ctx.source.eof r.2
    Proc.wp (compressRound ctx v)
      (fun c s' => r.1.err = .ok ∧ s'.source = ended.2 ∧
        (r.1.data.length = 0 ∧ ended.1 = true ∧ (∃ v', c = .inr v' ∧ Covers ctx v' chunks) ∧
            Running ctx k₀ heap out s' ∨
          r.1.data.length ≠ 0 ∧ (∃ v', c = .inl v' ∧ Covers ctx v' (chunks ++ [(r.1.data,ended.1)])) ∧
            Running ctx k₀ heap
              (out ++ (chunkBlock ctx.config.windowSize r.1.data ended.1).bytes) s'))
      (fun result _ => Aborts ctx k₀ heap
        (r.1.err ≠ .ok ∨ r.1.data.length = 0 ∧ ended.1 = false) result)
      (fun _ => False) s := by
  intro r ended
  rw [compressRound,Proc.wp_bind]
  refine Proc.wp_mono (h.adds (shouldAbortForCancel_adds v.result)) ?_ (fun _ _ h => h) fun _ h => h
  rintro _ s₁ ⟨-,h₁,hsource₁⟩
  rw [List.append_nil] at h₁
  have h₂ := h₁.read ctx.config.blockSize
  rw [hsource₁] at h₂
  simp only [Proc.wp_bind,readSource,Proc.wp_lift,check,Proc.wp_returnIf,Proc.wp_ite,hsource₁]
  refine ⟨fun he => ⟨he,.inl (.inl he)⟩,fun he => ?_⟩
  have he : r.1.err = .ok := not_not.mp he
  have hread : UInt64.ofNat (chunkData chunks).length + UInt64.ofNat r.1.data.length =
      UInt64.ofNat (chunkData (chunks ++ [(r.1.data,ended.1)])).length := by
    rw [← UInt64.ofNat_add,chunkData_append,List.length_append]
    simp [chunkData]
  refine ⟨fun hempty => ?_,fun hne => ?_⟩
  · simp only [endOfInput,sourceEof,Proc.wp_bind,Proc.wp_lift,Proc.wp_returnIf,Proc.wp_pure]
    refine ⟨fun hno => ⟨by simp,.inl (.inr ⟨hempty,hno⟩)⟩,fun hyes => ?_⟩
    refine ⟨he,rfl,.inl ⟨hempty,Bool.eq_true_of_not_eq_false hyes,⟨_,rfl,?_⟩,?_⟩⟩
    · refine ⟨hv.error,?_,hv.wroteAnyBlock,hv.lastBlockWasFinal,hv.blockBuffer⟩
      change v.result.inputBytes + UInt64.ofNat r.1.data.length = _
      rw [hempty,hv.inputBytes]
      exact UInt64.add_zero _
    · exact h₂.event _ rfl rfl rfl rfl rfl rfl rfl
  · have htake := MemoryBuffer.store_contents_take v.blockBuffer r.1.data
      (hv.blockBuffer.symm ▸ r.1.fits)
    refine Proc.wp_mono (compressChunk_spec h₂ htake r.1.fits) ?_
      (fun _ _ hr => hr.mono False.elim) fun _ h => h
    rintro c s₃ ⟨v',rfl,h₃,hsource₃,herror,hinput,hbuffer,hwrote,hlast⟩
    refine ⟨he,hsource₃,.inr ⟨hne,⟨v',rfl,?_⟩,h₃⟩⟩
    refine ⟨herror.trans hv.error,?_,?_,?_,?_⟩
    · rw [hinput]
      simp only [hv.inputBytes]
      exact hread
    · rw [hwrote]
      simp
    · rw [hlast,lastEnded_append_singleton]
    · rw [hbuffer]
      exact hv.blockBuffer

/-- The rounds write one block for each chunk of the source. -/
theorem compressLoop_spec (n : ℕ) {v : CompressVars} {done : List (List UInt8 × Bool)} {pre : List UInt8}
    {s : RunState σ κ} (h : Running ctx k₀ heap (pre ++ records ctx.config.windowSize done) s)
    (hv : Covers ctx v done) :
    Proc.wp (Proc.loop (compressRound ctx) n v)
      (fun v' s' => ∃ chunks,
        readAll ctx.source ctx.config.blockSize n s.source = some chunks ∧
        Covers ctx v' (done ++ chunks) ∧
        Running ctx k₀ heap (pre ++ records ctx.config.windowSize (done ++ chunks)) s')
      (fun r _ => Aborts ctx k₀ heap
        (readAll ctx.source ctx.config.blockSize n s.source = none) r)
      (fun _ => readAll ctx.source ctx.config.blockSize n s.source = none) s := by
  induction n generalizing v done s with
  | zero => exact rfl
  | succ n ih =>
    rw [Proc.wp_loop_succ]
    refine Proc.wp_mono (compressRound_spec h hv) ?_ ?_ fun _ h => h.elim
    · rintro c s₁ ⟨he,hsource,⟨hempty,hended,⟨v',rfl,hv'⟩,h'⟩ | ⟨hne,⟨v',rfl,hv'⟩,h'⟩⟩
      · refine ⟨[],?_,by rwa [List.append_nil],by rwa [List.append_nil]⟩
        simp [readAll,he,hempty,hended]
      · have hread : readAll ctx.source ctx.config.blockSize (n + 1) s.source =
            (readAll ctx.source ctx.config.blockSize n s₁.source).map
              (((ctx.source.read ctx.config.blockSize s.source).1.data,
                (ctx.source.eof (ctx.source.read ctx.config.blockSize s.source).2).1) :: ·) := by
          rw [hsource]
          simp [readAll,he,hne]
        rw [List.append_assoc] at h'
        have hrecords : Running ctx k₀ heap (pre ++ records ctx.config.windowSize (done ++
            [((ctx.source.read ctx.config.blockSize s.source).1.data,
              (ctx.source.eof (ctx.source.read ctx.config.blockSize s.source).2).1)])) s₁ := by
          rw [records_append]
          simpa [records] using h'
        rw [hread]
        refine Proc.wp_mono (ih hrecords hv') ?_ ?_ ?_
        · rintro v'' s₂ ⟨chunks,hchunks,hv'',h''⟩
          refine ⟨_ :: chunks,by rw [hchunks]; rfl,?_,?_⟩
          · rwa [List.append_assoc] at hv''
          · rwa [List.append_assoc] at h''
        · exact fun r s₂ hr => hr.mono fun hnone => by rw [hnone]; rfl
        · intro s₂ hnone
          rw [hnone]
          rfl
    · refine fun r s₁ hr => hr.mono fun hfailed => ?_
      rcases hfailed with he | ⟨hempty,hended⟩
      · simp [readAll,he]
      · by_cases he : (ctx.source.read ctx.config.blockSize s.source).1.err = .ok
        · simp [readAll,he,hempty,hended]
        · simp [readAll,he]

/-- Encoding the file header into a fresh buffer. -/
theorem encodeHeader_adds (header : EscHeader) (need : ℕ) :
    Adds ctx k₀ heap need [] (callWith .new (encodeEscHeader header)) fun r =>
      r.1 = .ok ∧ r.2.buffer.contents = headerBytes header ∨ r.1 ≠ .ok ∧ ¬heap.Ample need := by
  refine callWith_adds fun h hsupply => ?_
  refine Proc.wp_mono (encodeEscHeader_spec header _) (fun _ _ hdone => ⟨hdone.1,.inl hdone.2⟩)
    (fun e t hfailed => ⟨hfailed.1,.inr ⟨by simp [hfailed.2.1],fun ha => ?_⟩⟩) fun _ h => h
  have hgrant := (ha.of_sameSupply hsupply).grants h.calls
  rw [hfailed.2.2] at hgrant
  exact absurd hgrant (by simp)

/-- A query of the source. -/
theorem Running.asked {out : List UInt8} {s : RunState σ κ} (h : Running ctx k₀ heap out s)
    (source : σ) (e : IoEvent) (hwritten : e.written = []) (hcommit : e.commits = []) :
    Running ctx k₀ heap out { s with source := source, trace := s.trace ++ [e] } :=
  h.event e rfl rfl rfl rfl rfl hwritten hcommit

theorem declaredSize_spec {out : List UInt8} {s : RunState σ κ} (h : Running ctx k₀ heap out s)
    {R : CompressionResult → RunState σ κ → Prop} :
    Proc.wp (declaredSize ctx.source) (fun size s' => size = (declared ctx.source s.source).1 ∧
      s'.source = (declared ctx.source s.source).2 ∧ Running ctx k₀ heap out s') R
      (fun _ => False) s := by
  simp only [declaredSize,sourceHasKnownSize,sourceTotalSize,Proc.wp_bind,Proc.wp_lift,Proc.wp_ite,
    Proc.wp_pure,declared]
  have h₁ := h.asked (ctx.source.hasKnownSize s.source).2
    (.hasKnownSize (ctx.source.hasKnownSize s.source).1) rfl rfl
  refine ⟨fun hknown => ?_,fun hunknown => ?_⟩
  · rw [if_pos hknown]
    exact ⟨rfl,rfl,h₁.asked _ _ rfl rfl⟩
  · rw [if_neg hunknown]
    exact ⟨rfl,rfl,h₁⟩

/-- The file header is written. -/
theorem writeFileHeader_spec {out : List UInt8} {s : RunState σ κ} (h : Running ctx k₀ heap out s)
    (result : CompressionResult) :
    Proc.wp (writeFileHeader ctx result)
      (fun _ s' => s'.source = (fileHeader ctx.source ctx.config.blockSize s.source).2 ∧
        Running ctx k₀ heap
          (out ++ headerBytes (fileHeader ctx.source ctx.config.blockSize s.source).1) s')
      (fun r _ => Aborts ctx k₀ heap False r) (fun _ => False) s := by
  rw [writeFileHeader,Proc.wp_bind]
  refine Proc.wp_mono (declaredSize_spec h) ?_ (fun _ _ h => h) fun _ h => h
  rintro size s₁ ⟨rfl,hsource₁,h₁⟩
  simp only [Proc.wp_bind,sourceHasKnownSize,Proc.wp_lift,hsource₁]
  set header := (fileHeader ctx.source ctx.config.blockSize s.source).1 with hheader
  have h₂ := h₁.asked (ctx.source.hasKnownSize (declared ctx.source s.source).2).2
    (.hasKnownSize (ctx.source.hasKnownSize (declared ctx.source s.source).2).1) rfl rfl
  refine Proc.wp_mono (h₂.adds (encodeHeader_adds header _)) ?_ (fun _ _ h => h) fun _ h => h
  rintro ⟨e,t⟩ s₃ ⟨hresult,h₃,hsource₃⟩
  rw [List.append_nil] at h₃
  rw [check,Proc.wp_returnIf]
  rcases hresult with ⟨rfl,hcontents⟩ | ⟨he,hrefused⟩
  · refine ⟨fun hok => absurd rfl hok,fun _ => ?_⟩
    dsimp only at hcontents ⊢
    rw [hcontents]
    refine Proc.wp_mono (h₃.adds (writeOrReturn_adds (headerBytes header) result)) ?_
      (fun _ _ h => h) fun _ h => h
    rintro _ s₄ ⟨-,h₄,hsource₄⟩
    exact ⟨by rw [hsource₄,hsource₃]; rfl,h₄⟩
  · exact ⟨fun _ => ⟨he,.inr fun hu => hrefused hu.ample⟩,fun hok => absurd he hok⟩

theorem startProgress_spec {out : List UInt8} {s : RunState σ κ} (h : Running ctx k₀ heap out s)
    {R : CompressionResult → RunState σ κ → Prop} :
    Proc.wp (startProgress ctx) (fun _ s' =>
      s'.source = (ctx.source.totalSize (ctx.source.hasKnownSize s.source).2).2 ∧
      Running ctx k₀ heap out s') R (fun _ => False) s := by
  simp only [startProgress,sourceHasKnownSize,sourceTotalSize,Proc.wp_bind,Proc.wp_lift,Proc.wp_pure]
  exact ⟨trivial,(h.asked (ctx.source.hasKnownSize s.source).2
    (.hasKnownSize (ctx.source.hasKnownSize s.source).1) rfl rfl).asked _ _ rfl rfl⟩

/-- All records for some chunks. -/
theorem records_terminated (windowSize : ℕ) (chunks : List (List UInt8 × Bool)) :
    records windowSize chunks ++ (if lastEnded chunks then [] else terminator.bytes) =
      (blocksOf windowSize chunks).flatMap Block.bytes := by
  rw [blocksOf,List.flatMap_append,List.flatMap_map,records]
  cases lastEnded chunks <;> simp

/-- The terminator is written unless the last block was final. -/
theorem writeTerminator_adds {v : CompressVars} {chunks : List (List UInt8 × Bool)}
    (hv : Covers ctx v chunks) (need : ℕ) :
    Adds ctx k₀ heap need (if lastEnded chunks then [] else terminator.bytes) (writeTerminator ctx v)
      fun r => r.error = .ok ∧ r.inputBytes = v.result.inputBytes := by
  have hiff : v.wroteAnyBlock = false ∨ v.lastBlockWasFinal = false ↔ lastEnded chunks = false := by
    rw [hv.wroteAnyBlock,hv.lastBlockWasFinal]
    cases chunks with
    | nil => simp [lastEnded]
    | cons c cs => simp
  have hresult (produced : UInt64) : Adds ctx k₀ heap need []
      (pure { v.result with outputBytes := produced }) fun r =>
        r.error = .ok ∧ r.inputBytes = v.result.inputBytes := Adds.pure ⟨hv.error,rfl⟩
  rw [writeTerminator]
  by_cases hlast : lastEnded chunks = true
  · have hno : ¬(v.wroteAnyBlock = false ∨ v.lastBlockWasFinal = false) := by
      rw [hiff,hlast]
      simp
    rw [if_neg hno,if_pos hlast]
    exact hresult v.result.outputBytes
  · have hyes : v.wroteAnyBlock = false ∨ v.lastBlockWasFinal = false :=
      hiff.mpr (Bool.eq_false_iff.mpr hlast)
    rw [if_pos hyes,if_neg hlast]
    simp only [encodeEscBlockHeader_spec _ _ List.length_replicate]
    refine (Adds.check fun he => absurd rfl he).bind_nil fun _ _ => ?_
    have hwrite : Adds ctx k₀ heap need (blockHeaderBytes terminator.header)
        (writeOrReturn ctx.sink v.result (blockHeaderBytes terminator.header)) fun _ => True :=
      writeOrReturn_adds _ v.result
    exact hwrite.bind fun _ _ => (Adds.get fun s => ctx.sink.bytesWritten s.sink).bind_nil
      fun produced _ => hresult produced

/-- The configurations that `runCompress` accepts. -/
def ValidConfig (config : ESPCompressorConfig) : Prop :=
  config.blockSize ≠ 0 ∧ config.windowSize ≠ 0 ∧ config.blockSize ≤ uint32Max

/-- A run that has succeeded on a source that was opened into the state `src`. -/
structure Compressed (ctx : RunContext σ κ) (k₀ : κ) (fuel : ℕ) (src : σ) (r : CompressionResult)
    (s : RunState σ κ) : Prop where
  error : r.error = .ok
  valid : ValidConfig ctx.config
  written_eq : ∃ header chunks,
    transcript ctx.source ctx.config.blockSize fuel src = some (header,chunks) ∧
    written s.trace = encode header (blocksOf ctx.config.windowSize chunks) ∧
    r.inputBytes = UInt64.ofNat (chunkData chunks).length
  outputBytes : ∃ k, Staged ctx.sink k₀ (written s.trace) k ∧ (ctx.sink.commit k).1 = .ok ∧
    r.outputBytes = ctx.sink.bytesWritten (ctx.sink.commit k).2

/-- A session whose source has been opened. -/
theorem compressSession_spec {s : RunState σ κ} (h : Running ctx k₀ heap [] s)
    (hvalid : ValidConfig ctx.config) (fuel : ℕ) :
    Proc.wp (compressSession ctx (makeResult ctx.operation .ok) fuel)
      (fun r s' => Compressed ctx k₀ fuel s.source r s')
      (fun r _ => Aborts ctx k₀ heap
        (transcript ctx.source ctx.config.blockSize fuel s.source = none) r)
      (fun _ => transcript ctx.source ctx.config.blockSize fuel s.source = none) s := by
  have hnone (hread : readAll ctx.source ctx.config.blockSize fuel
      (beforeReads ctx.source ctx.config.blockSize s.source) = none) :
      transcript ctx.source ctx.config.blockSize fuel s.source = none := by
    rw [transcript,hread]
    rfl
  set header := (fileHeader ctx.source ctx.config.blockSize s.source).1 with hheader
  rw [compressSession,Proc.wp_bind]
  refine Proc.wp_mono (h.adds (resize_adds .new ctx.config.blockSize)) ?_ (fun _ _ h => h)
    fun _ h => h.elim
  rintro buffer s₁ ⟨⟨hsize,hgrant⟩,h₁,hsource₁⟩
  rw [Proc.wp_bind,Proc.wp_returnIf]
  refine ⟨fun hno => ⟨by simp,.inr fun hu => hgrant hno hu.ample⟩,fun hyes => ?_⟩
  rw [Proc.wp_bind]
  refine Proc.wp_mono (writeFileHeader_spec h₁ _) ?_ (fun _ _ hr => hr.mono False.elim)
    fun _ h => h.elim
  rintro _ s₂ ⟨hsource₂,h₂⟩
  rw [hsource₁,List.nil_append] at h₂
  rw [hsource₁] at hsource₂
  rw [Proc.wp_bind]
  refine Proc.wp_mono (startProgress_spec h₂) ?_ (fun _ _ h => h) fun _ h => h.elim
  rintro progress s₃ ⟨hsource₃,h₃⟩
  have hbefore : s₃.source = beforeReads ctx.source ctx.config.blockSize s.source := by
    rw [hsource₃,hsource₂]
    rfl
  simp only [Proc.wp_bind,sinkBytesWritten,Proc.wp_get]
  have hstart : Running ctx k₀ heap (headerBytes header ++ records ctx.config.windowSize []) s₃ := by
    rw [show records ctx.config.windowSize [] = [] from rfl,List.append_nil]
    exact h₃
  refine Proc.wp_mono (compressLoop_spec fuel hstart ⟨rfl,rfl,rfl,rfl,?_⟩) ?_ ?_ ?_
  · exact hsize (Bool.eq_true_of_not_eq_false hyes)
  · rintro v s₄ ⟨chunks,hread,hv,h₄⟩
    rw [List.nil_append] at hv h₄
    refine Proc.wp_mono (h₄.adds (writeTerminator_adds hv _)) ?_ (fun _ _ h => h) fun _ h => h.elim
    rintro r s₅ ⟨⟨herror,hinput⟩,h₅,-⟩
    rw [List.append_assoc,records_terminated] at h₅
    refine Proc.wp_mono (h₅.adds (shouldAbortForCancel_adds r)) ?_ (fun _ _ h => h) fun _ h => h.elim
    rintro _ s₆ ⟨-,h₆,-⟩
    rw [List.append_nil] at h₆
    refine Proc.wp_mono (commitSession_spec r h₆) ?_ (fun r _ hr => ⟨hr.1,.inr hr.2⟩)
      fun _ h => h.elim
    rintro r' s₇ ⟨rfl,hcommit,hsink,hwritten,-⟩
    have hwritten' (report : CompressionProgress) : written (s₇.trace ++ [.progress report]) =
        encode header (blocksOf ctx.config.windowSize chunks) := by
      rw [written_append,hwritten]
      simp [IoEvent.written,encode]
    simp only [emitProgress,Proc.wp_lift,Proc.wp_pure]
    refine ⟨rfl,hvalid,⟨header,chunks,?_,hwritten' _,?_⟩,⟨s₆.sink,?_,hcommit,?_⟩⟩
    · rw [transcript,← hbefore,hread]
      rfl
    · exact hinput.trans hv.inputBytes
    · have hstaged := h₆.staged
      rw [h₆.output] at hstaged
      rw [hwritten']
      exact hstaged
    · rw [hsink]
  · exact fun r s₄ hr => hr.mono fun hread => hnone (hbefore ▸ hread)
  · exact fun s₄ hread => hnone (hbefore ▸ hread)

/-- How `runCompress` fails: its configuration is rejected, the source fails, or it is hindered. -/
def CompressFails (ctx : RunContext σ κ) (k₀ : κ) (heap : Heap) (fuel : ℕ) (source : σ)
    (r : CompressionResult) : Prop :=
  Aborts ctx k₀ heap (¬ValidConfig ctx.config ∨ (ctx.source.open' source).1 ≠ .ok ∨
    transcript ctx.source ctx.config.blockSize fuel (ctx.source.open' source).2 = none) r

/-- `runCompress` on any source. -/
theorem runCompress_spec (fuel : ℕ) (source : σ) :
    Proc.wp (runCompress ctx fuel)
      (fun r s => Compressed ctx k₀ fuel (ctx.source.open' source).2 r s ∨
        CompressFails ctx k₀ heap fuel source r)
      (fun r s => Compressed ctx k₀ fuel (ctx.source.open' source).2 r s ∨
        CompressFails ctx k₀ heap fuel source r)
      (fun _ => transcript ctx.source ctx.config.blockSize fuel (ctx.source.open' source).2 = none)
      (.start source k₀ heap) := by
  rw [runCompress,Proc.wp_bind,Proc.wp_returnIf]
  refine ⟨fun hbad => .inr ⟨by simp,.inl (.inl fun hvalid => ?_)⟩,fun hgood => ?_⟩
  · rcases hbad with hblock | hwindow | hlarge
    · exact hvalid.1 hblock
    · exact hvalid.2.1 hwindow
    · exact absurd hvalid.2.2 (not_le.mpr hlarge)
  have hvalid : ValidConfig ctx.config := by
    obtain ⟨hblock,hwindow,hlarge⟩ := not_or.mp hgood |>.imp_right not_or.mp
    exact ⟨hblock,hwindow,not_lt.mp hlarge⟩
  rw [Proc.wp_bind]
  refine Proc.wp_mono (requireTransactional_spec _ rfl) ?_ (fun r _ hr => .inr ⟨hr.1,.inr hr.2⟩)
    fun _ h => h.elim
  rintro _ _ rfl
  rw [Proc.wp_destroying,Proc.wp_bind]
  refine Proc.wp_mono (openSession_spec _) ?_
    (fun r _ hr => .inr ⟨hr.1,hr.2.imp_left fun hopen => .inr (.inl hopen)⟩) fun _ h => h.elim
  rintro _ s ⟨hopen,hrun,hsource,-⟩
  refine Proc.wp_mono (compressSession_spec hrun hvalid fuel) ?_ ?_ ?_
  · rintro r s' ⟨herror,-,hwritten,houtput⟩
    rw [hsource] at hwritten
    exact .inl ⟨herror,hvalid,by rwa [destroySession_written],by rwa [destroySession_written]⟩
  · intro r s' hr
    rw [hsource] at hr
    exact .inr (hr.mono fun hnone => .inr (.inr hnone))
  · intro s' hnone
    rwa [hsource] at hnone

/-- A run that returns `Ok` has published what it wrote. -/
theorem compressed_of_exec {fuel : ℕ} {source : σ} {r : CompressionResult} {s : RunState σ κ}
    (hrun : Proc.exec (runCompress ctx fuel) (.start source k₀ heap) = (some r,s)) (hok : r.error = .ok) :
    Compressed ctx k₀ fuel (ctx.source.open' source).2 r s ∧ published s.trace = some (written s.trace) := by
  have hspec := @runCompress_spec _ _ ctx k₀ heap fuel source
  have hends := Proc.exec_of_wp (runCompress_ends ctx fuel source heap) hrun
  rcases Proc.exec_cases hspec with ⟨r',hreturned,hresult⟩ | ⟨hreturned,-⟩
  · rw [congrArg Prod.fst hrun] at hreturned
    obtain rfl := Option.some.inj hreturned
    rw [congrArg Prod.snd hrun] at hresult
    exact ⟨hresult.resolve_right fun hfailed => hfailed.1 hok,by rw [hends.published_eq,if_pos hok]⟩
  · rw [congrArg Prod.fst hrun] at hreturned
    simp at hreturned

end Run

end Compressor
end EspCompressor
