import EspCompressor.Acceptance
import EspCompressor.CompressRun

/-! Both runs together: what `runCompress` publishes from an honest source, `runDecompress`
turns back into the bytes of the source. -/
namespace EspCompressor
namespace Compressor

open Container

variable {σ κ : Type}

/-! ### Honest sources -/

section Honest

variable {source : CompressionSource σ} {d : List UInt8} {known : Bool} {Inv : List UInt8 → σ → Prop}

/-- An honest source is read to its end. -/
theorem honest_readAll (h : Honest source d known Inv) {blockSize : ℕ} (hpos : 0 < blockSize) (n : ℕ)
    {rest : List UInt8} {s : σ} (hinv : Inv rest s) (hn : rest.length < n) :
    ∃ chunks, readAll source blockSize n s = some chunks := by
  induction n generalizing rest s with
  | zero => exact absurd hn (Nat.not_lt_zero _)
  | succ n ih =>
    obtain ⟨rest',hrest,hinv'⟩ := h.read_inv blockSize hinv
    have hread := h.read_ok blockSize hinv
    simp only [readAll]
    rw [if_neg (not_not.mpr hread)]
    by_cases hempty : (source.read blockSize s).1.data.length = 0
    · have hended := h.eof_read blockSize hinv hpos (List.length_eq_zero_iff.mp hempty)
      exact ⟨[],by rw [if_pos hempty,if_pos hended]⟩
    · have hlen : rest.length = (source.read blockSize s).1.data.length + rest'.length := by
        rw [hrest,List.length_append]
      obtain ⟨chunks,hchunks⟩ := ih (h.eof_inv hinv') (by omega)
      exact ⟨_,by rw [if_neg hempty,hchunks]; rfl⟩

/-- What is read from an honest source is what it has, and only the last chunk may be its end. -/
theorem honest_readAll_some (h : Honest source d known Inv) {blockSize : ℕ} (hpos : 0 < blockSize)
    {n : ℕ} {rest : List UInt8} {s : σ} (hinv : Inv rest s) {chunks : List (List UInt8 × Bool)}
    (hchunks : readAll source blockSize n s = some chunks) :
    chunkData chunks = rest ∧ ∀ c ∈ chunks.dropLast, c.2 = false := by
  induction n generalizing rest s chunks with
  | zero => simp [readAll] at hchunks
  | succ n ih =>
    obtain ⟨rest',hrest,hinv'⟩ := h.read_inv blockSize hinv
    simp only [readAll] at hchunks
    split_ifs at hchunks with herr hempty hended
    · obtain rfl := Option.some.inj hchunks
      have hnil : rest = [] := by
        by_contra hne
        exact h.read_nonempty blockSize hinv hpos hne (List.length_eq_zero_iff.mp hempty)
      exact ⟨hnil.symm,by simp⟩
    · rw [Option.map_eq_some_iff] at hchunks
      obtain ⟨cs,hcs,rfl⟩ := hchunks
      obtain ⟨hdata,hlast⟩ := ih (h.eof_inv hinv') hcs
      refine ⟨by rw [chunkData_cons,hdata,← hrest],?_⟩
      cases cs with
      | nil => simp
      | cons c cs =>
        rw [List.dropLast_cons_cons]
        refine List.forall_mem_cons.mpr ⟨?_,hlast⟩
        -- data came after this chunk, so the source had not ended
        by_contra hended
        have hnil := h.eof_late hinv' (Bool.eq_true_of_not_eq_false hended)
        have hne := (readAll_chunks hcs c List.mem_cons_self).1
        rw [hnil,chunkData_cons] at hdata
        exact hne (List.append_eq_nil_iff.mp hdata).1

theorem honest_declared (h : Honest source d known Inv) {s : σ} (hinv : Inv d s) :
    Inv d (declared source s).2 := by
  have hasked := h.hasKnownSize_inv hinv
  unfold declared
  dsimp only
  split_ifs
  · exact h.totalSize_inv hasked
  · exact hasked

theorem honest_beforeReads (h : Honest source d known Inv) (blockSize : ℕ) {s : σ} (hinv : Inv d s) :
    Inv d (beforeReads source blockSize s) :=
  h.totalSize_inv (h.hasKnownSize_inv (h.hasKnownSize_inv (honest_declared h hinv)))

/-- The header declares the size of an honest source, or leaves it open. -/
theorem honest_fileHeader (h : Honest source d known Inv) (blockSize : ℕ) {s : σ} (hinv : Inv d s)
    (hknown : ¬UnknownSize (fileHeader source blockSize s).1) :
    (fileHeader source blockSize s).1.originalSize = UInt64.ofNat d.length := by
  have hflag : (source.hasKnownSize (declared source s).2).1 = true := by
    by_contra hno
    refine hknown ?_
    unfold UnknownSize fileHeader
    dsimp only
    rw [if_neg hno]
    decide
  have hyes : known = true := (h.known_eq (honest_declared h hinv)).symm.trans hflag
  have hsize : (declared source s).1 = (source.totalSize (source.hasKnownSize s).2).1 := by
    unfold declared
    dsimp only
    rw [if_pos ((h.known_eq hinv).trans hyes)]
  exact hsize.trans (h.size_eq (h.hasKnownSize_inv hinv) hyes)

end Honest

/-- The header and the chunks of a valid configuration are within the bounds of the format. -/
theorem transcript_bounds {source : CompressionSource σ} {config : ESPCompressorConfig}
    (hvalid : ValidConfig config) {fuel : ℕ} {s : σ} {header : EscHeader}
    {chunks : List (List UInt8 × Bool)}
    (h : transcript source config.blockSize fuel s = some (header,chunks)) :
    HeaderOk header ∧ ∀ c ∈ chunks, c.1 ≠ [] ∧ c.1.length ≤ header.blockSize.toNat := by
  rw [transcript,Option.map_eq_some_iff] at h
  obtain ⟨cs,hcs,heq⟩ := h
  obtain ⟨rfl,rfl⟩ := Prod.mk.inj heq
  have hblock : (UInt32.ofNat config.blockSize).toNat = config.blockSize :=
    UInt32.toNat_ofNat_of_lt' (Nat.lt_succ_of_le hvalid.2.2)
  refine ⟨⟨rfl,rfl,fun hzero => ?_⟩,fun c hc => ?_⟩
  · have hnat := congrArg UInt32.toNat hzero
    exact hvalid.1 (hblock.symm.trans hnat)
  · obtain ⟨hne,hle⟩ := readAll_chunks hcs c hc
    exact ⟨hne,hle.trans hblock.ge⟩

/-- Chunks of which only the last may end, under a header that declares their size or leaves it
open, make a container of their data. -/
theorem decode_of_transcript {source : CompressionSource σ} {config : ESPCompressorConfig}
    (hvalid : ValidConfig config) {fuel : ℕ} {s : σ} {header : EscHeader}
    {chunks : List (List UInt8 × Bool)}
    (h : transcript source config.blockSize fuel s = some (header,chunks))
    (hended : ∀ c ∈ chunks.dropLast, c.2 = false) (hsize : ¬UnknownSize header →
      header.originalSize = UInt64.ofNat (chunkData chunks).length) :
    decode (encode header (blocksOf config.windowSize chunks)) = .ok (chunkData chunks,[]) := by
  obtain ⟨hok,hchunks⟩ := transcript_bounds hvalid h
  exact decode_ok_iff.mpr ⟨_,_,(List.append_nil _).symm,hok,
    blocksOf_blocks config.windowSize hchunks hended,fun hu => (hsize hu).symm⟩

/-- A compression from an honest source of `d`. -/
structure CompressRun (d : List UInt8) where
  σ : Type
  κ : Type
  ctx : RunContext σ κ
  source : σ
  k₀ : κ
  heap : Heap
  fuel : ℕ
  known : Bool
  Inv : List UInt8 → σ → Prop
  honest : Honest ctx.source d known Inv
  opened : Inv d (ctx.source.open' source).2

namespace CompressRun

variable {d : List UInt8}

/-- The result of the run and its final state. -/
def run (job : CompressRun d) : Option CompressionResult × RunState job.σ job.κ :=
  Proc.exec (runCompress job.ctx job.fuel) (.start job.source job.k₀ job.heap)

/-- The header and the chunks that the source gives. -/
def transcript (job : CompressRun d) : Option (EscHeader × List (List UInt8 × Bool)) :=
  Compressor.transcript job.ctx.source job.ctx.config.blockSize job.fuel
    (job.ctx.source.open' job.source).2

/-- The container of what the source gives. -/
def container (job : CompressRun d) : Option (List UInt8) :=
  job.transcript.map fun t => encode t.1 (blocksOf job.ctx.config.windowSize t.2)

/-- What the source of the run gives. -/
theorem transcript_some (job : CompressRun d) (hpos : 0 < job.ctx.config.blockSize)
    {header : EscHeader} {chunks : List (List UInt8 × Bool)}
    (h : job.transcript = some (header,chunks)) : chunkData chunks = d ∧
      (∀ c ∈ chunks.dropLast, c.2 = false) ∧
      (¬UnknownSize header → header.originalSize = UInt64.ofNat d.length) := by
  rw [transcript,Compressor.transcript,Option.map_eq_some_iff] at h
  obtain ⟨cs,hcs,heq⟩ := h
  obtain ⟨rfl,rfl⟩ := Prod.mk.inj heq
  obtain ⟨hdata,hlast⟩ := honest_readAll_some job.honest hpos
    (honest_beforeReads job.honest _ job.opened) hcs
  exact ⟨hdata,hlast,honest_fileHeader job.honest _ job.opened⟩

/-- A run that returns `Ok` has published a container of `d`. -/
theorem result (job : CompressRun d) {r : CompressionResult} {s : RunState job.σ job.κ}
    (hrun : job.run = (some r,s)) (hok : r.error = .ok) :
    ∃ c, job.container = some c ∧ published s.trace = some c ∧ decode c = .ok (d,[]) ∧
      r.inputBytes = UInt64.ofNat d.length ∧
      ∃ k, Staged job.ctx.sink job.k₀ c k ∧ (job.ctx.sink.commit k).1 = .ok ∧
        r.outputBytes = job.ctx.sink.bytesWritten (job.ctx.sink.commit k).2 := by
  obtain ⟨hdone,hpublished⟩ := compressed_of_exec hrun hok
  obtain ⟨header,chunks,htranscript,hwritten,hinput⟩ := hdone.written_eq
  obtain ⟨hdata,hlast,hsize⟩ := job.transcript_some (Nat.pos_of_ne_zero hdone.valid.1) htranscript
  have hdecode := decode_of_transcript hdone.valid htranscript hlast (by rwa [hdata])
  refine ⟨encode header (blocksOf job.ctx.config.windowSize chunks),?_,?_,?_,?_,?_⟩
  · rw [container,show job.transcript = _ from htranscript]
    rfl
  · rw [hpublished,hwritten]
  · rw [hdecode,hdata]
  · rw [hinput,hdata]
  · rw [← hwritten]
    exact hdone.outputBytes

end CompressRun

/-- A compression of `d` that nothing hinders: the configuration is valid, the sink accepts
writes, there is enough memory and no cancellation. -/
structure CompressJob (d : List UInt8) extends CompressRun d where
  valid : ValidConfig ctx.config
  open_ok : (ctx.source.open' source).1 = .ok
  unhindered : Unhindered ctx k₀ heap (blockNeed ctx.config.blockSize)
  fuel_gt : d.length < fuel

namespace CompressJob

variable {d : List UInt8}

/-- The job from a `BufferSource` into a `DynamicBufferSink`. -/
def ofBuffer (d : List UInt8) (config : ESPCompressorConfig) (valid : ValidConfig config) :
    CompressJob d where
  σ := BufferSource
  κ := DynamicBufferSink
  ctx := { config, operation := .compress, source := BufferSource.source, sink := DynamicBufferSink.sink }
  source := ⟨d,0,false⟩
  k₀ := ⟨[],.new,false,.unlimited⟩
  heap := .unlimited
  fuel := d.length + 1
  known := true
  Inv := BufferSource.Remains d
  honest := BufferSource.honest d
  opened := BufferSource.remains_open d
  valid
  open_ok := rfl
  unhindered := ⟨.inl rfl,DynamicBufferSink.accepts Heap.unlimited_ample,Heap.unlimited_ample _,
    fun _ => rfl⟩
  fuel_gt := Nat.lt_add_one _

/-- The job from a `StreamSource` of unknown size, which gives one piece after another, into
a `DynamicBufferSink`. -/
def ofPieces (pieces : List (List UInt8)) (hpieces : ∀ piece ∈ pieces, piece ≠ [])
    (config : ESPCompressorConfig) (valid : ValidConfig config) : CompressJob pieces.flatten where
  σ := StreamSource (List (List UInt8))
  κ := DynamicBufferSink
  ctx :=
    { config
      operation := .compress
      source := StreamSource.source piecesStream
      sink := DynamicBufferSink.sink }
  source := { stream := pieces }
  k₀ := ⟨[],.new,false,.unlimited⟩
  heap := .unlimited
  fuel := pieces.flatten.length + 1
  known := false
  Inv := StreamSource.Remains
  honest := StreamSource.honest _
  opened := ⟨rfl,rfl,hpieces,Bool.noConfusion⟩
  valid
  open_ok := rfl
  unhindered := ⟨.inl rfl,DynamicBufferSink.accepts Heap.unlimited_ample,Heap.unlimited_ample _,
    fun _ => rfl⟩
  fuel_gt := Nat.lt_succ_self _

/-- The same into a sink that keeps nothing. -/
def ofStream (pieces : List (List UInt8)) (hpieces : ∀ piece ∈ pieces, piece ≠ [])
    (config : ESPCompressorConfig) (valid : ValidConfig config) : CompressJob pieces.flatten where
  σ := StreamSource (List (List UInt8))
  κ := UInt64
  ctx :=
    { config
      operation := .compress
      source := StreamSource.source piecesStream
      sink := countingSink }
  source := { stream := pieces }
  k₀ := 0
  heap := .unlimited
  fuel := pieces.flatten.length + 1
  known := false
  Inv := StreamSource.Remains
  honest := StreamSource.honest _
  opened := ⟨rfl,rfl,hpieces,Bool.noConfusion⟩
  valid
  open_ok := rfl
  unhindered := ⟨.inl rfl,countingSink_accepts 0,Heap.unlimited_ample _,fun _ => rfl⟩
  fuel_gt := Nat.lt_succ_self _

/-- The job returns `Ok`. -/
theorem returns (job : CompressJob d) : ∃ r s, job.run = (some r,s) ∧ r.error = .ok := by
  have hspec := @runCompress_spec _ _ job.ctx job.k₀ job.heap job.fuel job.source
  obtain ⟨chunks,hchunks⟩ := honest_readAll job.honest (Nat.pos_of_ne_zero job.valid.1) job.fuel
    (honest_beforeReads job.honest job.ctx.config.blockSize job.opened) job.fuel_gt
  have htranscript : transcript job.ctx.source job.ctx.config.blockSize job.fuel
      (job.ctx.source.open' job.source).2 ≠ none := by
    rw [transcript,hchunks]
    simp
  rcases Proc.exec_cases hspec with ⟨r,hreturned,hdone | ⟨-,hfailed⟩⟩ | ⟨-,hpending⟩
  · exact ⟨r,job.run.2,Prod.ext hreturned rfl,hdone.error⟩
  · rcases hfailed with (hinvalid | hopen | hnone) | hhindered
    · exact absurd job.valid hinvalid
    · exact absurd job.open_ok hopen
    · exact absurd hnone htranscript
    · exact absurd job.unhindered hhindered
  · exact absurd hpending htranscript

end CompressJob

/-- What one run published is a container for the other, whose whole length it consumes; the
counter of the input is that length modulo `2 ^ 64`. -/
theorem round_trip {d : List UInt8} (job : CompressJob d) :
    ∃ r s, job.run = (some r,s) ∧ r.error = .ok ∧ ∃ c, published s.trace = some c ∧
      ∀ job' : DecompressJob c, ∃ r' s', job'.run = (some r',s') ∧ r'.error = .ok ∧
        published s'.trace = some d ∧ (meter s'.trace).position = c.length ∧
        r'.inputBytes = UInt64.ofNat c.length := by
  obtain ⟨r,s,hrun,hok⟩ := job.returns
  obtain ⟨c,-,hpublished,hdecode,-⟩ := job.result hrun hok
  refine ⟨r,s,hrun,hok,c,hpublished,fun job' => ?_⟩
  obtain ⟨r',s',hrun',hok',hpublished',hdone⟩ := job'.returns_ok hdecode
  obtain ⟨rest,hrest,hposition⟩ := hdone.decoded
  rw [hdecode] at hrest
  obtain ⟨-,rfl⟩ := Prod.mk.inj (Except.ok.inj hrest)
  have hconsumed : (meter s'.trace).position = c.length := hposition
  exact ⟨r',s',hrun',hok',hpublished',hconsumed,by rw [hdone.inputBytes,hconsumed]⟩

/-- Chunks of bounded length are many when their data is long. -/
theorem chunkData_length_le {blockSize : ℕ} {chunks : List (List UInt8 × Bool)}
    (h : ∀ c ∈ chunks, c.1.length ≤ blockSize) :
    (chunkData chunks).length ≤ chunks.length * blockSize := by
  induction chunks with
  | nil => exact Nat.zero_le _
  | cons c cs ih =>
    obtain ⟨hc,hcs⟩ := List.forall_mem_cons.mp h
    have htail := ih hcs
    rw [chunkData_cons,List.length_append,List.length_cons,Nat.succ_mul]
    omega

/-- In blocks of one byte, every byte costs a record. -/
theorem CompressRun.container_length_ge {d : List UInt8} (job : CompressRun d)
    (hone : job.ctx.config.blockSize = 1) {c : List UInt8} (h : job.container = some c) :
    13 * d.length ≤ c.length := by
  rw [container,Option.map_eq_some_iff] at h
  obtain ⟨⟨header,chunks⟩,htranscript,rfl⟩ := h
  obtain ⟨hdata,-⟩ := job.transcript_some (by rw [hone]; exact Nat.one_pos) htranscript
  rw [transcript,Compressor.transcript,Option.map_eq_some_iff] at htranscript
  obtain ⟨cs,hcs,heq⟩ := htranscript
  obtain ⟨-,rfl⟩ := Prod.mk.inj heq
  have hmany := chunkData_length_le fun x hx => (readAll_chunks hcs x hx).2
  have hblocks : cs.length ≤ (blocksOf job.ctx.config.windowSize cs).length := by simp [blocksOf]
  have hrecords := records_length_ge (blocksOf job.ctx.config.windowSize cs)
  rw [hone,hdata,Nat.mul_one] at hmany
  dsimp only
  rw [encode,List.length_append]
  omega

theorem validConfig_one : ValidConfig { blockSize := 1, windowSize := 1 } :=
  ⟨by simp,by simp,by simp [uint32Max]⟩

theorem bytewise_ne_nil (n : ℕ) : ∀ piece ∈ List.replicate n [(0 : UInt8)], piece ≠ [] := by
  intro piece hpiece
  rw [List.eq_of_mem_replicate hpiece]
  exact List.cons_ne_nil _ _

/-- In blocks of one byte, the container of a stream of `2 ^ 63` bytes is longer than the counter of the
input can say. -/
theorem round_trip_wraps : ∃ r s,
    (CompressJob.ofStream (List.replicate (2 ^ 63) [0]) (bytewise_ne_nil _) { blockSize := 1, windowSize := 1 }
      validConfig_one).run = (some r,s) ∧ r.error = .ok ∧
    ∃ c hne, published s.trace = some c ∧ ∃ r' s', (DecompressJob.ofStream c hne).run = (some r',s') ∧
      r'.error = .ok ∧ r'.inputBytes.toNat ≠ c.length := by
  generalize hn : 2 ^ 63 = n
  let job := CompressJob.ofStream (List.replicate n [0]) (bytewise_ne_nil n) { blockSize := 1, windowSize := 1 }
    validConfig_one
  obtain ⟨r,s,hrun,hok⟩ := job.returns
  obtain ⟨c,hcontainer,hpublished,hdecode,-⟩ := job.result hrun hok
  have hlen := job.container_length_ge rfl hcontainer
  have hflat : (List.replicate n [(0 : UInt8)]).flatten.length = n := by simp
  have hne : c ≠ [] := List.ne_nil_of_length_pos (by omega)
  obtain ⟨r',s',hrun',hok',-⟩ := (DecompressJob.ofStream c hne).returns_ok hdecode
  refine ⟨r,s,hrun,hok,c,hne,hpublished,r',s',hrun',hok',?_⟩
  have hlt := r'.inputBytes.toNat_lt
  omega

end Compressor
end EspCompressor
