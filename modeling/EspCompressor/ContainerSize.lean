import EspCompressor.MemorySinks
import EspCompressor.RoundTrip
import Mathlib.Algebra.Order.Floor.Div

/-! How long a container can be: the raw fallback keeps every block as short as its data, so a
container costs its header and one record for each read, whatever the encoder does. -/
namespace EspCompressor

namespace Container

/-- What the records of some more chunks can take, when the source has `ended` before them. -/
def room : Bool → List (List UInt8 × Bool) → ℕ
  | ended, [] => if ended then 0 else 13
  | _, c :: cs => 13 + c.1.length + room c.2 cs

theorem room_le (ended : Bool) (chunks : List (List UInt8 × Bool)) :
    room ended chunks ≤ (chunkData chunks).length + 13 * (chunks.length + 1) := by
  induction chunks generalizing ended with
  | nil =>
    unfold room
    split_ifs <;> omega
  | cons c cs ih =>
    have htail := ih c.2
    simp only [room,chunkData_cons,List.length_append,List.length_cons]
    omega

theorem chunkBlock_payload_le (windowSize : ℕ) (chunk : List UInt8) (ended : Bool) :
    (chunkBlock windowSize chunk ended).payload.length ≤ chunk.length := by
  dsimp only [chunkBlock]
  split_ifs with h
  · exact le_refl _
  · simp only [decide_eq_true_eq,not_le] at h
    exact h.le

/-- The blocks of some chunks fit into the room for them. -/
theorem blocksOf_length_le (windowSize : ℕ) (chunks : List (List UInt8 × Bool)) :
    ((blocksOf windowSize chunks).flatMap Block.bytes).length ≤ room false chunks := by
  induction chunks with
  | nil => exact le_refl _
  | cons c cs ih =>
    obtain ⟨chunk,ended⟩ := c
    have hpayload := chunkBlock_payload_le windowSize chunk ended
    cases cs with
    | nil =>
      cases ended with
      | true =>
        simp only [blocksOf,lastEnded_singleton,room,List.map_cons,List.map_nil,if_true,
          List.append_nil,List.flatMap_cons,List.flatMap_nil,Block.bytes_length]
        omega
      | false =>
        have hterminator : terminator.payload.length = 0 := rfl
        simp only [blocksOf,lastEnded_singleton,room,List.map_cons,List.map_nil,Bool.false_eq_true,
          if_false,List.cons_append,List.nil_append,List.flatMap_cons,List.flatMap_nil,
          List.append_nil,List.length_append,Block.bytes_length,hterminator]
        omega
    | cons c' cs =>
      have hblocks : blocksOf windowSize ((chunk,ended) :: c' :: cs) =
          chunkBlock windowSize chunk ended :: blocksOf windowSize (c' :: cs) := by simp [blocksOf]
      rw [hblocks,List.flatMap_cons,List.length_append,Block.bytes_length]
      simp only [room] at ih ⊢
      omega

theorem encode_length_le (header : EscHeader) (windowSize : ℕ) (chunks : List (List UInt8 × Bool)) :
    (encode header (blocksOf windowSize chunks)).length ≤ 24 + room false chunks := by
  have hblocks := blocksOf_length_le windowSize chunks
  rw [encode,List.length_append,EscFormat.headerBytes_length]
  omega

/-- A record stores at most its data, and exactly as much only when it is raw. -/
structure Block.Compact (b : Block) : Prop where
  payload_length : b.payload.length = b.header.storedSize.toNat
  stored_le : b.header.storedSize ≤ b.header.originalSize
  stored_eq_iff : b.header.storedSize = b.header.originalSize ↔ b.IsRaw

theorem terminator_compact : terminator.Compact := ⟨rfl,UInt32.le_refl _,iff_of_true rfl (by decide)⟩

theorem chunkBlock_compact (windowSize : ℕ) {chunk : List UInt8} (ended : Bool) (hne : chunk ≠ [])
    (hle : chunk.length ≤ uint32Max) : (chunkBlock windowSize chunk ended).Compact := by
  have hsize : (UInt32.ofNat uint32Max).toNat = uint32Max := rfl
  have hwell : (chunkBlock windowSize chunk ended).WellFormed { blockSize := UInt32.ofNat uint32Max } chunk :=
    chunkBlock_wellFormed windowSize ended hne (hle.trans hsize.ge)
  refine ⟨hwell.payload_length,hwell.stored_le,fun heq => ?_,hwell.raw_eq⟩
  rw [chunkBlock_isRaw]
  -- a block that is not raw is shorter than its chunk
  by_contra hlt
  have hstored := congrArg UInt32.toNat heq
  rw [← hwell.payload_length,← hwell.data_length] at hstored
  have hencoded : (chunkBlock windowSize chunk ended).payload = LzLite.encodeBlock chunk windowSize := by
    simp [chunkBlock,hlt]
  rw [hencoded] at hstored
  exact hlt hstored.ge

theorem blocksOf_compact (windowSize : ℕ) {chunks : List (List UInt8 × Bool)}
    (h : ∀ c ∈ chunks, c.1 ≠ [] ∧ c.1.length ≤ uint32Max) :
    ∀ b ∈ blocksOf windowSize chunks, b.Compact := by
  intro b hb
  rw [blocksOf,List.mem_append,List.mem_map] at hb
  rcases hb with ⟨c,hc,rfl⟩ | hb
  · exact chunkBlock_compact windowSize c.2 (h c hc).1 (h c hc).2
  · split_ifs at hb
    · simp at hb
    · rw [List.mem_singleton.mp hb]
      exact terminator_compact

end Container

namespace Compressor

open Container EscFormat

variable {σ κ : Type}

/-- The source opens, and gives `d` in `reads` reads that are not empty. -/
structure DeliversIn (source : CompressionSource σ) (blockSize : ℕ) (src : σ) (d : List UInt8)
    (reads : ℕ) : Prop where
  open_ok : (source.open' src).1 = .ok
  chunks : ∃ n chunks, readAll source blockSize n
    (beforeReads source blockSize (source.open' src).2) = some chunks ∧
    chunkData chunks = d ∧ chunks.length = reads

/-- More rounds read the same. -/
theorem readAll_unique {source : CompressionSource σ} {blockSize m n : ℕ} {s : σ}
    {chunks chunks' : List (List UInt8 × Bool)} (h : readAll source blockSize m s = some chunks)
    (h' : readAll source blockSize n s = some chunks') : chunks = chunks' := by
  induction m generalizing n s chunks chunks' with
  | zero => simp [readAll] at h
  | succ m ih =>
    cases n with
    | zero => simp [readAll] at h'
    | succ n =>
      simp only [readAll] at h h'
      split_ifs at h h' with herr hempty hended
      · exact Option.some.inj (h.symm.trans h')
      · rw [Option.map_eq_some_iff] at h h'
        obtain ⟨cs,hcs,rfl⟩ := h
        obtain ⟨cs',hcs',rfl⟩ := h'
        rw [ih hcs hcs']

/-- The container that a run with the result `Ok` has published. -/
theorem container_of_exec {ctx : RunContext σ κ} {k₀ : κ} {heap : Heap} {fuel : ℕ} {src : σ}
    {r : CompressionResult} {s : RunState σ κ} {n : ℕ} {chunks : List (List UInt8 × Bool)}
    (hchunks : readAll ctx.source ctx.config.blockSize n
      (beforeReads ctx.source ctx.config.blockSize (ctx.source.open' src).2) = some chunks)
    (hrun : Proc.exec (runCompress ctx fuel) (.start src k₀ heap) = (some r,s)) (hok : r.error = .ok) :
    ∃ header, published s.trace = some (encode header (blocksOf ctx.config.windowSize chunks)) ∧
      ∀ b ∈ blocksOf ctx.config.windowSize chunks, b.Compact := by
  obtain ⟨hdone,hpublished⟩ := compressed_of_exec hrun hok
  obtain ⟨header,chunks',htranscript,hwritten,-⟩ := hdone.written_eq
  rw [transcript,Option.map_eq_some_iff] at htranscript
  obtain ⟨cs,hcs,heq⟩ := htranscript
  obtain ⟨-,rfl⟩ := Prod.mk.inj heq
  obtain rfl := readAll_unique hchunks hcs
  refine ⟨header,by rw [hpublished,hwritten],blocksOf_compact _ fun c hc => ?_⟩
  obtain ⟨hne,hle⟩ := readAll_chunks hcs c hc
  exact ⟨hne,hle.trans hdone.valid.2.2⟩

/-! ### Reads of a buffer -/

theorem bufferSource_eof {d rest : List UInt8} {s : BufferSource} (h : BufferSource.Remains d rest s) :
    (BufferSource.source.eof s).1 = true ↔ rest = [] := by
  simp only [BufferSource.source,decide_eq_true_iff]
  rw [h.rest_eq,List.drop_eq_nil_iff,h.data]

/-- How many blocks a buffer with `n` bytes left takes, when it has `ended` before them. -/
theorem bufferSource_room {d : List UInt8} {blockSize : ℕ} (hpos : 0 < blockSize) {n : ℕ}
    {rest : List UInt8} {s : BufferSource} (h : BufferSource.Remains d rest s)
    {chunks : List (List UInt8 × Bool)}
    (hchunks : readAll BufferSource.source blockSize n s = some chunks) (ended : Bool) :
    room ended chunks =
      if rest = [] then if ended then 0 else 13 else rest.length + 13 * (rest.length ⌈/⌉ blockSize) := by
  induction n generalizing rest s chunks ended with
  | zero => simp [readAll] at hchunks
  | succ n ih =>
    have honest := BufferSource.honest d
    have hdata : (BufferSource.source.read blockSize s).1.data = rest.take blockSize := by
      simp [BufferSource.source,h.isOpen,h.data,h.rest_eq]
    obtain ⟨rest',hrest,h'⟩ := honest.read_inv blockSize h
    have hended := bufferSource_eof h'
    simp only [readAll] at hchunks
    rw [hdata] at hrest hchunks
    have hlen := congrArg List.length hrest
    rw [List.length_append,List.length_take] at hlen
    split_ifs at hchunks with herr hempty hdone
    · obtain rfl := Option.some.inj hchunks
      have hnil : rest = [] := by
        rw [List.length_eq_zero_iff,List.take_eq_nil_iff] at hempty
        exact hempty.resolve_left hpos.ne'
      rw [if_pos hnil]
      rfl
    · rw [Option.map_eq_some_iff] at hchunks
      obtain ⟨cs,hcs,rfl⟩ := hchunks
      have hne : rest ≠ [] := fun hnil => hempty (by simp [hnil])
      have hpositive := List.length_pos_iff.mpr hne
      rw [if_neg hne,room,ih (honest.eof_inv h') hcs]
      simp only [List.length_take,Nat.ceilDiv_eq_add_pred_div]
      by_cases hlast : rest' = []
      · rw [if_pos hlast,if_pos (hended.mpr hlast)]
        rw [hlast,List.length_nil] at hlen
        have hone : (rest.length + blockSize - 1) / blockSize = 1 := by
          rw [Nat.div_eq_iff hpos]
          omega
        rw [hone]
        omega
      · rw [if_neg hlast]
        have hlong : blockSize < rest.length := by
          have := List.length_pos_iff.mpr hlast
          omega
        have hstep : (rest.length + blockSize - 1) / blockSize =
            (rest'.length + blockSize - 1) / blockSize + 1 := by
          rw [← Nat.add_div_right _ hpos]
          congr 1
          omega
        rw [hstep]
        omega

/-- The most that a container of `n` bytes from a buffer can measure. -/
def bufferBound (n blockSize : ℕ) : ℕ := if n = 0 then 37 else 24 + n + 13 * (n ⌈/⌉ blockSize)

theorem bufferSource_room_eq {d : List UInt8} {blockSize : ℕ} (hpos : 0 < blockSize) {n : ℕ}
    {src : BufferSource} (hsrc : src.data = d) {chunks : List (List UInt8 × Bool)}
    (hchunks : readAll BufferSource.source blockSize n
      (beforeReads BufferSource.source blockSize (BufferSource.source.open' src).2) = some chunks) :
    24 + room false chunks = bufferBound d.length blockSize := by
  have hremains : BufferSource.Remains d d
      (beforeReads BufferSource.source blockSize (BufferSource.source.open' src).2) := ⟨rfl,hsrc,rfl⟩
  rw [bufferSource_room hpos hremains hchunks,bufferBound]
  by_cases hnil : d = []
  · simp [hnil]
  · rw [if_neg hnil,if_neg fun hzero => hnil (List.length_eq_zero_iff.mp hzero)]
    omega

theorem bufferSource_delivers {d : List UInt8} {blockSize : ℕ} (hpos : 0 < blockSize)
    {src : BufferSource} (hsrc : src.data = d) : ∃ n chunks, readAll BufferSource.source blockSize n
      (beforeReads BufferSource.source blockSize (BufferSource.source.open' src).2) = some chunks := by
  have hremains : BufferSource.Remains d d
      (beforeReads BufferSource.source blockSize (BufferSource.source.open' src).2) := ⟨rfl,hsrc,rfl⟩
  exact ⟨_,honest_readAll (BufferSource.honest d) hpos (d.length + 1) hremains (Nat.lt_succ_self _)⟩

/-! ### A buffer with enough room -/

section Room

variable {ctx : RunContext σ FixedBufferSink} {capacity n n' : ℕ}

/-- An open `FixedBufferSink` that has staged at most `used` bytes. -/
structure HasRoom (capacity used : ℕ) (k : FixedBufferSink) : Prop where
  isOpen : k.isOpen = true
  capacity_eq : k.capacity = capacity
  staged_le : k.staging.size ≤ used

/-- A statement that writes at most `n` bytes and makes no call to the source; it does not overflow
a buffer that has room for them. -/
def Spends (capacity n : ℕ) {α : Type} (m : Proc CompressionResult (RunState σ FixedBufferSink) α)
    (P : α → Prop) : Prop :=
  ∀ used s, HasRoom capacity used s.sink → used + n ≤ capacity → Proc.wp m
    (fun a s' => P a ∧ HasRoom capacity (used + n) s'.sink ∧ s'.source = s.source)
    (fun r _ => r.error ≠ .outputOverflow) (fun _ => True) s

variable {α β : Type} {m : Proc CompressionResult (RunState σ FixedBufferSink) α} {P : α → Prop}

theorem Spends.pure {a : α} (h : P a) :
    Spends capacity 0 (Pure.pure a : Proc _ (RunState σ FixedBufferSink) α) P := fun used s hs _ => by
  rw [Proc.wp_pure]
  exact ⟨h,hs,rfl⟩

theorem Spends.bind {Q : β → Prop} {f : α → Proc CompressionResult (RunState σ FixedBufferSink) β}
    (hm : Spends capacity n m P) (hf : ∀ a, P a → Spends capacity n' (f a) Q) :
    Spends capacity (n + n') (m >>= f) Q := fun used s hs hroom => by
  rw [Proc.wp_bind]
  refine Proc.wp_mono (hm used s hs (by omega)) ?_ (fun _ _ h => h) fun _ h => h
  rintro a s' ⟨ha,hs',hsource⟩
  refine Proc.wp_mono (hf a ha (used + n) s' hs' (by omega)) ?_ (fun _ _ h => h) fun _ h => h
  rintro b s'' ⟨hb,hs'',hsource'⟩
  exact ⟨hb,by rwa [← Nat.add_assoc],hsource'.trans hsource⟩

/-- A statement that writes nothing, before others. -/
theorem Spends.bind_zero {Q : β → Prop} {f : α → Proc CompressionResult (RunState σ FixedBufferSink) β}
    (hm : Spends capacity 0 m P) (hf : ∀ a, P a → Spends capacity n (f a) Q) :
    Spends capacity n (m >>= f) Q := by
  have h := hm.bind hf
  rwa [Nat.zero_add] at h

theorem Spends.check {result : CompressionResult} {e : CompressionError} (h : e ≠ .outputOverflow) :
    Spends capacity 0 (check result e : Proc _ (RunState σ FixedBufferSink) Unit) fun _ => True :=
  fun used s hs _ => by
    rw [Compressor.check,Proc.wp_returnIf]
    exact ⟨fun _ => h,fun _ => ⟨trivial,hs,rfl⟩⟩

theorem Spends.get (f : RunState σ FixedBufferSink → α) :
    Spends capacity 0 (Proc.get f : Proc _ (RunState σ FixedBufferSink) α) fun _ => True :=
  fun used s hs _ => by
    rw [Proc.wp_get]
    exact ⟨trivial,hs,rfl⟩

/-- A write that finds room is staged, or memory runs out. -/
theorem HasRoom.write {used : ℕ} {k : FixedBufferSink} (h : HasRoom capacity used k)
    {bytes : List UInt8} (hroom : used + bytes.length ≤ capacity) :
    (FixedBufferSink.sink.write bytes k).1 ≠ .outputOverflow ∧
      ((FixedBufferSink.sink.write bytes k).1 = .ok →
        HasRoom capacity (used + bytes.length) (FixedBufferSink.sink.write bytes k).2) := by
  have hwrap : k.heap.wrap (k.staging.size + bytes.length) ≤ k.capacity := by
    have hle : k.heap.wrap (k.staging.size + bytes.length) ≤ k.staging.size + bytes.length := by
      unfold Heap.wrap
      split
      · exact le_refl _
      · exact Nat.mod_le _ _
    have hstaged := h.staged_le
    have hcapacity := h.capacity_eq
    omega
  obtain ⟨-,htrue,-,-⟩ := MemoryBuffer.append_spec bytes ⟨k.staging,k.heap⟩
  simp only [FixedBufferSink.sink,h.isOpen,Bool.true_eq_false,if_false,if_neg (not_lt.mpr hwrap)]
  split_ifs with happend
  · refine ⟨by simp,fun _ => ⟨rfl,h.capacity_eq,?_⟩⟩
    have hlength := congrArg List.length (htrue happend)
    rw [List.length_append,MemoryBuffer.contents_length,MemoryBuffer.contents_length] at hlength
    have hstaged := h.staged_le
    dsimp only at hlength ⊢
    omega
  · exact ⟨by simp,fun hok => absurd hok (by simp)⟩

theorem writeOrReturn_spends (result : CompressionResult) (bytes : List UInt8) :
    Spends capacity bytes.length (writeOrReturn FixedBufferSink.sink result bytes :
      Proc _ (RunState σ FixedBufferSink) Unit) fun _ => True := fun used s hs hroom => by
  obtain ⟨hoverflow,hstaged⟩ := hs.write hroom
  simp only [writeOrReturn,Proc.wp_bind,writeSink,Proc.wp_lift,check,Proc.wp_returnIf]
  exact ⟨fun _ => hoverflow,fun hok => ⟨trivial,hstaged (not_not.mp hok),trivial⟩⟩

/-- Statements that only append to the trace. -/
theorem shouldAbortForCancel_spends (result : CompressionResult) :
    Spends capacity 0 (shouldAbortForCancel ctx result) fun _ => True := fun used s hs _ => by
  simp only [shouldAbortForCancel,Proc.wp_bind,loadCancel,Proc.wp_lift,Proc.wp_returnIf]
  exact ⟨fun _ => by simp,fun _ => ⟨trivial,hs,trivial⟩⟩

theorem emitProgress_spends (progress : CompressionProgress) (result : CompressionResult) (done : Bool) :
    Spends capacity 0 (emitProgress progress result done :
      Proc _ (RunState σ FixedBufferSink) CompressionProgress) fun _ => True := fun used s hs _ => by
  simp only [emitProgress,Proc.wp_lift]
  exact ⟨trivial,hs,trivial⟩

theorem onBuffer_spends (buffer : MemoryBuffer) (op : BufferState → Bool × BufferState) :
    Spends capacity 0 (onBuffer buffer op :
      Proc _ (RunState σ FixedBufferSink) (Bool × MemoryBuffer)) fun _ => True := fun used s hs _ => by
  simp only [onBuffer,Proc.wp_lift]
  exact ⟨trivial,hs,trivial⟩

/-- A call that fills a local buffer. -/
theorem callWith_spends (buffer : MemoryBuffer)
    {f : Proc CompressionError BufferState CompressionError}
    {P : CompressionError × BufferState → Prop}
    (hf : ∀ t, Proc.wp f (fun e t' => P (e,t')) (fun e t' => P (e,t')) (fun _ => True) t) :
    Spends capacity 0 (callWith buffer f :
      Proc _ (RunState σ FixedBufferSink) (CompressionError × BufferState)) P := fun used s hs _ => by
  rw [callWith,Proc.wp_callOn]
  exact Proc.wp_mono (hf _) (fun _ _ h => ⟨h,hs,rfl⟩) (fun _ _ h => ⟨h,hs,rfl⟩) fun _ _ => trivial

/-- A statement with room for it, in place. -/
theorem HasRoom.spends {used : ℕ} {s : RunState σ FixedBufferSink} (h : HasRoom capacity used s.sink)
    (hroom : used + n ≤ capacity) (hm : Spends capacity n m P) :
    Proc.wp m (fun a s' => P a ∧ HasRoom capacity (used + n) s'.sink ∧ s'.source = s.source)
      (fun r _ => r.error ≠ .outputOverflow) (fun _ => True) s := hm used s h hroom

theorem HasRoom.mono {used used' : ℕ} {k : FixedBufferSink} (h : HasRoom capacity used k)
    (hle : used ≤ used') : HasRoom capacity used' k := ⟨h.isOpen,h.capacity_eq,h.staged_le.trans hle⟩

theorem encoder_noOverflow (chunk : List UInt8) (windowSize : ℕ) (t : BufferState) :
    Proc.wp (Codec.compressLzLiteBlock chunk windowSize) (fun e _ => e ≠ .outputOverflow)
      (fun e _ => e ≠ .outputOverflow) (fun _ => True) t := by
  refine Proc.wp_mono (Codec.compressLzLiteBlock_spec chunk windowSize t) ?_ ?_ fun _ _ => trivial
  · rintro e t' ⟨-,⟨rfl,-⟩ | ⟨rfl,-⟩⟩ <;> simp
  · rintro e t' ⟨-,⟨rfl,-⟩ | ⟨rfl,-⟩⟩ <;> simp

/-- One block takes 13 bytes and at most its data. -/
theorem compressChunk_room (hsink : ctx.sink = FixedBufferSink.sink) {v : CompressVars} {readBytes used : ℕ}
    {s : RunState σ FixedBufferSink} (h : HasRoom capacity used s.sink)
    (hroom : used + (13 + readBytes) ≤ capacity) :
    Proc.wp (compressChunk ctx v readBytes)
      (fun c s' => (∃ v', c = .inl v' ∧ v'.wroteAnyBlock = true ∧
          v'.lastBlockWasFinal = (ctx.source.eof s.source).1) ∧
        HasRoom capacity (used + (13 + readBytes)) s'.sink ∧ s'.source = (ctx.source.eof s.source).2)
      (fun r _ => r.error ≠ .outputOverflow) (fun _ => True) s := by
  set chunk := v.blockBuffer.contents.take readBytes with hchunk
  have hlen : chunk.length ≤ readBytes := List.length_take_le _ _
  simp only [compressChunk,← hchunk,hsink]
  rw [Proc.wp_bind]
  refine Proc.wp_mono (h.spends (Nat.le_of_add_right_le hroom) (callWith_spends
    (P := fun r => r.1 ≠ .outputOverflow) v.encodedBlock
    (encoder_noOverflow chunk ctx.config.windowSize))) ?_ (fun _ _ h => h) fun _ h => h
  rintro ⟨e,t⟩ s₁ ⟨he,h₁,hsource₁⟩
  rw [Proc.wp_bind]
  refine Proc.wp_mono (h₁.spends (Nat.le_of_add_right_le hroom) (Spends.check he)) ?_
    (fun _ _ h => h) fun _ h => h
  rintro _ s₂ ⟨-,h₂,hsource₂⟩
  set useRaw := decide (readBytes ≤ t.buffer.size) with huseRaw
  set payload := if useRaw = true then chunk else t.buffer.contents with hpayload
  have hpayloadLen : payload.length ≤ readBytes := by
    rw [hpayload]
    split_ifs with hraw
    · exact hlen
    · rw [MemoryBuffer.contents_length]
      simp only [huseRaw,decide_eq_true_eq,not_le] at hraw
      exact hraw.le
  simp only [Proc.wp_bind,sourceEof,Proc.wp_lift,check,Proc.wp_returnIf,hsource₂.trans hsource₁,
    encodeEscBlockHeader_spec _ _ List.length_replicate]
  refine ⟨fun hok => absurd rfl hok,fun _ => ?_⟩
  have hheader : ∀ header : EscBlockHeader, (blockHeaderBytes header).length = 13 :=
    blockHeaderBytes_length
  have h₃ : HasRoom capacity used s₂.sink := h₂
  refine Proc.wp_mono (writeOrReturn_spends v.result _ used _ h₃ ?_) ?_ (fun _ _ h => h) fun _ h => h
  · rw [hheader]
    omega
  rintro _ s₄ ⟨-,h₄,hsource₄⟩
  rw [hheader] at h₄
  refine Proc.wp_mono (h₄.spends (by omega) (writeOrReturn_spends v.result payload)) ?_
    (fun _ _ h => h) fun _ h => h
  rintro _ s₅ ⟨-,h₅,hsource₅⟩
  rw [sinkBytesWritten,Proc.wp_get]
  refine Proc.wp_mono (h₅.spends (by omega) (emitProgress_spends _ _ false)) ?_
    (fun _ _ h => h) fun _ h => h
  rintro progress s₆ ⟨-,h₆,hsource₆⟩
  refine ⟨⟨_,rfl,rfl,?_⟩,h₆.mono (by omega),by rw [hsource₆,hsource₅,hsource₄]⟩
  have hflag (raw ended : Bool) : decide (((if raw = true then kEscBlockFlagRaw else 0) |||
      (if ended = true then kEscBlockFlagFinal else 0)) &&& kEscBlockFlagFinal ≠ 0) = ended := by
    cases raw <;> cases ended <;> decide
  exact hflag useRaw (ctx.source.eof s.source).1

/-- The rounds take at most the room for the chunks that are read. -/
theorem compressLoop_room (hsink : ctx.sink = FixedBufferSink.sink) (fuel : ℕ) {v : CompressVars} {used : ℕ}
    {s : RunState σ FixedBufferSink} {chunks : List (List UInt8 × Bool)}
    (hchunks : readAll ctx.source ctx.config.blockSize n s.source = some chunks)
    (h : HasRoom capacity used s.sink)
    (hroom : used + room (v.wroteAnyBlock && v.lastBlockWasFinal) chunks ≤ capacity) :
    Proc.wp (Proc.loop (compressRound ctx) fuel v)
      (fun v' s' => ∃ used', HasRoom capacity used' s'.sink ∧
        used' + room (v'.wroteAnyBlock && v'.lastBlockWasFinal) [] ≤ capacity)
      (fun r _ => r.error ≠ .outputOverflow) (fun _ => True) s := by
  induction fuel generalizing n v used s chunks with
  | zero => trivial
  | succ fuel ih =>
    cases n with
    | zero => simp [readAll] at hchunks
    | succ n =>
      rw [Proc.wp_loop_succ,compressRound,Proc.wp_bind]
      refine Proc.wp_mono (h.spends (Nat.le_of_add_right_le hroom) (shouldAbortForCancel_spends v.result)) ?_
        (fun _ _ h => h) fun _ h => h
      rintro _ s₁ ⟨-,h₁,hsource₁⟩
      simp only [Proc.wp_bind,readSource,Proc.wp_lift,check,Proc.wp_returnIf,Proc.wp_ite,hsource₁]
      simp only [readAll] at hchunks
      split_ifs at hchunks with herr hempty hended
      · obtain rfl := Option.some.inj hchunks
        refine ⟨fun hfailed => absurd (not_not.mp herr) hfailed,fun _ => ⟨fun _ => ?_,
          fun hne => absurd hempty hne⟩⟩
        simp only [endOfInput,sourceEof,Proc.wp_bind,Proc.wp_lift,Proc.wp_returnIf,Proc.wp_pure]
        exact ⟨fun hno => absurd (hended.symm.trans hno) Bool.true_eq_false.mp,
          fun _ => ⟨used,h₁,hroom⟩⟩
      · rw [Option.map_eq_some_iff] at hchunks
        obtain ⟨cs,hcs,rfl⟩ := hchunks
        refine ⟨fun hfailed => absurd (not_not.mp herr) hfailed,fun _ => ⟨fun hzero => absurd hzero hempty,
          fun _ => ?_⟩⟩
        simp only [room] at hroom
        refine Proc.wp_mono (compressChunk_room hsink h₁ (by omega)) ?_ (fun _ _ h => h) fun _ h => h
        rintro c s₂ ⟨⟨v',rfl,hwrote,hfinal⟩,h₂,hsource₂⟩
        refine ih (hsource₂ ▸ hcs) h₂ ?_
        simp only [hwrote,hfinal,Bool.true_and]
        omega

theorem declaredSize_source {s : RunState σ FixedBufferSink}
    {R : CompressionResult → RunState σ FixedBufferSink → Prop} {S : RunState σ FixedBufferSink → Prop} :
    Proc.wp (declaredSize ctx.source)
      (fun _ s' => s'.source = (declared ctx.source s.source).2 ∧ s'.sink = s.sink) R S s := by
  simp only [declaredSize,sourceHasKnownSize,sourceTotalSize,Proc.wp_bind,Proc.wp_lift,Proc.wp_ite,
    Proc.wp_pure,declared]
  refine ⟨fun hknown => ?_,fun hunknown => ?_⟩
  · rw [if_pos hknown]
    exact ⟨rfl,trivial⟩
  · rw [if_neg hunknown]
    exact ⟨rfl,trivial⟩

/-- The file header takes 24 bytes. -/
theorem writeFileHeader_room (hsink : ctx.sink = FixedBufferSink.sink) {used : ℕ}
    {s : RunState σ FixedBufferSink} (h : HasRoom capacity used s.sink) (hroom : used + 24 ≤ capacity)
    (result : CompressionResult) :
    Proc.wp (writeFileHeader ctx result)
      (fun _ s' => HasRoom capacity (used + 24) s'.sink ∧
        s'.source = (fileHeader ctx.source ctx.config.blockSize s.source).2)
      (fun r _ => r.error ≠ .outputOverflow) (fun _ => True) s := by
  have hencode (header : EscHeader) (t : BufferState) : Proc.wp (encodeEscHeader header)
      (fun e t' => e = .ok ∧ t'.buffer.contents.length = 24 ∨ e = .noMemory)
      (fun e t' => e = .ok ∧ t'.buffer.contents.length = 24 ∨ e = .noMemory) (fun _ => True) t := by
    refine Proc.wp_mono (encodeEscHeader_spec header t) ?_ (fun e t' h => .inr h.2.1) fun _ h => h.elim
    rintro e t' ⟨-,rfl,hcontents⟩
    exact .inl ⟨rfl,by rw [hcontents,headerBytes_length]⟩
  rw [writeFileHeader,Proc.wp_bind]
  refine Proc.wp_mono declaredSize_source ?_ (fun _ _ h => h) fun _ h => h
  rintro size s₁ ⟨hsource₁,hsink₁⟩
  have h₁ : HasRoom capacity used s₁.sink := hsink₁ ▸ h
  simp only [Proc.wp_bind,sourceHasKnownSize,Proc.wp_lift,hsource₁]
  refine Proc.wp_mono (callWith_spends (P := fun r => r.1 = .ok ∧
    r.2.buffer.contents.length = 24 ∨ r.1 = .noMemory) .new (hencode _) used _ h₁
    (Nat.le_of_add_right_le hroom)) ?_ (fun _ _ h => h) fun _ h => h
  rintro ⟨e,t⟩ s₂ ⟨hdone,h₂,hsource₂⟩
  rw [check,Proc.wp_returnIf]
  rcases hdone with ⟨rfl,hlen⟩ | rfl
  · refine ⟨fun hok => absurd rfl hok,fun _ => ?_⟩
    have hwrite : Spends capacity t.buffer.contents.length (writeOrReturn FixedBufferSink.sink result
        t.buffer.contents : Proc _ (RunState σ FixedBufferSink) Unit) fun _ => True :=
      writeOrReturn_spends _ _
    rw [hlen] at hwrite
    rw [hsink]
    refine Proc.wp_mono (h₂.spends hroom hwrite) ?_ (fun _ _ h => h) fun _ h => h
    rintro _ s₃ ⟨-,h₃,hsource₃⟩
    exact ⟨h₃,hsource₃.trans hsource₂⟩
  · exact ⟨fun _ => by simp,fun hok => absurd (by simp) hok⟩

/-- The terminator takes 13 bytes, where it is needed. -/
theorem writeTerminator_spends (hsink : ctx.sink = FixedBufferSink.sink) (v : CompressVars) :
    Spends capacity (room (v.wroteAnyBlock && v.lastBlockWasFinal) []) (writeTerminator ctx v)
      fun _ => True := by
  have hresult (r : CompressionResult) : Spends capacity 0
      (pure r : Proc _ (RunState σ FixedBufferSink) CompressionResult) fun _ => True := Spends.pure trivial
  rw [writeTerminator,hsink]
  split_ifs with hneeded
  · have hroom : room (v.wroteAnyBlock && v.lastBlockWasFinal) [] = 13 := by
      rcases hneeded with h | h <;> simp [room,h]
    rw [hroom]
    simp only [encodeEscBlockHeader_spec _ _ List.length_replicate]
    refine (Spends.check (by simp)).bind_zero fun _ _ => ?_
    have hwrite : Spends capacity 13 (writeOrReturn FixedBufferSink.sink v.result
        (blockHeaderBytes { flags := kEscBlockFlagRaw ||| kEscBlockFlagFinal }) :
        Proc _ (RunState σ FixedBufferSink) Unit) fun _ => True :=
      writeOrReturn_spends v.result (blockHeaderBytes { flags := kEscBlockFlagRaw ||| kEscBlockFlagFinal })
    exact hwrite.bind fun _ _ => (Spends.get fun s =>
      FixedBufferSink.sink.bytesWritten s.sink).bind_zero fun _ _ => hresult _
  · have hroom : room (v.wroteAnyBlock && v.lastBlockWasFinal) [] = 0 := by
      simp only [not_or,Bool.not_eq_false] at hneeded
      simp [room,hneeded]
    rw [hroom]
    exact hresult v.result

theorem HasRoom.commit {used : ℕ} {k : FixedBufferSink} (h : HasRoom capacity used k)
    (hroom : used ≤ capacity) : (FixedBufferSink.sink.commit k).1 ≠ .outputOverflow := by
  have hfits : ¬k.capacity < k.staging.size := by
    rw [h.capacity_eq]
    exact not_lt.mpr (h.staged_le.trans hroom)
  simp only [FixedBufferSink.sink,h.isOpen,Bool.true_eq_false,if_false,dif_neg hfits]
  split <;> simp

/-- A compression into a buffer with enough room does not overflow it, however it ends. -/
theorem runCompress_room (hsink : ctx.sink = FixedBufferSink.sink) {src : σ} {k₀ : FixedBufferSink}
    {heap : Heap} {chunks : List (List UInt8 × Bool)} (hopen : (ctx.source.open' src).1 = .ok)
    (hchunks : readAll ctx.source ctx.config.blockSize n
      (beforeReads ctx.source ctx.config.blockSize (ctx.source.open' src).2) = some chunks)
    (hroom : 24 + room false chunks ≤ k₀.capacity) (fuel : ℕ) :
    Proc.wp (runCompress ctx fuel) (fun r _ => r.error ≠ .outputOverflow)
      (fun r _ => r.error ≠ .outputOverflow) (fun _ => True) (.start src k₀ heap) := by
  rw [runCompress,Proc.wp_bind,Proc.wp_returnIf]
  refine ⟨fun _ => by simp,fun _ => ?_⟩
  simp only [requireTransactional,Proc.wp_bind,Proc.wp_get,Proc.wp_returnIf]
  refine ⟨fun _ => by simp,fun _ => ?_⟩
  simp only [Proc.wp_destroying,openSession,openSource,openSink,Proc.wp_bind,Proc.wp_lift,check,
    Proc.wp_returnIf,Proc.wp_modify]
  refine ⟨fun hfailed => absurd hopen hfailed,fun _ => ⟨fun hfailed => absurd rfl (hsink ▸ hfailed),
    fun _ => ?_⟩⟩
  rw [compressSession,Proc.wp_bind]
  have h₀ : HasRoom k₀.capacity 0 (ctx.sink.open' k₀).2 := by
    rw [hsink]
    exact ⟨rfl,rfl,le_refl _⟩
  refine Proc.wp_mono (onBuffer_spends _ _ 0 _ h₀ (Nat.zero_le _)) ?_
    (fun _ _ h => h) fun _ h => h
  rintro buffer s₁ ⟨-,h₁,hsource₁⟩
  rw [Proc.wp_bind,Proc.wp_returnIf]
  refine ⟨fun _ => by simp,fun _ => ?_⟩
  rw [Proc.wp_bind]
  refine Proc.wp_mono (writeFileHeader_room hsink h₁ (by omega) _) ?_ (fun _ _ h => h) fun _ h => h
  rintro _ s₂ ⟨h₂,hsource₂⟩
  simp only [startProgress,sourceHasKnownSize,sourceTotalSize,Proc.wp_bind,Proc.wp_lift,Proc.wp_pure,
    sinkBytesWritten,Proc.wp_get]
  have hbefore : (ctx.source.totalSize (ctx.source.hasKnownSize s₂.source).2).2 =
      beforeReads ctx.source ctx.config.blockSize (ctx.source.open' src).2 := by
    rw [hsource₂,hsource₁]
    rfl
  rw [Nat.zero_add] at h₂
  refine Proc.wp_mono (compressLoop_room hsink fuel (hbefore ▸ hchunks) h₂ hroom) ?_
    (fun _ _ h => h) fun _ h => h
  rintro v s₃ ⟨used,h₃,hroom₃⟩
  refine Proc.wp_mono (h₃.spends hroom₃ (writeTerminator_spends hsink v)) ?_ (fun _ _ h => h) fun _ h => h
  rintro result s₄ ⟨-,h₄,-⟩
  refine Proc.wp_mono (h₄.spends hroom₃ (shouldAbortForCancel_spends result)) ?_
    (fun _ _ h => h) fun _ h => h
  rintro _ s₅ ⟨-,h₅,-⟩
  simp only [commitSession,Proc.wp_bind,commitSink,Proc.wp_lift,check,Proc.wp_returnIf,Proc.wp_modify,
    Proc.wp_pure,emitProgress]
  refine ⟨fun _ => hsink ▸ h₅.commit (by omega),fun hok => ?_⟩
  rw [not_not.mp hok]
  simp

end Room

/-! ### The bounds -/

/-- The blocks of a container from any source, and its length. -/
theorem delivered_size {ctx : RunContext σ κ} {k₀ : κ} {heap : Heap} {fuel reads : ℕ} {src : σ}
    {d : List UInt8} (hd : DeliversIn ctx.source ctx.config.blockSize src d reads)
    {r : CompressionResult} {s : RunState σ κ}
    (hrun : Proc.exec (runCompress ctx fuel) (.start src k₀ heap) = (some r,s)) (hok : r.error = .ok) :
    ∃ header blocks, published s.trace = some (encode header blocks) ∧ (∀ b ∈ blocks, b.Compact) ∧
      (encode header blocks).length ≤ 24 + d.length + 13 * (reads + 1) := by
  obtain ⟨n,chunks,hchunks,rfl,rfl⟩ := hd.chunks
  obtain ⟨header,hpublished,hcompact⟩ := container_of_exec hchunks hrun hok
  refine ⟨header,_,hpublished,hcompact,?_⟩
  have hlength := encode_length_le header ctx.config.windowSize chunks
  have hroom := room_le false chunks
  omega

/-- The length of a container from a buffer. -/
theorem buffer_size {ctx : RunContext BufferSource κ} (hsource : ctx.source = BufferSource.source) {k₀ : κ}
    {heap : Heap} {fuel : ℕ} {src : BufferSource} {r : CompressionResult} {s : RunState BufferSource κ}
    (hrun : Proc.exec (runCompress ctx fuel) (.start src k₀ heap) = (some r,s)) (hok : r.error = .ok) :
    ∃ c, published s.trace = some c ∧
      (src.data ≠ [] → c.length ≤
        24 + src.data.length + 13 * (src.data.length ⌈/⌉ ctx.config.blockSize)) ∧
      (src.data = [] → c.length = 37) := by
  have hpos : 0 < ctx.config.blockSize := Nat.pos_of_ne_zero (compressed_of_exec hrun hok).1.valid.1
  obtain ⟨n,chunks,hchunks⟩ := bufferSource_delivers hpos (show src.data = src.data from rfl)
  obtain ⟨header,hpublished,-⟩ := container_of_exec (hsource ▸ hchunks) hrun hok
  have hlength := encode_length_le header ctx.config.windowSize chunks
  rw [bufferSource_room_eq hpos rfl hchunks,bufferBound] at hlength
  refine ⟨_,hpublished,fun hne => ?_,fun hnil => ?_⟩
  · rwa [if_neg fun hzero => hne (List.length_eq_zero_iff.mp hzero)] at hlength
  · rw [if_pos (by rw [hnil]; rfl)] at hlength
    have hblocks : blocksOf ctx.config.windowSize chunks ≠ [] := by
      cases chunks with
      | nil => simp [blocksOf,lastEnded]
      | cons c cs => simp [blocksOf]
    have hmany := records_length_ge (blocksOf ctx.config.windowSize chunks)
    have hpositive := List.length_pos_iff.mpr hblocks
    rw [encode,List.length_append,headerBytes_length] at hlength ⊢
    omega

/-- No compression of the delivered bytes overflows a buffer of the bound's size. -/
theorem delivered_room {ctx : RunContext σ FixedBufferSink} (hsink : ctx.sink = FixedBufferSink.sink)
    {k₀ : FixedBufferSink} {heap : Heap} {fuel reads : ℕ} {src : σ} {d : List UInt8}
    (hd : DeliversIn ctx.source ctx.config.blockSize src d reads)
    (hroom : 24 + d.length + 13 * (reads + 1) ≤ k₀.capacity) {r : CompressionResult}
    {s : RunState σ FixedBufferSink}
    (hrun : Proc.exec (runCompress ctx fuel) (.start src k₀ heap) = (some r,s)) :
    r.error ≠ .outputOverflow := by
  obtain ⟨n,chunks,hchunks,rfl,rfl⟩ := hd.chunks
  have hbound := room_le false chunks
  exact Proc.exec_of_wp (runCompress_room hsink hd.open_ok hchunks (by omega) fuel) hrun

theorem buffer_room {ctx : RunContext BufferSource FixedBufferSink}
    (hsource : ctx.source = BufferSource.source) (hsink : ctx.sink = FixedBufferSink.sink)
    {k₀ : FixedBufferSink} {heap : Heap} {fuel : ℕ} {src : BufferSource}
    (hroom : bufferBound src.data.length ctx.config.blockSize ≤ k₀.capacity) {r : CompressionResult}
    {s : RunState BufferSource FixedBufferSink}
    (hrun : Proc.exec (runCompress ctx fuel) (.start src k₀ heap) = (some r,s)) :
    r.error ≠ .outputOverflow := by
  by_cases hzero : ctx.config.blockSize = 0
  · -- such a configuration is rejected
    have hrejected : Proc.wp (runCompress ctx fuel) (fun r _ => r.error ≠ .outputOverflow)
        (fun r _ => r.error ≠ .outputOverflow) (fun _ => True) (.start src k₀ heap) := by
      rw [runCompress,Proc.wp_bind,Proc.wp_returnIf]
      exact ⟨fun _ => by simp,fun hvalid => absurd (.inl hzero) hvalid⟩
    exact Proc.exec_of_wp hrejected hrun
  · have hpos := Nat.pos_of_ne_zero hzero
    obtain ⟨n,chunks,hchunks⟩ := bufferSource_delivers hpos (show src.data = src.data from rfl)
    rw [← bufferSource_room_eq hpos rfl hchunks] at hroom
    exact Proc.exec_of_wp (runCompress_room hsink (hsource ▸ rfl) (hsource ▸ hchunks) hroom fuel) hrun

/-- Containers are bounded by the reads that the source takes; a buffer takes as few as its blocks,
and a `FixedBufferSink` of the bound's size never overflows. -/
theorem container_size :
    (∀ (σ κ : Type) (ctx : RunContext σ κ) (k₀ : κ) (heap : Heap) (fuel reads : ℕ) (src : σ)
      (d : List UInt8) (r : CompressionResult) (s : RunState σ κ),
      DeliversIn ctx.source ctx.config.blockSize src d reads →
      Proc.exec (runCompress ctx fuel) (.start src k₀ heap) = (some r,s) → r.error = .ok →
      ∃ header blocks, published s.trace = some (encode header blocks) ∧
        (∀ b ∈ blocks, b.payload.length = b.header.storedSize.toNat ∧
          b.header.storedSize ≤ b.header.originalSize ∧
          (b.header.storedSize = b.header.originalSize ↔ b.IsRaw)) ∧
        (encode header blocks).length ≤ 24 + d.length + 13 * (reads + 1)) ∧
    (∀ (κ : Type) (ctx : RunContext BufferSource κ) (k₀ : κ) (heap : Heap) (fuel : ℕ)
      (src : BufferSource) (r : CompressionResult) (s : RunState BufferSource κ),
      ctx.source = BufferSource.source →
      Proc.exec (runCompress ctx fuel) (.start src k₀ heap) = (some r,s) → r.error = .ok →
      ∃ c, published s.trace = some c ∧
        (src.data ≠ [] → c.length ≤
          24 + src.data.length + 13 * (src.data.length ⌈/⌉ ctx.config.blockSize)) ∧
        (src.data = [] → c.length = 37)) ∧
    (∀ (σ : Type) (ctx : RunContext σ FixedBufferSink) (k₀ : FixedBufferSink) (heap : Heap)
      (fuel reads : ℕ) (src : σ) (d : List UInt8) (r : CompressionResult) (s : RunState σ FixedBufferSink),
      ctx.sink = FixedBufferSink.sink → DeliversIn ctx.source ctx.config.blockSize src d reads →
      24 + d.length + 13 * (reads + 1) ≤ k₀.capacity →
      Proc.exec (runCompress ctx fuel) (.start src k₀ heap) = (some r,s) →
      r.error ≠ .outputOverflow) ∧
    (∀ (ctx : RunContext BufferSource FixedBufferSink) (k₀ : FixedBufferSink) (heap : Heap)
      (fuel : ℕ) (src : BufferSource) (r : CompressionResult) (s : RunState BufferSource FixedBufferSink),
      ctx.source = BufferSource.source → ctx.sink = FixedBufferSink.sink →
      bufferBound src.data.length ctx.config.blockSize ≤ k₀.capacity →
      Proc.exec (runCompress ctx fuel) (.start src k₀ heap) = (some r,s) →
      r.error ≠ .outputOverflow) := by
  refine ⟨fun σ κ ctx k₀ heap fuel reads src d r s hd hrun hok => ?_,
    fun κ ctx k₀ heap fuel src r s hsource hrun hok => buffer_size hsource hrun hok,
    fun σ ctx k₀ heap fuel reads src d r s hsink hd hroom hrun => delivered_room hsink hd hroom hrun,
    fun ctx k₀ heap fuel src r s hsource hsink hroom hrun => buffer_room hsource hsink hroom hrun⟩
  obtain ⟨header,blocks,hpublished,hcompact,hlength⟩ := delivered_size hd hrun hok
  exact ⟨header,blocks,hpublished,
    fun b hb => ⟨(hcompact b hb).payload_length,(hcompact b hb).stored_le,(hcompact b hb).stored_eq_iff⟩,
    hlength⟩

/-- The run of a compression of three bytes in blocks of two, into a buffer of the size that the bound
tells. -/
def fittedRun : Option CompressionResult × RunState BufferSource FixedBufferSink :=
  Proc.exec (runCompress
      { config := { blockSize := 2, windowSize := 1 }, operation := .compress
        source := BufferSource.source, sink := FixedBufferSink.sink } 4)
    (.start ⟨[1,2,3],0,false⟩ ⟨some (List.replicate 53 0),53,.new,false,.unlimited,by simp⟩ .unlimited)

theorem container_size_fitted : fittedRun.1.map (·.error) = some .ok ∧
    ∃ c, published fittedRun.2.trace = some c ∧ c.length ≤ 53 := by
  have hok : fittedRun.1.map (·.error) = some .ok := by decide +kernel
  rcases hrun : fittedRun with ⟨o,s⟩
  rw [hrun] at hok
  obtain ⟨r,rfl,hr⟩ := Option.map_eq_some_iff.mp hok
  obtain ⟨c,hpublished,hlength,-⟩ := container_size.2.1 _ _ _ _ _ _ r s rfl hrun hr
  have hbound := hlength (List.cons_ne_nil _ _)
  simp only [Nat.ceilDiv_eq_add_pred_div,List.length_cons,List.length_nil] at hbound
  exact ⟨hok,c,hpublished,hbound⟩

end Compressor
end EspCompressor
