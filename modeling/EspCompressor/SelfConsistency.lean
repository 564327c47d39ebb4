import EspCompressor.BuiltinIo
import EspCompressor.CompressRun

/-! The containers that `runCompress` publishes from any source, honest or not: what they declare
about themselves, and what they hold. -/
namespace EspCompressor
namespace Container

open EscFormat

/-! ### One reading of the bytes -/

/-- Every payload has the length that its header gives. -/
def Framed (blocks : List Block) : Prop := ∀ b ∈ blocks, b.payload.length = b.header.storedSize.toNat

/-- Bytes are the records of at most one list of blocks. -/
theorem records_unique {blocks blocks' : List Block} (h : Framed blocks) (h' : Framed blocks')
    (hbytes : blocks.flatMap Block.bytes = blocks'.flatMap Block.bytes) : blocks = blocks' := by
  induction blocks generalizing blocks' with
  | nil =>
    cases blocks' with
    | nil => rfl
    | cons b' bs' =>
      have hlen := congrArg List.length hbytes
      simp only [List.flatMap_nil,List.flatMap_cons,List.length_nil,List.length_append,
        Block.bytes_length] at hlen
      omega
  | cons b bs ih =>
    cases blocks' with
    | nil =>
      have hlen := congrArg List.length hbytes
      simp only [List.flatMap_nil,List.flatMap_cons,List.length_nil,List.length_append,
        Block.bytes_length] at hlen
      omega
    | cons b' bs' =>
      obtain ⟨hb,hbs⟩ := List.forall_mem_cons.mp h
      obtain ⟨hb',hbs'⟩ := List.forall_mem_cons.mp h'
      simp only [List.flatMap_cons,Block.bytes,List.append_assoc] at hbytes
      obtain ⟨hheader,hrest⟩ := List.append_inj hbytes (by simp)
      have hsame : b.header = b'.header := blockHeaderBytes_injective hheader
      obtain ⟨hpayload,htail⟩ := List.append_inj hrest (by rw [hb,hb',hsame])
      rw [Block.ext hsame hpayload,ih hbs hbs' htail]

/-! ### What a container says about itself -/

/-- Exactly one block is final, and it is the last one. -/
def OnlyLastFinal (blocks : List Block) : Prop :=
  (∃ b, blocks.getLast? = some b ∧ b.IsFinal) ∧ ∀ b ∈ blocks.dropLast, ¬b.IsFinal

/-- The sum of the sizes that the blocks declare. -/
def totalOriginalSize (blocks : List Block) : ℕ :=
  (blocks.map fun b => b.header.originalSize.toNat).sum

/-- `c` is a container of `n` bytes, by its blocks and by its header. -/
def SelfConsistent (c : List UInt8) (n : UInt64) : Prop :=
  ∃ header blocks, c = encode header blocks ∧ Framed blocks ∧ OnlyLastFinal blocks ∧
    totalOriginalSize blocks = n.toNat ∧ (UnknownSize header ∨ header.originalSize = n)

theorem selfConsistent_encode {header : EscHeader} {blocks : List Block} (h : Framed blocks)
    (n : UInt64) : SelfConsistent (encode header blocks) n ↔
      OnlyLastFinal blocks ∧ totalOriginalSize blocks = n.toNat ∧
        (UnknownSize header ∨ header.originalSize = n) := by
  constructor
  · rintro ⟨header',blocks',hbytes,h',hfinal,htotal,hsize⟩
    obtain ⟨hheader,hrecords⟩ := List.append_inj hbytes (by simp)
    obtain rfl := records_unique h h' hrecords
    obtain ⟨crc,rfl⟩ := headerBytes_inj hheader
    exact ⟨hfinal,htotal,hsize⟩
  · rintro ⟨hfinal,htotal,hsize⟩
    exact ⟨header,blocks,rfl,h,hfinal,htotal,hsize⟩

/-! ### The encoder's blocks -/

section Chunks

variable (windowSize : ℕ) {chunks : List (List UInt8 × Bool)}

theorem blocksOf_framed (h : ∀ c ∈ chunks, c.1 ≠ [] ∧ c.1.length ≤ uint32Max) :
    Framed (blocksOf windowSize chunks) := by
  intro b hb
  rw [blocksOf,List.mem_append,List.mem_map] at hb
  rcases hb with ⟨c,hc,rfl⟩ | hb
  · have hmax : c.1.length ≤ (UInt32.ofNat uint32Max).toNat := (h c hc).2
    have hblock : (chunkBlock windowSize c.1 c.2).WellFormed { blockSize := UInt32.ofNat uint32Max } c.1 :=
      chunkBlock_wellFormed windowSize c.2 (h c hc).1 hmax
    exact hblock.payload_length
  · split_ifs at hb
    · simp at hb
    · rw [List.mem_singleton] at hb
      rw [hb]
      rfl

/-- The final flags are where they belong exactly if the source did not report its end before its
last chunk. -/
theorem blocksOf_onlyLastFinal :
    OnlyLastFinal (blocksOf windowSize chunks) ↔ ∀ c ∈ chunks.dropLast, c.2 = false := by
  have hmap (cs : List (List UInt8 × Bool)) :
      (∀ b ∈ cs.map fun c => chunkBlock windowSize c.1 c.2, ¬b.IsFinal) ↔ ∀ c ∈ cs, c.2 = false := by
    rw [List.forall_mem_map]
    simp only [chunkBlock_isFinal,Bool.not_eq_true]
  rcases List.eq_nil_or_concat' chunks with rfl | ⟨cs,c,rfl⟩
  · have hempty : OnlyLastFinal [terminator] := ⟨⟨_,rfl,by decide⟩,by simp⟩
    exact ⟨fun _ => by simp,fun _ => hempty⟩
  · rw [blocksOf,lastEnded_append_singleton,List.map_append,List.dropLast_concat]
    cases hc : c.2 with
    | true =>
      simp only [OnlyLastFinal,if_true,List.append_nil,List.map_cons,List.map_nil,List.getLast?_concat,
        List.dropLast_concat,hmap,hc]
      exact ⟨And.right,fun h => ⟨⟨_,rfl,(chunkBlock_isFinal windowSize c.1 true).mpr rfl⟩,h⟩⟩
    | false =>
      simp only [OnlyLastFinal,Bool.false_eq_true,if_false,← List.map_append,List.getLast?_concat,
        List.dropLast_concat,hmap]
      constructor
      · exact fun h x hx => h.2 x (List.mem_append_left _ hx)
      · refine fun h => ⟨⟨terminator,rfl,by decide⟩,fun x hx => ?_⟩
        rcases List.mem_append.mp hx with hx | hx
        · exact h x hx
        · rw [List.mem_singleton.mp hx]
          exact hc

theorem blocksOf_totalOriginalSize (h : ∀ c ∈ chunks, c.1.length ≤ uint32Max) :
    totalOriginalSize (blocksOf windowSize chunks) = (chunkData chunks).length := by
  have hterminator : totalOriginalSize (if lastEnded chunks then [] else [terminator]) = 0 := by
    split_ifs <;> rfl
  have hsum : totalOriginalSize (chunks.map fun c => chunkBlock windowSize c.1 c.2) =
      (chunkData chunks).length := by
    clear hterminator
    induction chunks with
    | nil => rfl
    | cons c cs ih =>
      obtain ⟨hc,hcs⟩ := List.forall_mem_cons.mp h
      have hsize : (chunkBlock windowSize c.1 c.2).header.originalSize.toNat = c.1.length :=
        toNat_ofNat_of_le (m := UInt32.ofNat uint32Max) hc
      rw [chunkData_cons,List.length_append,← ih hcs,← hsize]
      rfl
  rw [totalOriginalSize] at hterminator hsum ⊢
  rw [blocksOf,List.map_append,List.sum_append,hterminator,hsum,Nat.add_zero]

end Chunks

end Container

namespace Compressor

open Container EscFormat

variable {σ κ : Type}

/-- What the source answers makes a consistent container. -/
structure Coherent (header : EscHeader) (chunks : List (List UInt8 × Bool)) : Prop where
  ended_last : ∀ c ∈ chunks.dropLast, c.2 = false
  size_eq : UnknownSize header ∨ header.originalSize.toNat = (chunkData chunks).length
  length_lt : (chunkData chunks).length < 2 ^ 64

theorem selfConsistent_transcript {source : CompressionSource σ} {config : ESPCompressorConfig}
    (hvalid : ValidConfig config) {fuel : ℕ} {s : σ} {header : EscHeader}
    {chunks : List (List UInt8 × Bool)}
    (h : transcript source config.blockSize fuel s = some (header,chunks)) :
    SelfConsistent (encode header (blocksOf config.windowSize chunks))
      (UInt64.ofNat (chunkData chunks).length) ↔ Coherent header chunks := by
  rw [transcript,Option.map_eq_some_iff] at h
  obtain ⟨cs,hcs,heq⟩ := h
  obtain ⟨-,rfl⟩ := Prod.mk.inj heq
  have hchunks (c : List UInt8 × Bool) (hc : c ∈ cs) : c.1 ≠ [] ∧ c.1.length ≤ uint32Max :=
    (readAll_chunks hcs c hc).imp_right fun hle => hle.trans hvalid.2.2
  rw [selfConsistent_encode (blocksOf_framed config.windowSize hchunks),blocksOf_onlyLastFinal,
    blocksOf_totalOriginalSize config.windowSize fun c hc => (hchunks c hc).2]
  constructor
  · rintro ⟨hended,htotal,hsize⟩
    have hlt : (chunkData cs).length < 2 ^ 64 := htotal ▸ UInt64.toNat_lt _
    refine ⟨hended,hsize.imp_right fun he => ?_,hlt⟩
    rw [he,UInt64.toNat_ofNat_of_lt' hlt]
  · rintro ⟨hended,hsize,hlt⟩
    refine ⟨hended,(UInt64.toNat_ofNat_of_lt' hlt).symm,hsize.imp_right fun he => ?_⟩
    rw [← he,UInt64.ofNat_toNat]

/-- What a run publishes is consistent exactly if its source was. -/
theorem published_selfConsistent_iff {ctx : RunContext σ κ} {fuel : ℕ} {source : σ} {k₀ : κ}
    {heap : Heap} {r : CompressionResult} {s : RunState σ κ}
    (hrun : Proc.exec (runCompress ctx fuel) (.start source k₀ heap) = (some r,s))
    (hok : r.error = .ok) :
    ∃ header chunks c,
      transcript ctx.source ctx.config.blockSize fuel (ctx.source.open' source).2 = some (header,chunks) ∧
      published s.trace = some c ∧ (SelfConsistent c r.inputBytes ↔ Coherent header chunks) := by
  obtain ⟨hdone,hpublished⟩ := compressed_of_exec hrun hok
  obtain ⟨header,chunks,htranscript,hwritten,hinput⟩ := hdone.written_eq
  refine ⟨header,chunks,_,htranscript,hpublished,?_⟩
  rw [hwritten,hinput]
  exact selfConsistent_transcript hdone.valid htranscript

/-- A stream, compressed in blocks of one byte. -/
def streamJob : RunContext (StreamSource (List (List UInt8))) DynamicBufferSink where
  config := { blockSize := 1, windowSize := 1 }
  operation := .compress
  source := StreamSource.source piecesStream
  sink := DynamicBufferSink.sink

def streamRun (source : StreamSource (List (List UInt8))) :
    Option CompressionResult × RunState (StreamSource (List (List UInt8))) DynamicBufferSink :=
  Proc.exec (runCompress streamJob 2) (.start source ⟨[],.new,false,.unlimited⟩ .unlimited)

theorem published_selfConsistent_iff_stream : ∃ c,
    published (streamRun { stream := [[7]] }).2.trace = some c ∧ SelfConsistent c 1 := by
  have hreturned : (streamRun { stream := [[7]] }).1 = some { inputBytes := 1, blocksProcessed := 1 } := by
    decide +kernel
  have hrun : streamRun { stream := [[7]] } = (some { inputBytes := 1, blocksProcessed := 1 },
      (streamRun { stream := [[7]] }).2) := by rw [← hreturned]
  obtain ⟨header,chunks,c,htranscript,hpublished,hiff⟩ := published_selfConsistent_iff hrun rfl
  have hvalue : transcript streamJob.source 1 2 { stream := [[7]] } =
      some ({ blockSize := 1, flags := kEscHeaderFlagUnknownOriginalSize },[([7],false)]) := by
    decide +kernel
  obtain ⟨rfl,rfl⟩ := Prod.mk.inj (Option.some.inj (hvalue.symm.trans htranscript))
  exact ⟨c,hpublished,hiff.mpr ⟨by simp,.inl (by decide),by decide⟩⟩

/-- A stream that declares five bytes and gives one. -/
theorem published_inconsistent : let source : StreamSource (List (List UInt8)) :=
      { stream := [[7]], knownSize := 5, hasKnownSize := true }
    ∃ r c, (streamRun source).1 = some r ∧ r.error = .ok ∧
      published (streamRun source).2.trace = some c ∧ ¬SelfConsistent c r.inputBytes := by
  intro source
  have hreturned : (streamRun source).1 = some { inputBytes := 1, blocksProcessed := 1 } := by
    decide +kernel
  have hrun : streamRun source = (some { inputBytes := 1, blocksProcessed := 1 },
      (streamRun source).2) := by rw [← hreturned]
  obtain ⟨hdone,hpublished⟩ := compressed_of_exec hrun rfl
  obtain ⟨header,chunks,htranscript,hwritten,hinput⟩ := hdone.written_eq
  refine ⟨_,_,hreturned,rfl,hpublished,?_⟩
  rw [hwritten,hinput,selfConsistent_transcript hdone.valid htranscript]
  have hvalue : transcript streamJob.source 1 2 source =
      some ({ blockSize := 1, originalSize := 5 },[([7],false)]) := by decide +kernel
  obtain ⟨rfl,rfl⟩ := Prod.mk.inj (Option.some.inj (hvalue.symm.trans htranscript))
  intro h
  rcases h.size_eq with hunknown | hsize
  · exact absurd hunknown (by decide)
  · exact absurd hsize (by decide)

end Compressor
end EspCompressor
