import EspCompressor.Codec
import EspCompressor.CompressionIo
import EspCompressor.EscFormat

/-! The two run loops, `runCompress` and `runDecompress`, with the session that closes and
aborts on every way out. Null pointers in the context are not modelled. -/
namespace EspCompressor

/-- One call that a run makes to the outside, with its answer. -/
inductive IoEvent
  | sourceOpen (error : CompressionError)
  | sinkOpen (error : CompressionError)
  | read (requested : ℕ) (error : CompressionError) (data : List UInt8)
  | eof (answer : Bool)
  | hasKnownSize (answer : Bool)
  | totalSize (answer : UInt64)
  | write (bytes : List UInt8) (error : CompressionError)
  | commit (error : CompressionError)
  | abort
  | sinkClose
  | sourceClose
  | cancelLoad (answer : Bool)
  | progress (report : CompressionProgress)
  deriving DecidableEq

/-- The `n`-th load of the cancel flag gives `cancelRequested n`. -/
structure RunContext (σ κ : Type) where
  config : ESPCompressorConfig := {}
  operation : CompressionOperation
  source : CompressionSource σ
  sink : CompressionSink κ
  options : CompressionJobOptions := {}
  cancelRequested : ℕ → Bool := fun _ => false

/-- The state of a run; `opened` and `committed` are the session's flags. -/
structure RunState (σ κ : Type) where
  source : σ
  sink : κ
  heap : Heap
  loads : ℕ := 0
  opened : Bool := false
  committed : Bool := false
  trace : List IoEvent := []

/-- The state in which a run starts. -/
def RunState.start {σ κ : Type} (source : σ) (sink : κ) (heap : Heap) : RunState σ κ :=
  { source, sink, heap }

namespace Compressor

open EscFormat

variable {σ κ ρ : Type}

/-! ### Calls to the outside -/

def openSource (source : CompressionSource σ) : Proc ρ (RunState σ κ) CompressionError :=
  Proc.lift fun s =>
    let r := source.open' s.source
    (r.1,{ s with source := r.2, trace := s.trace ++ [.sourceOpen r.1] })

def openSink (sink : CompressionSink κ) : Proc ρ (RunState σ κ) CompressionError :=
  Proc.lift fun s =>
    let r := sink.open' s.sink
    (r.1,{ s with sink := r.2, trace := s.trace ++ [.sinkOpen r.1] })

def readSource (source : CompressionSource σ) (capacity : ℕ) :
    Proc ρ (RunState σ κ) (ReadResult capacity) :=
  Proc.lift fun s =>
    let r := source.read capacity s.source
    (r.1,{ s with source := r.2, trace := s.trace ++ [.read capacity r.1.err r.1.data] })

def sourceEof (source : CompressionSource σ) : Proc ρ (RunState σ κ) Bool :=
  Proc.lift fun s =>
    let r := source.eof s.source
    (r.1,{ s with source := r.2, trace := s.trace ++ [.eof r.1] })

def sourceHasKnownSize (source : CompressionSource σ) : Proc ρ (RunState σ κ) Bool :=
  Proc.lift fun s =>
    let r := source.hasKnownSize s.source
    (r.1,{ s with source := r.2, trace := s.trace ++ [.hasKnownSize r.1] })

def sourceTotalSize (source : CompressionSource σ) : Proc ρ (RunState σ κ) UInt64 :=
  Proc.lift fun s =>
    let r := source.totalSize s.source
    (r.1,{ s with source := r.2, trace := s.trace ++ [.totalSize r.1] })

def writeSink (sink : CompressionSink κ) (bytes : List UInt8) :
    Proc ρ (RunState σ κ) CompressionError :=
  Proc.lift fun s =>
    let r := sink.write bytes s.sink
    (r.1,{ s with sink := r.2, trace := s.trace ++ [.write bytes r.1] })

def commitSink (sink : CompressionSink κ) : Proc ρ (RunState σ κ) CompressionError :=
  Proc.lift fun s =>
    let r := sink.commit s.sink
    (r.1,{ s with sink := r.2, trace := s.trace ++ [.commit r.1] })

def sinkBytesWritten (sink : CompressionSink κ) : Proc ρ (RunState σ κ) UInt64 :=
  Proc.get fun s => sink.bytesWritten s.sink

def loadCancel (cancelRequested : ℕ → Bool) : Proc ρ (RunState σ κ) Bool :=
  Proc.lift fun s => (cancelRequested s.loads,
    { s with loads := s.loads + 1, trace := s.trace ++ [.cancelLoad (cancelRequested s.loads)] })

/-- A `MemoryBuffer` operation on a local buffer. -/
def onBuffer (buffer : MemoryBuffer) (op : BufferState → Bool × BufferState) :
    Proc ρ (RunState σ κ) (Bool × MemoryBuffer) :=
  Proc.lift fun s =>
    let r := op ⟨buffer,s.heap⟩
    ((r.1,r.2.buffer),{ s with heap := r.2.heap })

/-- A call that fills a local buffer. -/
def callWith (buffer : MemoryBuffer) (f : Proc CompressionError BufferState CompressionError) :
    Proc ρ (RunState σ κ) (CompressionError × BufferState) :=
  Proc.callOn (fun s => ⟨buffer,s.heap⟩) (fun t s => { s with heap := t.heap }) f

/-- `result.error = e; if (e != Ok) return result;` -/
def check (result : CompressionResult) (e : CompressionError) :
    Proc CompressionResult (RunState σ κ) Unit :=
  Proc.returnIf (e ≠ .ok) { result with error := e }

/-- `result.error = sink->write(..); if (result.error != Ok) return result;` -/
def writeOrReturn (sink : CompressionSink κ) (result : CompressionResult) (bytes : List UInt8) :
    Proc CompressionResult (RunState σ κ) Unit := do
  let e ← writeSink sink bytes
  check result e

def shouldAbortForCancel (ctx : RunContext σ κ) (result : CompressionResult) :
    Proc CompressionResult (RunState σ κ) Unit := do
  let cancelled ← loadCancel ctx.cancelRequested
  Proc.returnIf (cancelled = true) { result with error := .cancelled }

def emitProgress (progress : CompressionProgress) (result : CompressionResult) (done : Bool) :
    Proc ρ (RunState σ κ) CompressionProgress :=
  Proc.lift fun s =>
    let report := { progress with done := done, cancelled := decide (result.error = .cancelled) }
    (report,{ s with trace := s.trace ++ [.progress report] })

/-- `~ScopedIoSession`. -/
def destroySession (ctx : RunContext σ κ) (s : RunState σ κ) : RunState σ κ :=
  let s := if s.opened && !s.committed then
      { s with sink := ctx.sink.abort s.sink, trace := s.trace ++ [.abort] }
    else s
  { s with
    sink := ctx.sink.close s.sink
    source := ctx.source.close s.source
    trace := s.trace ++ [.sinkClose,.sourceClose] }

/-- The part of a run before its session: the sink is transactional or partial output is allowed. -/
def requireTransactional (ctx : RunContext σ κ) (result : CompressionResult) :
    Proc CompressionResult (RunState σ κ) Unit := do
  let transactional ← Proc.get fun s => ctx.sink.isTransactional s.sink
  Proc.returnIf (transactional = false ∧ ctx.options.allowPartialOutput = false)
    { result with error := .invalidArgument }

/-- Open both ends. -/
def openSession (ctx : RunContext σ κ) (result : CompressionResult) :
    Proc CompressionResult (RunState σ κ) Unit := do
  let e ← openSource ctx.source
  check result e
  let e ← openSink ctx.sink
  check result e
  Proc.modify fun s => { s with opened := true }

/-- `result.error = sink->commit()`, and the session's flag once that is `Ok`. -/
def commitSession (ctx : RunContext σ κ) (result : CompressionResult) :
    Proc CompressionResult (RunState σ κ) CompressionResult := do
  let e ← commitSink ctx.sink
  check result e
  Proc.modify fun s => { s with committed := true }
  pure { result with error := e }

/-! ### Compression -/

/-- `source->hasKnownSize() ? source->totalSize() : kEscUnknownOriginalSize` -/
def declaredSize (source : CompressionSource σ) : Proc ρ (RunState σ κ) UInt64 := do
  let known ← sourceHasKnownSize source
  if known = true then sourceTotalSize source else pure kEscUnknownOriginalSize

/-- Write the file header, which precedes all data. -/
def writeFileHeader (ctx : RunContext σ κ) (result : CompressionResult) :
    Proc CompressionResult (RunState σ κ) Unit := do
  let originalSize ← declaredSize ctx.source
  let known ← sourceHasKnownSize ctx.source
  let header : EscHeader :=
    { blockSize := UInt32.ofNat ctx.config.blockSize
      originalSize
      flags := if known then 0 else 0 ||| kEscHeaderFlagUnknownOriginalSize }
  let encoded ← callWith .new (encodeEscHeader header)
  check result encoded.1
  writeOrReturn ctx.sink result encoded.2.buffer.contents

def startProgress (ctx : RunContext σ κ) : Proc ρ (RunState σ κ) CompressionProgress := do
  let known ← sourceHasKnownSize ctx.source
  let total ← sourceTotalSize ctx.source
  pure { operation := ctx.operation, hasKnownTotalInput := known, totalInputBytes := total }

structure CompressVars where
  result : CompressionResult
  progress : CompressionProgress
  blockBuffer : MemoryBuffer
  encodedBlock : MemoryBuffer
  wroteAnyBlock : Bool := false
  lastBlockWasFinal : Bool := false

/-- Encode and write the first `readBytes` bytes of the block buffer as one block. -/
def compressChunk (ctx : RunContext σ κ) (v : CompressVars) (readBytes : ℕ) :
    Proc CompressionResult (RunState σ κ) (CompressVars ⊕ CompressVars) := do
  let chunk := v.blockBuffer.contents.take readBytes
  let encoded ← callWith v.encodedBlock (Codec.compressLzLiteBlock chunk ctx.config.windowSize)
  check v.result encoded.1
  let useRaw := decide (readBytes ≤ encoded.2.buffer.size)
  let payload := if useRaw then chunk else encoded.2.buffer.contents
  let ended ← sourceEof ctx.source
  let flags := (if useRaw then kEscBlockFlagRaw else 0) ||| (if ended then kEscBlockFlagFinal else 0)
  let blockHeader : EscBlockHeader :=
    { flags
      originalSize := UInt32.ofNat readBytes
      storedSize := UInt32.ofNat payload.length
      crc32 := espCompressorCrc32 chunk }
  let headerBytes := encodeEscBlockHeader blockHeader (List.replicate kEscEncodedBlockHeaderSize 0)
  check v.result headerBytes.1
  writeOrReturn ctx.sink v.result headerBytes.2
  writeOrReturn ctx.sink v.result payload
  let produced ← sinkBytesWritten ctx.sink
  let result :=
    { v.result with blocksProcessed := v.result.blocksProcessed + 1, outputBytes := produced }
  let progress ← emitProgress { v.progress with producedOutputBytes := produced } result false
  pure (.inl { v with
    result, progress, encodedBlock := encoded.2.buffer, wroteAnyBlock := true
    lastBlockWasFinal := decide (flags &&& kEscBlockFlagFinal ≠ 0) })

/-- After an empty read: the input must be at its end. -/
def endOfInput (ctx : RunContext σ κ) (v : CompressVars) :
    Proc CompressionResult (RunState σ κ) (CompressVars ⊕ CompressVars) := do
  let ended ← sourceEof ctx.source
  Proc.returnIf (ended = false) { v.result with error := .readFailed }
  pure (.inr v)

/-- One round of the block loop of `runCompress`. -/
def compressRound (ctx : RunContext σ κ) (v : CompressVars) :
    Proc CompressionResult (RunState σ κ) (CompressVars ⊕ CompressVars) := do
  shouldAbortForCancel ctx v.result
  let r ← readSource ctx.source ctx.config.blockSize
  check v.result r.err
  let inputBytes := v.result.inputBytes + UInt64.ofNat r.data.length
  let v := { v with
    result := { v.result with inputBytes }
    progress := { v.progress with processedInputBytes := inputBytes }
    blockBuffer := v.blockBuffer.store 0 r.data }
  if r.data.length = 0 then endOfInput ctx v else compressChunk ctx v r.data.length

/-- The empty final block, unless the last block was final. -/
def writeTerminator (ctx : RunContext σ κ) (v : CompressVars) :
    Proc CompressionResult (RunState σ κ) CompressionResult :=
  if v.wroteAnyBlock = false ∨ v.lastBlockWasFinal = false then do
    let blockHeader : EscBlockHeader := { flags := kEscBlockFlagRaw ||| kEscBlockFlagFinal }
    let headerBytes := encodeEscBlockHeader blockHeader (List.replicate kEscEncodedBlockHeaderSize 0)
    check v.result headerBytes.1
    writeOrReturn ctx.sink v.result headerBytes.2
    let produced ← sinkBytesWritten ctx.sink
    pure { v.result with outputBytes := produced }
  else pure v.result

/-- What `runCompress` does once both ends are open. -/
def compressSession (ctx : RunContext σ κ) (result : CompressionResult) (fuel : ℕ) :
    Proc CompressionResult (RunState σ κ) CompressionResult := do
  let blockBuffer ← onBuffer .new (MemoryBuffer.resize ctx.config.blockSize)
  Proc.returnIf (blockBuffer.1 = false) { result with error := .noMemory }
  writeFileHeader ctx result
  let progress ← startProgress ctx
  let produced ← sinkBytesWritten ctx.sink
  let v ← Proc.loop (compressRound ctx) fuel
    { result
      progress := { progress with producedOutputBytes := produced }
      blockBuffer := blockBuffer.2
      encodedBlock := .new }
  let result ← writeTerminator ctx v
  shouldAbortForCancel ctx result
  let result ← commitSession ctx result
  let produced ← sinkBytesWritten ctx.sink
  let result := { result with outputBytes := produced }
  let _ ← emitProgress { v.progress with
    processedInputBytes := result.inputBytes, producedOutputBytes := produced } result true
  pure result

/-- `fuel` bounds the rounds of the block loop. -/
def runCompress (ctx : RunContext σ κ) (fuel : ℕ) :
    Proc CompressionResult (RunState σ κ) CompressionResult := do
  let result := makeResult ctx.operation .ok
  Proc.returnIf (ctx.config.blockSize = 0 ∨ ctx.config.windowSize = 0 ∨
    uint32Max < ctx.config.blockSize) { result with error := .invalidArgument }
  requireTransactional ctx result
  Proc.destroying (destroySession ctx) do
    openSession ctx result
    compressSession ctx result fuel

/-! ### Decompression -/

def validateEscBlockBounds (header : EscHeader) (blockHeader : EscBlockHeader) : Bool :=
  if blockHeader.originalSize = 0 ∧ blockHeader.flags &&& kEscBlockFlagFinal = 0 then false
  else if header.blockSize < blockHeader.originalSize then false
  else if blockHeader.originalSize < blockHeader.storedSize then false
  else if blockHeader.flags &&& kEscBlockFlagRaw ≠ 0 ∧
    blockHeader.storedSize ≠ blockHeader.originalSize then false
  else true

/-- One round of the loop of `readExact`. -/
def readRound (source : CompressionSource σ) (size : ℕ) (p : List UInt8 × UInt64) :
    Proc CompressionError (RunState σ κ) ((List UInt8 × UInt64) ⊕ (List UInt8 × UInt64)) :=
  if p.1.length < size then do
    let r ← readSource source (size - p.1.length)
    Proc.returnIf (r.err ≠ .ok) r.err
    Proc.returnIf (r.data.length = 0) .corruptData
    pure (.inl (p.1 ++ r.data,p.2 + UInt64.ofNat r.data.length))
  else pure (.inr p)

/-- Read exactly `size` bytes, in as many reads as it takes: the bytes, and the counter
after them. A returned error ends the caller too. -/
def readExact (source : CompressionSource σ) (size : ℕ) (processedBytes : UInt64) :
    Proc CompressionError (RunState σ κ) (List UInt8 × UInt64) :=
  Proc.loop (readRound source size) (size + 1) ([],processedBytes)

/-- `result.error = readExact(..); if (result.error != Ok) return result;` -/
def readOrReturn (ctx : RunContext σ κ) (result : CompressionResult) (size : ℕ)
    (processedBytes : UInt64) : Proc CompressionResult (RunState σ κ) (List UInt8 × UInt64) :=
  Proc.mapReturn (fun e => { result with error := e }) (readExact ctx.source size processedBytes)

/-- Read and check the file header. -/
def readFileHeader (ctx : RunContext σ κ) (result : CompressionResult) :
    Proc CompressionResult (RunState σ κ) (EscHeader × UInt64) := do
  let encodedHeader ← readOrReturn ctx result kEscEncodedHeaderSize 0
  let decoded := decodeEscHeader encodedHeader.1 {}
  check result decoded.1
  let header := decoded.2
  Proc.returnIf (header.version ≠ kEscFormatVersion) { result with error := .unsupportedVersion }
  Proc.returnIf (header.algorithm ≠ kEscAlgorithmLzLite)
    { result with error := .unsupportedAlgorithm }
  Proc.returnIf (header.blockSize = 0) { result with error := .corruptData }
  pure (header,encodedHeader.2)

structure DecompressVars where
  result : CompressionResult
  progress : CompressionProgress
  processedCompressedInput : UInt64
  storedBlock : MemoryBuffer
  outputBlock : MemoryBuffer

/-- Check and write the payload of a raw block; the counted bytes. -/
def writeRawBlock (ctx : RunContext σ κ) (v : DecompressVars) (blockHeader : EscBlockHeader) :
    Proc CompressionResult (RunState σ κ) DecompressVars := do
  Proc.returnIf (blockHeader.originalSize ≠ blockHeader.storedSize)
    { v.result with error := .corruptData }
  Proc.returnIf (espCompressorCrc32 v.storedBlock.contents ≠ blockHeader.crc32)
    { v.result with error := .corruptData }
  writeOrReturn ctx.sink v.result v.storedBlock.contents
  pure { v with result :=
    { v.result with outputBytes := v.result.outputBytes + UInt64.ofNat v.storedBlock.size } }

/-- `if (storedSize != 0) readExact(..)` into the stored block, after resizing it. -/
def readPayload (ctx : RunContext σ κ) (v : DecompressVars) (storedSize : ℕ) :
    Proc CompressionResult (RunState σ κ) DecompressVars := do
  let resized ← onBuffer v.storedBlock (MemoryBuffer.resize storedSize)
  Proc.returnIf (resized.1 = false) { v.result with error := .noMemory }
  if storedSize ≠ 0 then do
    let payload ← readOrReturn ctx v.result storedSize v.processedCompressedInput
    pure { v with
      storedBlock := resized.2.store 0 payload.1, processedCompressedInput := payload.2 }
  else pure { v with storedBlock := resized.2 }

/-! The decoder of encoded blocks is a parameter: its sums are made in the `size_t` of the target, or over
unbounded integers. -/

section Decoder

variable (decoder : List UInt8 → ℕ → Proc CompressionError BufferState CompressionError)

/-- Decode, check and write the payload of an encoded block. -/
def writeLzBlockBy (ctx : RunContext σ κ) (v : DecompressVars) (blockHeader : EscBlockHeader) :
    Proc CompressionResult (RunState σ κ) DecompressVars := do
  let decoded ← callWith v.outputBlock
    (decoder v.storedBlock.contents blockHeader.originalSize.toNat)
  check v.result decoded.1
  Proc.returnIf (espCompressorCrc32 decoded.2.buffer.contents ≠ blockHeader.crc32)
    { v.result with error := .corruptData }
  writeOrReturn ctx.sink v.result decoded.2.buffer.contents
  pure { v with
    outputBlock := decoded.2.buffer
    result := { v.result with
      outputBytes := v.result.outputBytes + UInt64.ofNat decoded.2.buffer.size } }

def writeBlockBy (ctx : RunContext σ κ) (v : DecompressVars) (blockHeader : EscBlockHeader) :
    Proc CompressionResult (RunState σ κ) DecompressVars :=
  if blockHeader.flags &&& kEscBlockFlagRaw ≠ 0 then writeRawBlock ctx v blockHeader
  else writeLzBlockBy decoder ctx v blockHeader

/-- One round of the block loop of `runDecompress`. -/
def decompressRoundBy (ctx : RunContext σ κ) (header : EscHeader) (v : DecompressVars) :
    Proc CompressionResult (RunState σ κ) (DecompressVars ⊕ DecompressVars) := do
  shouldAbortForCancel ctx v.result
  let headerBytes ← readOrReturn ctx v.result kEscEncodedBlockHeaderSize v.processedCompressedInput
  let decoded := decodeEscBlockHeader headerBytes.1 {}
  check v.result decoded.1
  let blockHeader := decoded.2
  Proc.returnIf (validateEscBlockBounds header blockHeader = false)
    { v.result with error := .corruptData }
  let v ← readPayload ctx { v with processedCompressedInput := headerBytes.2 }
    blockHeader.storedSize.toNat
  let v ← writeBlockBy decoder ctx v blockHeader
  let result := { v.result with
    blocksProcessed := v.result.blocksProcessed + 1, inputBytes := v.processedCompressedInput }
  let progress ← emitProgress { v.progress with
    processedInputBytes := v.processedCompressedInput
    producedOutputBytes := result.outputBytes } result false
  let v := { v with result, progress }
  pure (if blockHeader.flags &&& kEscBlockFlagFinal ≠ 0 then .inr v else .inl v)

/-- What `runDecompress` does once both ends are open. -/
def decompressSessionBy (ctx : RunContext σ κ) (result : CompressionResult) (fuel : ℕ) :
    Proc CompressionResult (RunState σ κ) CompressionResult := do
  let opened ← readFileHeader ctx result
  let header := opened.1
  let progress ← startProgress ctx
  let v ← Proc.loop (decompressRoundBy decoder ctx header) fuel
    { result
      progress := { progress with totalOutputBytes :=
        if header.flags &&& kEscHeaderFlagUnknownOriginalSize ≠ 0 then 0 else header.originalSize }
      processedCompressedInput := opened.2
      storedBlock := .new
      outputBlock := .new }
  Proc.returnIf (header.flags &&& kEscHeaderFlagUnknownOriginalSize = 0 ∧
    v.result.outputBytes ≠ header.originalSize) { v.result with error := .corruptData }
  shouldAbortForCancel ctx v.result
  let result ← commitSession ctx v.result
  let result := { result with inputBytes := v.processedCompressedInput }
  let _ ← emitProgress { v.progress with
    processedInputBytes := result.inputBytes, producedOutputBytes := result.outputBytes } result true
  pure result

def runDecompressBy (ctx : RunContext σ κ) (fuel : ℕ) :
    Proc CompressionResult (RunState σ κ) CompressionResult := do
  let result := makeResult ctx.operation .ok
  requireTransactional ctx result
  Proc.destroying (destroySession ctx) do
    openSession ctx result
    decompressSessionBy decoder ctx result fuel

def runSyncJobBy (ctx : RunContext σ κ) (fuel : ℕ) :
    Proc CompressionResult (RunState σ κ) CompressionResult :=
  match ctx.operation with
  | .compress => runCompress ctx fuel
  | .decompress => runDecompressBy decoder ctx fuel

end Decoder

/-! ### With a decoder whose sums do not wrap around -/

def writeLzBlock (ctx : RunContext σ κ) (v : DecompressVars) (blockHeader : EscBlockHeader) :
    Proc CompressionResult (RunState σ κ) DecompressVars := writeLzBlockBy Codec.decompressLzLiteBlock ctx v blockHeader

def writeBlock (ctx : RunContext σ κ) (v : DecompressVars) (blockHeader : EscBlockHeader) :
    Proc CompressionResult (RunState σ κ) DecompressVars := writeBlockBy Codec.decompressLzLiteBlock ctx v blockHeader

def decompressRound (ctx : RunContext σ κ) (header : EscHeader) (v : DecompressVars) :
    Proc CompressionResult (RunState σ κ) (DecompressVars ⊕ DecompressVars) :=
  decompressRoundBy Codec.decompressLzLiteBlock ctx header v

def decompressSession (ctx : RunContext σ κ) (result : CompressionResult) (fuel : ℕ) :
    Proc CompressionResult (RunState σ κ) CompressionResult :=
  decompressSessionBy Codec.decompressLzLiteBlock ctx result fuel

def runDecompress (ctx : RunContext σ κ) (fuel : ℕ) :
    Proc CompressionResult (RunState σ κ) CompressionResult := runDecompressBy Codec.decompressLzLiteBlock ctx fuel

def runSyncJob (ctx : RunContext σ κ) (fuel : ℕ) :
    Proc CompressionResult (RunState σ κ) CompressionResult := runSyncJobBy Codec.decompressLzLiteBlock ctx fuel

end Compressor
end EspCompressor
