import EspCompressor.MemoryBuffer
import EspCompressor.Types

/-! Sources and sinks: the two interfaces, and the implementations that work in memory,
on a stream and on a print device. -/
namespace EspCompressor

/-- What one `read` gives: the error it sets, and the bytes it stored and counts. -/
structure ReadResult (capacity : ℕ) where
  err : CompressionError
  data : List UInt8
  fits : data.length ≤ capacity

/-- The queries may change the object they ask, and may answer differently each time. -/
structure CompressionSource (σ : Type) where
  open' : σ → CompressionError × σ
  close : σ → σ
  read : (capacity : ℕ) → σ → ReadResult capacity × σ
  eof : σ → Bool × σ
  hasKnownSize : σ → Bool × σ
  totalSize : σ → UInt64 × σ

structure CompressionSink (κ : Type) where
  open' : κ → CompressionError × κ
  write : List UInt8 → κ → CompressionError × κ
  commit : κ → CompressionError × κ
  abort : κ → κ
  close : κ → κ
  bytesWritten : κ → UInt64
  isTransactional : κ → Bool

def readNothing (err : CompressionError) (capacity : ℕ) : ReadResult capacity :=
  ⟨err,[],Nat.zero_le _⟩

/-! ### Sources -/

structure BufferSource where
  data : List UInt8
  offset : ℕ := 0
  isOpen : Bool := false

def BufferSource.source : CompressionSource BufferSource where
  open' s := (.ok,{ s with offset := 0, isOpen := true })
  close s := { s with isOpen := false }
  read capacity s :=
    if s.isOpen = false then (readNothing .readFailed capacity,s)
    else (⟨.ok,(s.data.drop s.offset).take capacity,List.length_take_le _ _⟩,
      { s with offset := s.offset + min (s.data.length - s.offset) capacity })
  eof s := (decide (s.data.length ≤ s.offset),s)
  hasKnownSize s := (true,s)
  totalSize s := (UInt64.ofNat s.data.length,s)

/-- An Arduino `Stream`: `readBytes` gives at most the requested number of bytes. -/
structure Stream (τ : Type) where
  readBytes : (capacity : ℕ) → τ → { bytes : List UInt8 // bytes.length ≤ capacity } × τ

structure StreamSource (τ : Type) where
  stream : τ
  knownSize : UInt64 := 0
  hasKnownSize : Bool := false
  eof : Bool := false

def StreamSource.source {τ : Type} (device : Stream τ) : CompressionSource (StreamSource τ) where
  open' s := (.ok,{ s with eof := false })
  close s := { s with eof := true }
  read capacity s :=
    if capacity = 0 then (readNothing .ok capacity,s)
    else
      let r := device.readBytes capacity s.stream
      (⟨.ok,r.1.1,r.1.2⟩,{ s with stream := r.2, eof := if r.1.1 = [] then true else s.eof })
  eof s := (s.eof,s)
  hasKnownSize s := (s.hasKnownSize,s)
  totalSize s := (s.knownSize,s)

/-! ### Sinks -/

/-- The sink, the vector it publishes to and the heap that serves its staging buffer. -/
structure DynamicBufferSink where
  out : List UInt8
  staging : MemoryBuffer
  isOpen : Bool
  heap : Heap

def DynamicBufferSink.sink : CompressionSink DynamicBufferSink where
  open' k := (.ok,{ k with staging := k.staging.clear, isOpen := true })
  write bytes k :=
    if k.isOpen = false then (.writeFailed,k)
    else
      let r := MemoryBuffer.append bytes ⟨k.staging,k.heap⟩
      (if r.1 then .ok else .noMemory,{ k with staging := r.2.buffer, heap := r.2.heap })
  commit k :=
    if k.isOpen = false then (.writeFailed,k)
    else if k.staging.size = 0 then (.ok,{ k with out := [], staging := k.staging.release })
    else (.ok,{ k with out := k.staging.contents, staging := k.staging.release })
  abort k := { k with staging := k.staging.clear }
  close k := { k with isOpen := false }
  bytesWritten k := UInt64.ofNat k.staging.size
  isTransactional _ := true

/-- `buffer` is `none` for a null pointer; otherwise it has `capacity` bytes. -/
structure FixedBufferSink where
  buffer : Option (List UInt8)
  capacity : ℕ
  staging : MemoryBuffer
  isOpen : Bool
  heap : Heap
  buffer_length : ∀ b, buffer = some b → b.length = capacity

def FixedBufferSink.sink : CompressionSink FixedBufferSink where
  open' k := (.ok,{ k with staging := k.staging.clear, isOpen := true })
  write bytes k :=
    if k.isOpen = false then (.writeFailed,k)
    else if k.capacity < k.heap.wrap (k.staging.size + bytes.length) then (.outputOverflow,k)
    else
      let r := MemoryBuffer.append bytes ⟨k.staging,k.heap⟩
      (if r.1 then .ok else .noMemory,{ k with staging := r.2.buffer, heap := r.2.heap })
  commit k :=
    if k.isOpen = false then (.writeFailed,k)
    else match hb : k.buffer with
      | none => (.writeFailed,k)
      | some b =>
        if hs : k.capacity < k.staging.size then (.outputOverflow,k)
        else (.ok,{ k with
          buffer := some (k.staging.contents ++ b.drop k.staging.size)
          staging := k.staging.release
          buffer_length := by
            have hlen := k.buffer_length b hb
            simp only [Option.some.injEq,forall_eq',List.length_append,List.length_drop,
              MemoryBuffer.contents_length]
            omega })
  abort k := { k with staging := k.staging.clear }
  close k := { k with isOpen := false }
  bytesWritten k := UInt64.ofNat k.staging.size
  isTransactional _ := true

/-- An Arduino `Print`: the `i`-th call takes at most `accepts i` bytes and returns how many. -/
structure Print where
  received : List UInt8
  accepts : ℕ → ℕ
  calls : ℕ

def Print.write (bytes : List UInt8) (p : Print) : ℕ × Print :=
  (min (p.accepts p.calls) bytes.length,
    { p with received := p.received ++ bytes.take (p.accepts p.calls), calls := p.calls + 1 })

structure PrintSink where
  print : Print
  written : UInt64 := 0
  isOpen : Bool := false

def PrintSink.sink : CompressionSink PrintSink where
  open' k := (.ok,{ k with written := 0, isOpen := true })
  write bytes k :=
    if k.isOpen = false then (.writeFailed,k)
    else if bytes.length = 0 then (.ok,k)
    else
      let r := k.print.write bytes
      if r.1 ≠ bytes.length then (.writeFailed,{ k with print := r.2 })
      else (.ok,{ k with print := r.2, written := k.written + UInt64.ofNat r.1 })
  commit k := (.ok,k)
  abort k := k
  close k := { k with isOpen := false }
  bytesWritten k := k.written
  isTransactional _ := false

end EspCompressor
