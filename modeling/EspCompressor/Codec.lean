import EspCompressor.LzSequence
import EspCompressor.MemoryBuffer
import EspCompressor.Types

/-! The LZ-lite block codec: the greedy hash-table encoder and the decoder, over
output buffers whose growth may fail. -/
namespace EspCompressor

def kMinMatch : ℕ := 3
def kHashTableSize : ℕ := 1024

instance : NeZero kHashTableSize := ⟨by decide⟩

namespace Codec

open MemoryBuffer (append appendByte resize)

/-- `std::array<int32_t, kHashTableSize>`. -/
abbrev HashTable := Fin kHashTableSize → Int32

def hash3 (input : List UInt8) (index : ℕ) : UInt32 :=
  let value := (input.getD index 0).toUInt32 <<< 16 ||| (input.getD (index + 1) 0).toUInt32 <<< 8 |||
    (input.getD (index + 2) 0).toUInt32
  (value * 2654435761) >>> 22

def slotOf (input : List UInt8) (index : ℕ) : Fin kHashTableSize :=
  Fin.ofNat _ (hash3 input index &&& UInt32.ofNat (kHashTableSize - 1)).toNat

/-- `table[slot] = static_cast<int32_t>(index)`. -/
def remember (table : HashTable) (slot : Fin kHashTableSize) (index : ℕ) : HashTable :=
  fun s => if s = slot then Int32.ofNat index else table s

/-! ### Encoder -/

/-- `if (!op) return false;` -/
def orFail (op : BufferState → Bool × BufferState) : Proc Bool BufferState Unit := do
  let succeeded ← Proc.lift op
  Proc.returnIf (succeeded = false) false

/-- `if (!f()) return false;` -/
def callOrFail (f : Proc Bool BufferState Bool) : Proc Bool BufferState Unit := do
  let succeeded ← Proc.call f
  Proc.returnIf (succeeded = false) false

def appendLength (value : ℕ) : Proc Bool BufferState Bool := do
  let rest ← Proc.loop (fun value =>
    if 255 ≤ value then do
      orFail (appendByte 255)
      pure (.inl (value - 255))
    else pure (.inr value)) (value + 1) value
  Proc.lift (appendByte (UInt8.ofNat rest))

/-- The first byte of a sequence: both lengths, each cut off at 15. -/
def sequenceToken (literalLength encodedMatchLength : ℕ) (hasMatch : Bool) : UInt8 :=
  UInt8.ofNat (((if literalLength < 15 then literalLength else 15) <<< 4) |||
    (if hasMatch then (if encodedMatchLength < 15 then encodedMatchLength else 15) else 0))

def emitSequence (literals : List UInt8) (matchOffset : UInt16) (matchLength : ℕ) (hasMatch : Bool) :
    Proc Bool BufferState Bool := do
  let literalLength := literals.length
  let encodedMatchLength := if hasMatch then matchLength - kMinMatch else 0
  orFail (appendByte (sequenceToken literalLength encodedMatchLength hasMatch))
  Proc.onlyIf (15 ≤ literalLength) (callOrFail (appendLength (literalLength - 15)))
  Proc.onlyIf (literalLength ≠ 0) (orFail (append literals))
  Proc.returnIf (hasMatch = false) true
  orFail (appendByte (matchOffset &&& 0xFF).toUInt8)
  orFail (appendByte ((matchOffset >>> 8) &&& 0xFF).toUInt8)
  Proc.onlyIf (15 ≤ encodedMatchLength) (callOrFail (appendLength (encodedMatchLength - 15)))
  pure true

/-- The loop of `computeMatchLength`; it runs at most once for each byte left. -/
def extendMatch (input : List UInt8) (current candidate : ℕ) : ℕ → ℕ → ℕ
  | 0, length => length
  | n + 1, length =>
    if current + length < input.length ∧ input[candidate + length]? = input[current + length]? then
      extendMatch input current candidate n (length + 1)
    else length

def computeMatchLength (input : List UInt8) (current candidate : ℕ) : ℕ :=
  extendMatch input current candidate (input.length - current) 0

/-- The match found at `index`, as length and offset; `(0, 0)` for none. -/
def findMatch (input : List UInt8) (windowSize : ℕ) (prev : Int32) (index : ℕ) : ℕ × ℕ :=
  if 0 ≤ prev then
    let candidate := prev.toNatClampNeg
    if candidate < index ∧ index - candidate ≤ windowSize ∧ index - candidate ≤ 0xFFFF ∧
        (input.drop candidate).take kMinMatch = (input.drop index).take kMinMatch then
      (computeMatchLength input index candidate,index - candidate)
    else (0,0)
  else (0,0)

/-- The loop that enters the positions inside a match. -/
def rememberMatched (input : List UInt8) (index matchLength : ℕ) (table : HashTable) : HashTable :=
  (List.range' 1 (matchLength - 1)).foldl (fun table i =>
    if index + i + kMinMatch ≤ input.length then
      remember table (slotOf input (index + i)) (index + i)
    else table) table

structure ScanVars where
  table : HashTable
  anchor : ℕ
  index : ℕ

/-- One round of the encoder's loop without the emission: the sequence to emit, if any. -/
def scanNext (input : List UInt8) (windowSize : ℕ) (v : ScanVars) :
    Option (LzSequence UInt8) × ScanVars :=
  let slot := slotOf input v.index
  let found := findMatch input windowSize (v.table slot) v.index
  let table := remember v.table slot v.index
  if kMinMatch ≤ found.1 then
    (some ⟨(input.drop v.anchor).take (v.index - v.anchor),found.2,found.1⟩,
      ⟨rememberMatched input v.index found.1 table,v.index + found.1,v.index + found.1⟩)
  else (none,⟨table,v.anchor,v.index + 1⟩)

def scanStep (input : List UInt8) (windowSize : ℕ) (v : ScanVars) :
    Proc CompressionError BufferState (ScanVars ⊕ ScanVars) :=
  if v.index + kMinMatch ≤ input.length then
    match scanNext input windowSize v with
    | (none,v') => pure (.inl v')
    | (some s,v') => do
      let emitted ← Proc.call (emitSequence s.literals (UInt16.ofNat s.offset) s.length true)
      Proc.returnIf (emitted = false) .noMemory
      pure (.inl v')
  else pure (.inr v)

def scanStart : ScanVars := ⟨fun _ => -1,0,0⟩

def compressLzLiteBlock (input : List UInt8) (windowSize : ℕ) :
    Proc CompressionError BufferState CompressionError := do
  Proc.modify fun s => ⟨s.buffer.clear,s.heap⟩
  Proc.returnIf (input.length = 0) .ok
  let v ← Proc.loop (scanStep input windowSize) (input.length + 1) scanStart
  let emitted ← Proc.call (emitSequence (input.drop v.anchor) 0 0 false)
  Proc.returnIf (emitted = false) .noMemory
  pure .ok

/-! ### Decoder -/

/-- One access to a byte of the input or of the output. -/
inductive Access
  | readInput (index : ℕ)
  | writeOutput (index : ℕ)
  | readOutput (index : ℕ)
  deriving DecidableEq

/-- The bytes that a `memcpy` reads in the input. -/
def readsFrom (inputOffset length : ℕ) : List Access :=
  (List.range length).map fun i => .readInput (inputOffset + i)

/-- The bytes that a `memcpy` writes in the output. -/
def writesTo (outputOffset length : ℕ) : List Access :=
  (List.range length).map fun i => .writeOutput (outputOffset + i)

/-- Read the input; outside it the access is undefined. -/
def byteAt (input : List UInt8) (i : ℕ) : Proc CompressionError BufferState UInt8 :=
  match input[i]? with
  | some b => pure b
  | none => Proc.undef

/-- Store bytes in the output; outside its size the access is undefined. -/
def storeBytes (offset : ℕ) (bytes : List UInt8) : Proc CompressionError BufferState Unit := fun s =>
  if offset + bytes.length ≤ s.buffer.size then
    (.done (),⟨s.buffer.store offset bytes,s.heap⟩)
  else (.undefined,s)

/-- `memcpy` from the input to the output. -/
def copyLiterals (input : List UInt8) (inputOffset outputOffset length : ℕ) :
    Proc CompressionError BufferState Unit :=
  if inputOffset + length ≤ input.length then
    storeBytes outputOffset ((input.drop inputOffset).take length)
  else Proc.undef

/-- `output.data()[target] = output.data()[origin]`. -/
def moveByte (target origin : ℕ) : Proc CompressionError BufferState Unit := fun s =>
  match s.buffer.contents[origin]? with
  | some b => storeBytes target [b] s
  | none => (.undefined,s)

structure DecodeVars where
  inputOffset : ℕ
  outputOffset : ℕ

/-- What the decoder runs on: a state of its own, the accesses to the buffers, and sums of `size_t`. -/
structure Machine (τ : Type) where
  access : {α : Type} → List Access → Proc CompressionError BufferState α → Proc CompressionError τ α
  add : ℕ → ℕ → Proc CompressionError τ ℕ

namespace Machine

variable {τ : Type} (machine : Machine τ)

/-- One round of `readExtendedLength`, on the offset and the value. -/
def extendRound (input : List UInt8) (p : ℕ × ℕ) :
    Proc CompressionError τ ((ℕ × ℕ) ⊕ (ℕ × ℕ)) :=
  match input[p.1]? with
  | none => Proc.ret .corruptData
  | some extra => do
    machine.access [.readInput p.1] (pure ())
    let inputOffset ← machine.add p.1 1
    let value ← machine.add p.2 extra.toNat
    pure (if extra = 255 then .inl (inputOffset,value) else .inr (inputOffset,value))

/-- The only error of `readExtendedLength` is `corruptData`, and every caller
returns it at once; the result is the new offset and the new value. -/
def readExtendedLength (input : List UInt8) (inputOffset value : ℕ) :
    Proc CompressionError τ (ℕ × ℕ) :=
  Proc.loop (machine.extendRound input) (input.length + 1) (inputOffset,value)

/-- A length whose four bits in the token are given, with its least value `base`;
the result is the new offset and the length. -/
def readLength (input : List UInt8) (bits base inputOffset : ℕ) :
    Proc CompressionError τ (ℕ × ℕ) :=
  if bits = 15 then machine.readExtendedLength input inputOffset (15 + base)
  else pure (inputOffset,bits + base)

/-- The loop that copies a match, byte after byte. -/
def copyMatch (outputOffset offset : ℕ) : ℕ → Proc CompressionError τ Unit
  | 0 => pure ()
  | n + 1 => do
    copyMatch outputOffset offset n
    machine.access [.readOutput (outputOffset - offset + n),.writeOutput (outputOffset + n)]
      (moveByte (outputOffset + n) (outputOffset - offset + n))

/-- The second half of a round: the match, unless the block is complete. -/
def decodeMatch (input : List UInt8) (expectedOutputSize : ℕ) (token : UInt8) (v : DecodeVars) :
    Proc CompressionError τ (DecodeVars ⊕ DecodeVars) := do
  Proc.returnIf (v.outputOffset = expectedOutputSize)
    (if v.inputOffset = input.length then .ok else .corruptData)
  let afterOffset ← machine.add v.inputOffset 2
  Proc.returnIf (input.length < afterOffset) .corruptData
  let low ← machine.access [.readInput v.inputOffset] (byteAt input v.inputOffset)
  let high ← machine.access [.readInput (v.inputOffset + 1)] (byteAt input (v.inputOffset + 1))
  let offset := low.toNat ||| high.toNat <<< 8
  Proc.returnIf (offset = 0 ∨ v.outputOffset < offset) .corruptData
  let matched ← machine.readLength input (token &&& 0x0F).toNat kMinMatch afterOffset
  let outputEnd ← machine.add v.outputOffset matched.2
  Proc.returnIf (expectedOutputSize < outputEnd) .corruptData
  machine.copyMatch v.outputOffset offset matched.2
  pure (.inl ⟨matched.1,outputEnd⟩)

/-- One round of the decoder's loop. The second sum of the check of the literals is made only when the
first one is within the input. -/
def decodeStep (input : List UInt8) (expectedOutputSize : ℕ) (v : DecodeVars) :
    Proc CompressionError τ (DecodeVars ⊕ DecodeVars) :=
  match input[v.inputOffset]? with
  | none => pure (.inr v)
  | some token => do
    machine.access [.readInput v.inputOffset] (pure ())
    let afterToken ← machine.add v.inputOffset 1
    let literals ← machine.readLength input (token >>> 4 &&& 0x0F).toNat 0 afterToken
    let inputEnd ← machine.add literals.1 literals.2
    Proc.returnIf (input.length < inputEnd) .corruptData
    let outputEnd ← machine.add v.outputOffset literals.2
    Proc.returnIf (expectedOutputSize < outputEnd) .corruptData
    machine.access (readsFrom literals.1 literals.2 ++ writesTo v.outputOffset literals.2)
      (copyLiterals input literals.1 v.outputOffset literals.2)
    machine.decodeMatch input expectedOutputSize token ⟨inputEnd,outputEnd⟩

def decompressLzLiteBlock (input : List UInt8) (expectedOutputSize : ℕ) :
    Proc CompressionError τ CompressionError := do
  machine.access [] (Proc.modify fun s => ⟨s.buffer.clear,s.heap⟩)
  let resized ← machine.access [] (Proc.lift (resize expectedOutputSize))
  Proc.returnIf (resized = false) (if expectedOutputSize = 0 then .ok else .noMemory)
  let v ← Proc.loop (machine.decodeStep input expectedOutputSize) (input.length + 1) ⟨0,0⟩
  pure (if v.outputOffset = expectedOutputSize then .ok else .corruptData)

end Machine

/-! ### Decoder, with sums that do not wrap around -/

def unbounded : Machine BufferState where
  access _ m := m
  add a b := pure (a + b)

def readExtendedLength (input : List UInt8) (inputOffset value : ℕ) :
    Proc CompressionError BufferState (ℕ × ℕ) := unbounded.readExtendedLength input inputOffset value

def readLength (input : List UInt8) (bits base inputOffset : ℕ) :
    Proc CompressionError BufferState (ℕ × ℕ) := unbounded.readLength input bits base inputOffset

def copyMatch (outputOffset offset n : ℕ) : Proc CompressionError BufferState Unit :=
  unbounded.copyMatch outputOffset offset n

def decodeMatch (input : List UInt8) (expectedOutputSize : ℕ) (token : UInt8) (v : DecodeVars) :
    Proc CompressionError BufferState (DecodeVars ⊕ DecodeVars) :=
  unbounded.decodeMatch input expectedOutputSize token v

def decodeStep (input : List UInt8) (expectedOutputSize : ℕ) (v : DecodeVars) :
    Proc CompressionError BufferState (DecodeVars ⊕ DecodeVars) :=
  unbounded.decodeStep input expectedOutputSize v

def decompressLzLiteBlock (input : List UInt8) (expectedOutputSize : ℕ) :
    Proc CompressionError BufferState CompressionError := unbounded.decompressLzLiteBlock input expectedOutputSize

section Unbounded

variable (input : List UInt8) (expectedOutputSize : ℕ)

theorem readExtendedLength_eq (inputOffset value : ℕ) : readExtendedLength input inputOffset value =
    Proc.loop (fun (p : ℕ × ℕ) =>
      match input[p.1]? with
      | none => Proc.ret .corruptData
      | some extra =>
        if extra = 255 then pure (.inl (p.1 + 1,p.2 + 255))
        else pure (.inr (p.1 + 1,p.2 + extra.toNat))) (input.length + 1) (inputOffset,value) := by
  unfold readExtendedLength Machine.readExtendedLength
  congr 1
  funext p
  unfold Machine.extendRound
  cases input[p.1]? with
  | none => rfl
  | some extra =>
    by_cases hextra : extra = 255
    · subst hextra
      rfl
    · simp only [if_neg hextra]
      rfl

theorem readLength_eq (bits base inputOffset : ℕ) : readLength input bits base inputOffset =
    if bits = 15 then readExtendedLength input inputOffset (15 + base)
    else pure (inputOffset,bits + base) := rfl

theorem copyMatch_succ (outputOffset offset n : ℕ) : copyMatch outputOffset offset (n + 1) = (do
    copyMatch outputOffset offset n
    moveByte (outputOffset + n) (outputOffset - offset + n)) := rfl

theorem decodeMatch_eq (token : UInt8) (v : DecodeVars) : decodeMatch input expectedOutputSize token v = (do
    Proc.returnIf (v.outputOffset = expectedOutputSize)
      (if v.inputOffset = input.length then .ok else .corruptData)
    Proc.returnIf (input.length < v.inputOffset + 2) .corruptData
    let low ← byteAt input v.inputOffset
    let high ← byteAt input (v.inputOffset + 1)
    let offset := low.toNat ||| high.toNat <<< 8
    Proc.returnIf (offset = 0 ∨ v.outputOffset < offset) .corruptData
    let matched ← readLength input (token &&& 0x0F).toNat kMinMatch (v.inputOffset + 2)
    Proc.returnIf (expectedOutputSize < v.outputOffset + matched.2) .corruptData
    copyMatch v.outputOffset offset matched.2
    pure (.inl ⟨matched.1,v.outputOffset + matched.2⟩)) := rfl

/-- Both checks of the literals keep them within the input and the output. -/
theorem decodeStep_eq (v : DecodeVars) : decodeStep input expectedOutputSize v =
    (match input[v.inputOffset]? with
    | none => pure (.inr v)
    | some token => do
      let literals ← readLength input (token >>> 4 &&& 0x0F).toNat 0 (v.inputOffset + 1)
      Proc.returnIf (input.length < literals.1 + literals.2 ∨
        expectedOutputSize < v.outputOffset + literals.2) .corruptData
      storeBytes v.outputOffset ((input.drop literals.1).take literals.2)
      decodeMatch input expectedOutputSize token
        ⟨literals.1 + literals.2,v.outputOffset + literals.2⟩) := by
  unfold decodeStep Machine.decodeStep
  cases input[v.inputOffset]? with
  | none => rfl
  | some token =>
    refine congrArg (readLength input (token >>> 4 &&& 0x0F).toNat 0 (v.inputOffset + 1) >>= ·) ?_
    funext literals
    change (do
      Proc.returnIf (input.length < literals.1 + literals.2) CompressionError.corruptData
      Proc.returnIf (expectedOutputSize < v.outputOffset + literals.2) CompressionError.corruptData
      copyLiterals input literals.1 v.outputOffset literals.2
      decodeMatch input expectedOutputSize token
        ⟨literals.1 + literals.2,v.outputOffset + literals.2⟩) = _
    rw [Proc.returnIf_or]
    refine Proc.returnIf_congr fun hfit => ?_
    rw [copyLiterals,if_pos (not_lt.mp (not_or.mp hfit).1)]

theorem decompressLzLiteBlock_eq : decompressLzLiteBlock input expectedOutputSize = (do
    Proc.modify fun s => ⟨s.buffer.clear,s.heap⟩
    let resized ← Proc.lift (resize expectedOutputSize)
    Proc.returnIf (resized = false) (if expectedOutputSize = 0 then .ok else .noMemory)
    let v ← Proc.loop (decodeStep input expectedOutputSize) (input.length + 1) ⟨0,0⟩
    pure (if v.outputOffset = expectedOutputSize then .ok else .corruptData)) := rfl

end Unbounded

/-! ### Decoder, on the target that a heap belongs to -/

/-- Sums that wrap around as the heap's `size_t` does. -/
def wrapping (h : Heap) : Machine BufferState where
  access _ m := m
  add a b := pure (h.wrap (a + b))

def decompressLzLiteBlockOn (h : Heap) (input : List UInt8) (expectedOutputSize : ℕ) :
    Proc CompressionError BufferState CompressionError :=
  (wrapping h).decompressLzLiteBlock input expectedOutputSize

end Codec
end EspCompressor
