import EspCompressor.FoldChecksum
import EspCompressor.LittleEndian
import EspCompressor.MemoryBuffer
import EspCompressor.Types

/-! The `.esc` format: little-endian fields, the CRC-32 of the headers and
blocks, and the two header codecs. -/
namespace EspCompressor

def kEscFormatVersion : UInt8 := 1
def kEscAlgorithmLzLite : UInt8 := 1
def kEscHeaderFlagUnknownOriginalSize : UInt8 := 0x01
def kEscBlockFlagRaw : UInt8 := 0x01
def kEscBlockFlagFinal : UInt8 := 0x02
def kEscUnknownOriginalSize : UInt64 := 0xFFFFFFFFFFFFFFFF
def kEscEncodedHeaderSize : ℕ := 24
def kEscEncodedBlockHeaderSize : ℕ := 13

structure EscHeader where
  version : UInt8 := kEscFormatVersion
  flags : UInt8 := 0
  algorithm : UInt8 := kEscAlgorithmLzLite
  originalSize : UInt64 := kEscUnknownOriginalSize
  blockSize : UInt32 := 0
  headerCrc : UInt32 := 0
  deriving DecidableEq, Repr

structure EscBlockHeader where
  flags : UInt8 := 0
  originalSize : UInt32 := 0
  storedSize : UInt32 := 0
  crc32 : UInt32 := 0
  deriving DecidableEq, Repr

namespace EscFormat

def writeLe32 (value : UInt32) : List UInt8 :=
  [(value &&& 0xFF).toUInt8, ((value >>> 8) &&& 0xFF).toUInt8,
    ((value >>> 16) &&& 0xFF).toUInt8, ((value >>> 24) &&& 0xFF).toUInt8]

def writeLe64 (value : UInt64) : List UInt8 :=
  (List.range 8).map fun i => ((value >>> UInt64.ofNat (i * 8)) &&& 0xFF).toUInt8

def readLe32 (data : List UInt8) (offset : ℕ) : UInt32 :=
  (data.getD offset 0).toUInt32 ||| ((data.getD (offset + 1) 0).toUInt32 <<< 8) |||
    ((data.getD (offset + 2) 0).toUInt32 <<< 16) ||| ((data.getD (offset + 3) 0).toUInt32 <<< 24)

def readLe64 (data : List UInt8) (offset : ℕ) : UInt64 :=
  (List.range 8).foldl
    (fun value i => value ||| ((data.getD (offset + i) 0).toUInt64 <<< UInt64.ofNat (i * 8))) 0

/-- One round of the inner loop of `espCompressorCrc32`. -/
def crcBit (crc : UInt32) : UInt32 :=
  if crc &&& 1 ≠ 0 then (crc >>> 1) ^^^ 0xEDB88320 else crc >>> 1

/-- One round of its outer loop. -/
def crcByte (crc : UInt32) (byte : UInt8) : UInt32 :=
  (List.range 8).foldl (fun c _ => crcBit c) (crc ^^^ byte.toUInt32)

def espCompressorCrc32 (data : List UInt8) : UInt32 := ~~~(data.foldl crcByte 0xFFFFFFFF)

/-- The 20 bytes of a file header that its CRC covers; they start with `ESC1`. -/
def coveredBytes (header : EscHeader) : List UInt8 :=
  [0x45, 0x53, 0x43, 0x31, header.version, header.flags, header.algorithm,
    UInt8.ofNat kEscEncodedHeaderSize] ++ writeLe64 header.originalSize ++ writeLe32 header.blockSize

def headerBytes (header : EscHeader) : List UInt8 :=
  coveredBytes header ++ writeLe32 (espCompressorCrc32 (coveredBytes header))

def encodeEscHeader (header : EscHeader) : Proc CompressionError BufferState CompressionError := do
  Proc.modify fun s => ⟨s.buffer.clear,s.heap⟩
  let resized ← Proc.lift (MemoryBuffer.resize kEscEncodedHeaderSize)
  Proc.returnIf (resized = false) .noMemory
  Proc.modify fun s => ⟨s.buffer.store 0 (headerBytes header),s.heap⟩
  pure .ok

/-- The caller's struct is the second argument, and the second result. -/
def decodeEscHeader (data : List UInt8) (header : EscHeader) : CompressionError × EscHeader :=
  if data.length < kEscEncodedHeaderSize then (.corruptData,header)
  else if data.getD 0 0 ≠ 0x45 ∨ data.getD 1 0 ≠ 0x53 ∨ data.getD 2 0 ≠ 0x43 ∨ data.getD 3 0 ≠ 0x31 then
    (.corruptData,header)
  else if data.getD 7 0 ≠ UInt8.ofNat kEscEncodedHeaderSize then (.corruptData,header)
  else if espCompressorCrc32 (data.take 20) ≠ readLe32 data 20 then (.corruptData,header)
  else (.ok,
    { version := data.getD 4 0
      flags := data.getD 5 0
      algorithm := data.getD 6 0
      originalSize := readLe64 data 8
      blockSize := readLe32 data 16
      headerCrc := readLe32 data 20 })

def blockHeaderBytes (header : EscBlockHeader) : List UInt8 :=
  header.flags :: (writeLe32 header.originalSize ++ writeLe32 header.storedSize ++ writeLe32 header.crc32)

/-- The bytes at `out` before the call are the second argument. -/
def encodeEscBlockHeader (header : EscBlockHeader) (out : List UInt8) :
    CompressionError × List UInt8 :=
  if out.length < kEscEncodedBlockHeaderSize then (.invalidArgument,out)
  else (.ok,blockHeaderBytes header ++ out.drop kEscEncodedBlockHeaderSize)

def decodeEscBlockHeader (data : List UInt8) (header : EscBlockHeader) :
    CompressionError × EscBlockHeader :=
  if data.length < kEscEncodedBlockHeaderSize then (.corruptData,header)
  else (.ok,
    { flags := data.getD 0 0
      originalSize := readLe32 data 1
      storedSize := readLe32 data 5
      crc32 := readLe32 data 9 })

/-! ### Little-endian fields -/

@[simp] theorem writeLe32_length (value : UInt32) : (writeLe32 value).length = 4 := rfl
@[simp] theorem writeLe64_length (value : UInt64) : (writeLe64 value).length = 8 := by
  simp [writeLe64]
@[simp] theorem coveredBytes_length (header : EscHeader) : (coveredBytes header).length = 20 := by
  simp [coveredBytes]
@[simp] theorem headerBytes_length (header : EscHeader) : (headerBytes header).length = 24 := by
  simp [headerBytes]
@[simp] theorem blockHeaderBytes_length (header : EscBlockHeader) :
    (blockHeaderBytes header).length = 13 := by simp [blockHeaderBytes]

open LittleEndian (or_shiftLeft_eq)

theorem shiftLeft32_toNat (b : UInt8) (k : UInt32) (hk : k.toNat ≤ 24) :
    (b.toUInt32 <<< k).toNat = b.toNat <<< k.toNat := by
  have hb := b.toNat_lt
  rw [UInt32.toNat_shiftLeft,UInt8.toNat_toUInt32,Nat.mod_eq_of_lt (show k.toNat < 32 by omega)]
  apply Nat.mod_eq_of_lt
  rw [Nat.shiftLeft_eq]
  calc b.toNat * 2 ^ k.toNat ≤ b.toNat * 2 ^ 24 := by gcongr; omega
    _ < 2 ^ 32 := by omega

theorem shiftLeft64_toNat (b : UInt8) (i : ℕ) (hi : i < 8) :
    (b.toUInt64 <<< UInt64.ofNat (i * 8)).toNat = b.toNat <<< (i * 8) := by
  have hb := b.toNat_lt
  have hk : (UInt64.ofNat (i * 8)).toNat = i * 8 := by simp; omega
  rw [UInt64.toNat_shiftLeft,UInt8.toNat_toUInt64,hk,Nat.mod_eq_of_lt (show i * 8 < 64 by omega)]
  apply Nat.mod_eq_of_lt
  rw [Nat.shiftLeft_eq]
  calc b.toNat * 2 ^ (i * 8) ≤ b.toNat * 2 ^ 56 := by gcongr <;> omega
    _ < 2 ^ 64 := by omega

/-- The field that `readLe32` reads, as a number. -/
theorem readLe32_toNat (data : List UInt8) (offset : ℕ) :
    (readLe32 data offset).toNat = LittleEndian.value
      [data.getD offset 0, data.getD (offset + 1) 0, data.getD (offset + 2) 0,
        data.getD (offset + 3) 0] := by
  have h₀ := (data.getD offset 0).toNat_lt
  have h₁ := (data.getD (offset + 1) 0).toNat_lt
  have h₂ := (data.getD (offset + 2) 0).toNat_lt
  simp only [readLe32,UInt32.toNat_or,UInt8.toNat_toUInt32,LittleEndian.value]
  rw [shiftLeft32_toNat _ 8 (by decide),shiftLeft32_toNat _ 16 (by decide),
    shiftLeft32_toNat _ 24 (by decide)]
  rw [show (8 : UInt32).toNat = 8 from rfl,show (16 : UInt32).toNat = 16 from rfl,
    show (24 : UInt32).toNat = 24 from rfl]
  rw [or_shiftLeft_eq _ 8 _ (by omega),or_shiftLeft_eq _ 16 _ (by omega),
    or_shiftLeft_eq _ 24 _ (by omega)]
  ring

/-- The loop of `readLe64` after `n` rounds. -/
theorem readLe64_rounds (data : List UInt8) (offset n : ℕ) (hn : n ≤ 8) :
    ((List.range n).foldl (fun value i => value |||
      ((data.getD (offset + i) 0).toUInt64 <<< UInt64.ofNat (i * 8))) (0 : UInt64)).toNat =
      LittleEndian.value ((List.range n).map fun i => data.getD (offset + i) 0) := by
  induction n with
  | zero => rfl
  | succ n ih =>
    have hlt := LittleEndian.value_lt ((List.range n).map fun i => data.getD (offset + i) 0)
    rw [List.length_map,List.length_range,show 256 ^ n = 2 ^ (n * 8) by
      rw [show 256 = 2 ^ 8 by rfl,← pow_mul,Nat.mul_comm]] at hlt
    rw [List.range_succ,List.foldl_append,List.map_append,LittleEndian.value_append]
    simp only [List.foldl_cons,List.foldl_nil,UInt64.toNat_or,ih (by omega),
      shiftLeft64_toNat _ n (by omega),or_shiftLeft_eq _ _ _ hlt,List.map_cons,List.map_nil,
      LittleEndian.value,List.length_map,List.length_range]
    rw [show 256 ^ n = 2 ^ (n * 8) by rw [show 256 = 2 ^ 8 by rfl,← pow_mul,Nat.mul_comm]]
    ring

theorem readLe64_toNat (data : List UInt8) (offset : ℕ) :
    (readLe64 data offset).toNat = LittleEndian.value
      ((List.range 8).map fun i => data.getD (offset + i) 0) :=
  readLe64_rounds data offset 8 (le_refl 8)

theorem writeLe32_eq_bytes (value : UInt32) : writeLe32 value = LittleEndian.bytes 4 value.toNat := by
  have hmask (n : ℕ) : n &&& 255 = n % 256 := Nat.and_two_pow_sub_one_eq_mod n 8
  rw [LittleEndian.bytes_eq_map]
  simp only [writeLe32,List.range_succ,List.range_zero,List.nil_append,List.map_cons,List.map_nil,
    List.cons_append,List.cons.injEq,and_true]
  refine ⟨?_,?_,?_,?_⟩ <;> apply UInt8.toNat_inj.mp <;>
    simp [hmask,Nat.shiftRight_eq_div_pow]

theorem writeLe64_eq_bytes (value : UInt64) : writeLe64 value = LittleEndian.bytes 8 value.toNat := by
  have hmask (n : ℕ) : n &&& 255 = n % 256 := Nat.and_two_pow_sub_one_eq_mod n 8
  rw [LittleEndian.bytes_eq_map]
  apply List.map_congr_left
  intro i hi
  have hi : i < 8 := List.mem_range.mp hi
  have hk : (UInt64.ofNat (i * 8)).toNat = i * 8 := by simp; omega
  apply UInt8.toNat_inj.mp
  rw [UInt64.toNat_toUInt8,UInt64.toNat_and,UInt64.toNat_shiftRight,hk,
    Nat.mod_eq_of_lt (show i * 8 < 64 by omega),Nat.shiftRight_eq_div_pow,Nat.mul_comm i,pow_mul]
  simp [hmask]

/-- Reading a field back gives the value written. -/
theorem readLe32_of_bytes {data : List UInt8} {offset : ℕ} {value : UInt32}
    (h : [data.getD offset 0, data.getD (offset + 1) 0, data.getD (offset + 2) 0,
      data.getD (offset + 3) 0] = writeLe32 value) : readLe32 data offset = value := by
  apply UInt32.toNat_inj.mp
  rw [readLe32_toNat,h,writeLe32_eq_bytes]
  exact LittleEndian.value_bytes 4 _ value.toNat_lt

theorem readLe64_of_bytes {data : List UInt8} {offset : ℕ} {value : UInt64}
    (h : ((List.range 8).map fun i => data.getD (offset + i) 0) = writeLe64 value) :
    readLe64 data offset = value := by
  apply UInt64.toNat_inj.mp
  rw [readLe64_toNat,h,writeLe64_eq_bytes]
  exact LittleEndian.value_bytes 8 _ value.toNat_lt

/-- Writing a field that was read gives its bytes back. -/
theorem writeLe32_readLe32 (data : List UInt8) (offset : ℕ) :
    writeLe32 (readLe32 data offset) = [data.getD offset 0, data.getD (offset + 1) 0,
      data.getD (offset + 2) 0, data.getD (offset + 3) 0] := by
  rw [writeLe32_eq_bytes,readLe32_toNat]
  exact LittleEndian.bytes_value [data.getD offset 0, data.getD (offset + 1) 0,
    data.getD (offset + 2) 0, data.getD (offset + 3) 0]

theorem writeLe64_readLe64 (data : List UInt8) (offset : ℕ) :
    writeLe64 (readLe64 data offset) = (List.range 8).map fun i => data.getD (offset + i) 0 := by
  rw [writeLe64_eq_bytes,readLe64_toNat]
  simpa using LittleEndian.bytes_value ((List.range 8).map fun i => data.getD (offset + i) 0)

theorem writeLe32_injective : Function.Injective writeLe32 := fun v v' h => by
  have hv : readLe32 (writeLe32 v) 0 = v := readLe32_of_bytes rfl
  rw [← hv,h]
  exact readLe32_of_bytes rfl

/-! ### Block headers -/

theorem decodeEscBlockHeader_encode (header h₀ : EscBlockHeader) :
    decodeEscBlockHeader (blockHeaderBytes header) h₀ = (.ok,header) := by
  have hlen : ¬(blockHeaderBytes header).length < kEscEncodedBlockHeaderSize := by
    simp [kEscEncodedBlockHeaderSize]
  rw [decodeEscBlockHeader,if_neg hlen]
  have h₁ : readLe32 (blockHeaderBytes header) 1 = header.originalSize := readLe32_of_bytes rfl
  have h₂ : readLe32 (blockHeaderBytes header) 5 = header.storedSize := readLe32_of_bytes rfl
  have h₃ : readLe32 (blockHeaderBytes header) 9 = header.crc32 := readLe32_of_bytes rfl
  rw [h₁,h₂,h₃]
  rfl

theorem blockHeaderBytes_injective : Function.Injective blockHeaderBytes := fun h h' he => by
  have hdecode := decodeEscBlockHeader_encode h {}
  rw [he,decodeEscBlockHeader_encode] at hdecode
  exact (Prod.mk.inj hdecode).2.symm

/-- Thirteen bytes always decode, and to a header that encodes to them. -/
theorem decodeEscBlockHeader_spec {data : List UInt8} (hlen : data.length = 13)
    (h₀ : EscBlockHeader) : ∃ header, decodeEscBlockHeader data h₀ = (.ok,header) ∧
      blockHeaderBytes header = data := by
  have hge : ¬data.length < kEscEncodedBlockHeaderSize := by simp [kEscEncodedBlockHeaderSize,hlen]
  rw [decodeEscBlockHeader,if_neg hge]
  refine ⟨_,rfl,?_⟩
  simp only [blockHeaderBytes,writeLe32_readLe32]
  apply List.ext_getElem
  · simp [hlen]
  · intro i h₁ h₂
    simp only [List.length_cons,List.length_append,List.length_nil] at h₁
    interval_cases i <;> simp [h₂]

theorem encodeEscBlockHeader_spec (header : EscBlockHeader) (out : List UInt8)
    (hlen : out.length = kEscEncodedBlockHeaderSize) :
    encodeEscBlockHeader header out = (.ok,blockHeaderBytes header) := by
  rw [encodeEscBlockHeader,if_neg (by omega),← hlen,List.drop_length,List.append_nil]

/-! ### File headers -/

/-- Encoding writes the header, or the heap does not grant the buffer. -/
theorem encodeEscHeader_spec (header : EscHeader) (s : BufferState) :
    Proc.wp (encodeEscHeader header)
      (fun e s' => s.heap.SameSupply s'.heap ∧ e = .ok ∧ s'.buffer.contents = headerBytes header)
      (fun e s' => s.heap.SameSupply s'.heap ∧ e = .noMemory ∧ s.heap.answer s.heap.calls = none)
      (fun _ => False) s := by
  simp only [encodeEscHeader,Proc.wp_bind,Proc.wp_modify,Proc.wp_lift,Proc.wp_returnIf,Proc.wp_pure]
  obtain ⟨hs,htrue,hfalse⟩ := MemoryBuffer.resize_spec kEscEncodedHeaderSize ⟨s.buffer.clear,s.heap⟩
  refine ⟨fun hno => ⟨hs,trivial,(hfalse hno).2⟩,fun hyes => ⟨hs,trivial,?_⟩⟩
  have hsize := (htrue (Bool.eq_true_of_not_eq_false hyes)).1
  exact MemoryBuffer.store_contents _ _ (by rw [headerBytes_length,hsize]; rfl)

theorem decodeEscHeader_encode (header h₀ : EscHeader) :
    decodeEscHeader (headerBytes header) h₀ =
      (.ok,{ header with headerCrc := espCompressorCrc32 (coveredBytes header) }) := by
  have hlen : ¬(headerBytes header).length < kEscEncodedHeaderSize := by
    simp [kEscEncodedHeaderSize]
  have hcrc : readLe32 (headerBytes header) 20 = espCompressorCrc32 (coveredBytes header) :=
    readLe32_of_bytes rfl
  have htake : (headerBytes header).take 20 = coveredBytes header := by
    rw [headerBytes,← coveredBytes_length header,List.take_left]
  have hsize : readLe64 (headerBytes header) 8 = header.originalSize := readLe64_of_bytes rfl
  have hblock : readLe32 (headerBytes header) 16 = header.blockSize := readLe32_of_bytes rfl
  have hmagic : ¬((headerBytes header).getD 0 0 ≠ 0x45 ∨ (headerBytes header).getD 1 0 ≠ 0x53 ∨
      (headerBytes header).getD 2 0 ≠ 0x43 ∨ (headerBytes header).getD 3 0 ≠ 0x31) := by
    simp [headerBytes,coveredBytes]
  have hsizeByte : ¬(headerBytes header).getD 7 0 ≠ UInt8.ofNat kEscEncodedHeaderSize := by
    simp [headerBytes,coveredBytes]
  rw [decodeEscHeader,if_neg hlen,if_neg hmagic,if_neg hsizeByte,if_neg (by rw [htake,hcrc]; simp),
    hsize,hblock,hcrc]
  rfl

/-- A header is determined by its bytes, but for the field of the CRC. -/
theorem headerBytes_inj {header header' : EscHeader} (h : headerBytes header = headerBytes header') :
    ∃ crc, header' = { header with headerCrc := crc } := by
  have hdecode := decodeEscHeader_encode header {}
  rw [h,decodeEscHeader_encode] at hdecode
  have hsame := congrArg (fun x : EscHeader => { x with headerCrc := header'.headerCrc })
    (Prod.mk.inj hdecode).2
  exact ⟨header'.headerCrc,hsame⟩

/-- Only the encoding of a header decodes to it. -/
theorem decodeEscHeader_ok {data : List UInt8} {h₀ header : EscHeader} (hlen : data.length = 24)
    (h : decodeEscHeader data h₀ = (.ok,header)) : headerBytes header = data := by
  unfold decodeEscHeader at h
  split_ifs at h with hshort hmagic hsize hcrc <;>
    simp only [Prod.mk.injEq,reduceCtorEq,false_and,true_and] at h
  simp only [not_or,not_not] at hmagic hsize hcrc
  obtain ⟨h₀,h₁,h₂,h₃⟩ := hmagic
  have hcovered : coveredBytes header = data.take 20 := by
    rw [← h,coveredBytes]
    simp only [writeLe32_readLe32,writeLe64_readLe64]
    rw [← h₀,← h₁,← h₂,← h₃,← hsize]
    apply List.ext_getElem
    · simp [hlen]
    · intro i h₁ h₂
      simp only [List.length_append,List.length_cons,List.length_nil,List.length_map,
        List.length_range] at h₁
      interval_cases i <;> simp [List.range_succ,hlen]
  rw [headerBytes,hcovered,hcrc,writeLe32_readLe32]
  conv_rhs => rw [← List.take_append_drop 20 data]
  congr 1
  apply List.ext_getElem
  · simp [hlen]
  · intro i h₁ h₂
    simp only [List.length_cons,List.length_nil] at h₁
    interval_cases i <;> simp [hlen]

/-! ### CRC-32 -/

theorem low_bit_iff (crc : UInt32) : crc &&& 1 ≠ 0 ↔ crc.toBitVec.getLsbD 0 = true := by
  rw [ne_eq,← UInt32.toBitVec_inj,UInt32.toBitVec_and]
  constructor
  · intro h
    by_contra hb
    apply h
    apply BitVec.eq_of_getLsbD_eq
    intro i hi
    rcases Nat.eq_zero_or_pos i with rfl | hpos
    · simpa using hb
    · simp [BitVec.getLsbD_one]; omega
  · intro h he
    have := congrArg (fun v => v.getLsbD 0) he
    rw [BitVec.getLsbD_and,h] at this
    exact absurd this (by decide)

/-- The lowest bit of the register decides the highest bit of the next one. -/
theorem crcBit_high (crc : UInt32) : (crcBit crc).toBitVec.getLsbD 31 = crc.toBitVec.getLsbD 0 := by
  unfold crcBit
  split_ifs with h
  · rw [(low_bit_iff crc).mp h]; simp
  · have hf : crc.toBitVec.getLsbD 0 = false := by simpa using mt (low_bit_iff crc).mpr h
    rw [hf]; simp

theorem crcBit_injective : Function.Injective crcBit := by
  intro x y h
  have hlow : x.toBitVec.getLsbD 0 = y.toBitVec.getLsbD 0 := by
    rw [← crcBit_high x,← crcBit_high y,h]
  have hshift : x >>> 1 = y >>> 1 := by
    unfold crcBit at h
    simp only [low_bit_iff,hlow] at h
    split_ifs at h
    · exact (UInt32.xor_left_inj _).mp h
    · exact h
  apply UInt32.toBitVec_inj.mp
  apply BitVec.eq_of_getLsbD_eq
  intro i hi
  cases i with
  | zero => exact hlow
  | succ j =>
    have := congrArg (fun v => v.toBitVec.getLsbD j) hshift
    simpa [Nat.add_comm] using this

theorem crcRounds_injective (n : ℕ) :
    Function.Injective fun c => (List.range n).foldl (fun c _ => crcBit c) c :=
  FoldChecksum.foldl_injective (fun _ => crcBit_injective) _

theorem crcByte_register_injective (b : UInt8) : Function.Injective (crcByte · b) := by
  intro x y h
  exact (UInt32.xor_left_inj _).mp (crcRounds_injective 8 h)

theorem crcByte_byte_injective (crc : UInt32) : Function.Injective (crcByte crc) := by
  intro a b h
  have hab : a.toUInt32 = b.toUInt32 := (UInt32.xor_right_inj crc).mp (crcRounds_injective 8 h)
  apply UInt8.toNat_inj.mp
  simpa using congrArg UInt32.toNat hab

/-- One changed byte changes the CRC of a message of any length. -/
theorem crc32_detects_one (pre post : List UInt8) {b b' : UInt8}
    (h : espCompressorCrc32 (pre ++ b :: post) = espCompressorCrc32 (pre ++ b' :: post)) :
    b = b' := by
  have hfold := congrArg (~~~ ·) h
  simp only [espCompressorCrc32,UInt32.not_not] at hfold
  exact FoldChecksum.foldl_detects_one crcByte_register_injective crcByte_byte_injective _ pre post
    hfold

@[simp] theorem crc32_nil : espCompressorCrc32 [] = 0 := by decide

end EscFormat
end EspCompressor
