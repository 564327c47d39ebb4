import EspCompressor.Compressor
import EspCompressor.LzLite

/-! The `.esc` container as data: its blocks and their grammar, a decoder of whole byte strings,
and the blocks that the encoder makes of the chunks it reads. -/
namespace EspCompressor
namespace Container

open EscFormat

/-- One block as it is stored. -/
@[ext] structure Block where
  header : EscBlockHeader
  payload : List UInt8
  deriving DecidableEq

namespace Block

def bytes (b : Block) : List UInt8 := blockHeaderBytes b.header ++ b.payload

def IsRaw (b : Block) : Prop := b.header.flags &&& kEscBlockFlagRaw ≠ 0

def IsFinal (b : Block) : Prop := b.header.flags &&& kEscBlockFlagFinal ≠ 0

instance (b : Block) : Decidable b.IsRaw := inferInstanceAs (Decidable (_ ≠ _))

instance (b : Block) : Decidable b.IsFinal := inferInstanceAs (Decidable (_ ≠ _))

/-- What the payload stands for: itself, or its decoding to `originalSize` bytes. -/
def data (b : Block) : Option (List UInt8) :=
  if b.IsRaw then some b.payload else LzLite.decodeBlock b.payload b.header.originalSize.toNat

/-- A record of a container with the given header, and its data. -/
structure WellFormed (header : EscHeader) (b : Block) (data : List UInt8) : Prop where
  original_le : b.header.originalSize ≤ header.blockSize
  stored_le : b.header.storedSize ≤ b.header.originalSize
  nonempty : ¬b.IsFinal → 0 < b.header.originalSize
  raw_eq : b.IsRaw → b.header.storedSize = b.header.originalSize
  payload_length : b.payload.length = b.header.storedSize.toNat
  data_eq : b.data = some data
  crc_eq : espCompressorCrc32 data = b.header.crc32

@[simp] theorem bytes_length (b : Block) : b.bytes.length = 13 + b.payload.length := by
  simp [bytes]

theorem WellFormed.data_length {header : EscHeader} {b : Block} {data : List UInt8}
    (h : b.WellFormed header data) : data.length = b.header.originalSize.toNat := by
  have hdata := h.data_eq
  unfold Block.data at hdata
  split_ifs at hdata with hraw
  · rw [← Option.some.inj hdata,h.payload_length,h.raw_eq hraw]
  · exact LzLite.decodeBlock_length hdata

end Block

/-- Records of which exactly the last one is final, and their data. -/
inductive Blocks (header : EscHeader) : List Block → List UInt8 → Prop
  | last {b : Block} {data : List UInt8} : b.WellFormed header data → b.IsFinal →
      Blocks header [b] data
  | cons {b : Block} {bs : List Block} {data out : List UInt8} : b.WellFormed header data →
      ¬b.IsFinal → Blocks header bs out → Blocks header (b :: bs) (data ++ out)

/-- A file header that the decoder accepts; its bytes carry the magic, the size byte and the CRC. -/
structure HeaderOk (header : EscHeader) : Prop where
  version : header.version = kEscFormatVersion
  algorithm : header.algorithm = kEscAlgorithmLzLite
  blockSize : header.blockSize ≠ 0

/-- The header leaves the size open. -/
def UnknownSize (header : EscHeader) : Prop := header.flags &&& kEscHeaderFlagUnknownOriginalSize ≠ 0

instance (header : EscHeader) : Decidable (UnknownSize header) := inferInstanceAs (Decidable (_ ≠ _))

/-- The bytes of a container. -/
def encode (header : EscHeader) (blocks : List Block) : List UInt8 :=
  headerBytes header ++ blocks.flatMap Block.bytes

/-- `c` is a container of `o`. -/
def IsContainer (c o : List UInt8) : Prop :=
  ∃ header blocks, c = encode header blocks ∧ HeaderOk header ∧ Blocks header blocks o ∧
    (¬UnknownSize header → o.length = header.originalSize.toNat)

/-! ### A decoder of byte strings -/

/-- Take one record off: the record, its data and what follows. -/
def takeBlock (header : EscHeader) (rest : List UInt8) : Option (Block × List UInt8 × List UInt8) :=
  let blockHeader := (decodeEscBlockHeader (rest.take kEscEncodedBlockHeaderSize) {}).2
  let body := rest.drop kEscEncodedBlockHeaderSize
  let b : Block := ⟨blockHeader,body.take blockHeader.storedSize.toNat⟩
  if rest.length < kEscEncodedBlockHeaderSize then none
  else if Compressor.validateEscBlockBounds header blockHeader = false then none
  else if body.length < blockHeader.storedSize.toNat then none
  else b.data.bind fun data =>
    if espCompressorCrc32 data ≠ blockHeader.crc32 then none
    else some (b,data,body.drop blockHeader.storedSize.toNat)

theorem validateEscBlockBounds_iff (header : EscHeader) (b : Block) :
    Compressor.validateEscBlockBounds header b.header = true ↔
      b.header.originalSize ≤ header.blockSize ∧ b.header.storedSize ≤ b.header.originalSize ∧
      (¬b.IsFinal → 0 < b.header.originalSize) ∧
      (b.IsRaw → b.header.storedSize = b.header.originalSize) := by
  unfold Compressor.validateEscBlockBounds Block.IsFinal Block.IsRaw
  have hpos : 0 < b.header.originalSize ↔ b.header.originalSize ≠ 0 := UInt32.pos_iff_ne_zero
  split_ifs with h₁ h₂ h₃ h₄
  · simp [h₁]
  · simp [UInt32.not_le.mpr h₂]
  · simp [UInt32.not_le.mpr h₃]
  · simp [h₄]
  · simp only [UInt32.not_lt] at h₂ h₃
    simp only [true_iff,h₂,h₃,true_and,hpos,not_not]
    exact ⟨fun hf ho => h₁ ⟨ho,hf⟩,fun hr => not_not.mp fun he => h₄ ⟨hr,he⟩⟩

/-- Taking a record off, once its header is known. -/
theorem takeBlock_append (header : EscHeader) (blockHeader : EscBlockHeader) (body : List UInt8) :
    takeBlock header (blockHeaderBytes blockHeader ++ body) =
      if Compressor.validateEscBlockBounds header blockHeader = false then none
      else if body.length < blockHeader.storedSize.toNat then none
      else (Block.mk blockHeader (body.take blockHeader.storedSize.toNat)).data.bind fun data =>
        if espCompressorCrc32 data ≠ blockHeader.crc32 then none
        else some (⟨blockHeader,body.take blockHeader.storedSize.toNat⟩,data,
          body.drop blockHeader.storedSize.toNat) := by
  have hlen : (blockHeaderBytes blockHeader).length = kEscEncodedBlockHeaderSize := by simp; rfl
  have htake : (blockHeaderBytes blockHeader ++ body).take kEscEncodedBlockHeaderSize =
      blockHeaderBytes blockHeader := by rw [← hlen,List.take_left]
  have hdrop : (blockHeaderBytes blockHeader ++ body).drop kEscEncodedBlockHeaderSize = body := by
    rw [← hlen,List.drop_left]
  have hshort : ¬(blockHeaderBytes blockHeader ++ body).length < kEscEncodedBlockHeaderSize := by
    simp [kEscEncodedBlockHeaderSize]
  unfold takeBlock
  dsimp only
  rw [htake,hdrop,decodeEscBlockHeader_encode,if_neg hshort]

theorem takeBlock_short {header : EscHeader} {rest : List UInt8}
    (h : rest.length < kEscEncodedBlockHeaderSize) : takeBlock header rest = none := by
  unfold takeBlock
  rw [if_pos h]

/-- Exactly the well-formed records are taken. -/
theorem takeBlock_eq_some_iff {header : EscHeader} {rest data rest' : List UInt8} {b : Block} :
    takeBlock header rest = some (b,data,rest') ↔
      b.WellFormed header data ∧ rest = b.bytes ++ rest' := by
  constructor
  · intro h
    unfold takeBlock at h
    dsimp only at h
    split_ifs at h with hshort hbounds hbody
    have htake : (rest.take kEscEncodedBlockHeaderSize).length = 13 := by
      rw [List.length_take]
      exact min_eq_left (not_lt.mp hshort)
    obtain ⟨blockHeader,hdecode,hbytes⟩ := decodeEscBlockHeader_spec htake {}
    rw [hdecode] at h hbounds hbody
    dsimp only at h hbounds hbody
    cases hdata : (Block.mk blockHeader ((rest.drop kEscEncodedBlockHeaderSize).take
        blockHeader.storedSize.toNat)).data with
    | none => simp [hdata] at h
    | some data' =>
      simp only [hdata,Option.bind_some] at h
      split_ifs at h with hcrc
      simp only [Option.some.injEq,Prod.mk.injEq] at h
      obtain ⟨rfl,rfl,rfl⟩ := h
      have hvalid := (validateEscBlockBounds_iff header ⟨blockHeader,
        (rest.drop kEscEncodedBlockHeaderSize).take blockHeader.storedSize.toNat⟩).mp
        (Bool.eq_true_of_not_eq_false hbounds)
      refine ⟨⟨hvalid.1,hvalid.2.1,hvalid.2.2.1,hvalid.2.2.2,?_,hdata,not_not.mp hcrc⟩,?_⟩
      · rw [List.length_take]
        exact min_eq_left (not_lt.mp hbody)
      · rw [Block.bytes,hbytes,List.append_assoc,List.take_append_drop,List.take_append_drop]
  · rintro ⟨hb,rfl⟩
    have hvalid := (validateEscBlockBounds_iff header b).mpr
      ⟨hb.original_le,hb.stored_le,hb.nonempty,hb.raw_eq⟩
    have hbody : ¬(b.payload ++ rest').length < b.payload.length := by simp
    rw [Block.bytes,List.append_assoc,takeBlock_append,if_neg (by rw [hvalid]; simp),
      ← hb.payload_length,if_neg hbody,List.take_left,List.drop_left]
    simp only [hb.data_eq,Option.bind_some,hb.crc_eq,ne_eq,not_true,if_false]

theorem takeBlock_length {header : EscHeader} {rest data rest' : List UInt8} {b : Block}
    (h : takeBlock header rest = some (b,data,rest')) : rest'.length + 13 ≤ rest.length := by
  obtain ⟨-,rfl⟩ := takeBlock_eq_some_iff.mp h
  simp only [List.length_append,Block.bytes_length]
  omega

/-- Take records off until the final one: the data, and what follows. -/
def decodeBlocks (header : EscHeader) (rest : List UInt8) : Option (List UInt8 × List UInt8) :=
  match _ : takeBlock header rest with
  | none => none
  | some (b,data,rest') =>
    if b.IsFinal then some (data,rest')
    else (decodeBlocks header rest').map fun r => (data ++ r.1,r.2)
  termination_by rest.length
  decreasing_by
    have := takeBlock_length ‹_›
    omega

/-- The checks of the file header, on its 24 bytes. -/
def decodeHeader (bytes : List UInt8) : Except CompressionError EscHeader :=
  let decoded := decodeEscHeader bytes {}
  if decoded.1 ≠ .ok then .error decoded.1
  else if decoded.2.version ≠ kEscFormatVersion then .error .unsupportedVersion
  else if decoded.2.algorithm ≠ kEscAlgorithmLzLite then .error .unsupportedAlgorithm
  else if decoded.2.blockSize = 0 then .error .corruptData
  else .ok decoded.2

/-- Decode what follows the file header, and check its size. -/
def decodeBody (header : EscHeader) (body : List UInt8) :
    Except CompressionError (List UInt8 × List UInt8) :=
  match decodeBlocks header body with
  | none => .error .corruptData
  | some r =>
    if ¬UnknownSize header ∧ UInt64.ofNat r.1.length ≠ header.originalSize then .error .corruptData
    else .ok r

/-- Decode the container at the front of a byte string: the data, and what follows. -/
def decode (s : List UInt8) : Except CompressionError (List UInt8 × List UInt8) :=
  if s.length < kEscEncodedHeaderSize then .error .corruptData
  else (decodeHeader (s.take kEscEncodedHeaderSize)).bind fun header =>
    decodeBody header (s.drop kEscEncodedHeaderSize)

theorem decode_of_header {s : List UInt8} {header : EscHeader}
    (hshort : ¬s.length < kEscEncodedHeaderSize)
    (h : decodeHeader (s.take kEscEncodedHeaderSize) = .ok header) :
    decode s = decodeBody header (s.drop kEscEncodedHeaderSize) := by
  rw [decode,if_neg hshort,h]
  rfl

theorem decode_of_badHeader {s : List UInt8} {e : CompressionError}
    (hshort : ¬s.length < kEscEncodedHeaderSize)
    (h : decodeHeader (s.take kEscEncodedHeaderSize) = .error e) : decode s = .error e := by
  rw [decode,if_neg hshort,h]
  rfl

theorem decodeBody_of_none {header : EscHeader} {body : List UInt8}
    (h : decodeBlocks header body = none) : decodeBody header body = .error .corruptData := by
  rw [decodeBody,h]

theorem decodeBody_of_some {header : EscHeader} {body : List UInt8} {r : List UInt8 × List UInt8}
    (h : decodeBlocks header body = some r) : decodeBody header body =
      if ¬UnknownSize header ∧ UInt64.ofNat r.1.length ≠ header.originalSize then .error .corruptData
      else .ok r := by
  rw [decodeBody,h]

theorem decodeBlocks_of_taken {header : EscHeader} {rest data rest' : List UInt8} {b : Block}
    (h : takeBlock header rest = some (b,data,rest')) : decodeBlocks header rest =
      if b.IsFinal then some (data,rest')
      else (decodeBlocks header rest').map fun r => (data ++ r.1,r.2) := by
  rw [decodeBlocks]
  split
  · rename_i hnone
    rw [h] at hnone
    simp at hnone
  · rename_i b₁ data₁ rest₁ hsome
    rw [h] at hsome
    obtain ⟨rfl,rfl,rfl⟩ : b = b₁ ∧ data = data₁ ∧ rest' = rest₁ := by simpa using hsome
    rfl

theorem decodeBlocks_of_refused {header : EscHeader} {rest : List UInt8}
    (h : takeBlock header rest = none) : decodeBlocks header rest = none := by
  rw [decodeBlocks]
  split
  · rfl
  · rename_i hsome
    rw [h] at hsome
    simp at hsome

/-- The decoder accepts every sequence of records of the grammar. -/
theorem Blocks.decode {header : EscHeader} {bs : List Block} {out : List UInt8}
    (h : Blocks header bs out) (rest : List UInt8) :
    decodeBlocks header (bs.flatMap Block.bytes ++ rest) = some (out,rest) := by
  induction h with
  | @last b data hb hfinal =>
    have htake : takeBlock header ([b].flatMap Block.bytes ++ rest) = some (b,data,rest) :=
      takeBlock_eq_some_iff.mpr ⟨hb,by simp⟩
    rw [decodeBlocks_of_taken htake,if_pos hfinal]
  | @cons b bs data out hb hfinal _ ih =>
    have htake : takeBlock header ((b :: bs).flatMap Block.bytes ++ rest) =
        some (b,data,bs.flatMap Block.bytes ++ rest) := takeBlock_eq_some_iff.mpr ⟨hb,by simp⟩
    rw [decodeBlocks_of_taken htake,if_neg hfinal,ih]
    rfl

/-- What the decoder accepts is in the grammar. -/
theorem decodeBlocks_some {header : EscHeader} {s out rest : List UInt8}
    (h : decodeBlocks header s = some (out,rest)) :
    ∃ bs, Blocks header bs out ∧ s = bs.flatMap Block.bytes ++ rest := by
  induction s using decodeBlocks.induct header generalizing out with
  | case1 s hnone =>
    rw [decodeBlocks_of_refused hnone] at h
    simp at h
  | case2 s b data rest' htake hfinal =>
    rw [decodeBlocks_of_taken htake,if_pos hfinal] at h
    obtain ⟨rfl,rfl⟩ : data = out ∧ rest' = rest := by simpa using h
    obtain ⟨hb,rfl⟩ := takeBlock_eq_some_iff.mp htake
    exact ⟨[b],.last hb hfinal,by simp⟩
  | case3 s b data rest' htake hfinal ih =>
    rw [decodeBlocks_of_taken htake,if_neg hfinal,Option.map_eq_some_iff] at h
    obtain ⟨⟨out',rest₁⟩,htail,heq⟩ := h
    obtain ⟨rfl,rfl⟩ : data ++ out' = out ∧ rest₁ = rest := by simpa using heq
    obtain ⟨bs,hbs,rfl⟩ := ih htail
    obtain ⟨hb,rfl⟩ := takeBlock_eq_some_iff.mp htake
    exact ⟨b :: bs,.cons hb hfinal hbs,by simp⟩

theorem Block.WellFormed.of_blockSize {header header' : EscHeader} {b : Block} {data : List UInt8}
    (h : b.WellFormed header data) (hsize : header.blockSize = header'.blockSize) :
    b.WellFormed header' data := { h with original_le := hsize ▸ h.original_le }

theorem Blocks.of_blockSize {header header' : EscHeader} {bs : List Block} {out : List UInt8}
    (h : Blocks header bs out) (hsize : header.blockSize = header'.blockSize) :
    Blocks header' bs out := by
  induction h with
  | last hb hfinal => exact .last (hb.of_blockSize hsize) hfinal
  | cons hb hfinal _ ih => exact .cons (hb.of_blockSize hsize) hfinal ih

theorem decodeHeader_headerBytes {header : EscHeader} (h : HeaderOk header) :
    ∃ crc, decodeHeader (headerBytes header) = .ok { header with headerCrc := crc } := by
  refine ⟨espCompressorCrc32 (coveredBytes header),?_⟩
  unfold decodeHeader
  rw [decodeEscHeader_encode]
  dsimp only
  rw [if_neg (by simp),if_neg (by simp [h.version]),if_neg (by simp [h.algorithm]),if_neg h.blockSize]

theorem decodeHeader_ok {bytes : List UInt8} {header : EscHeader} (hlen : bytes.length = 24)
    (h : decodeHeader bytes = .ok header) : HeaderOk header ∧ headerBytes header = bytes := by
  unfold decodeHeader at h
  dsimp only at h
  split_ifs at h with hdecode hversion halgorithm hsize
  obtain rfl := Except.ok.inj h
  refine ⟨⟨not_not.mp hversion,not_not.mp halgorithm,hsize⟩,?_⟩
  exact decodeEscHeader_ok hlen (Prod.ext (not_not.mp hdecode) rfl)

theorem encode_length_ge (header : EscHeader) (blocks : List Block) :
    24 ≤ (encode header blocks).length := by simp [encode]

theorem records_length_ge (blocks : List Block) :
    13 * blocks.length ≤ (blocks.flatMap Block.bytes).length := by
  induction blocks with
  | nil => simp
  | cons b bs ih =>
    simp only [List.flatMap_cons,List.length_append,List.length_cons,Block.bytes_length]
    omega

/-- The decoder accepts exactly what starts with a container. -/
theorem decode_ok_iff {s out rest : List UInt8} : decode s = .ok (out,rest) ↔
    ∃ header blocks, s = encode header blocks ++ rest ∧ HeaderOk header ∧ Blocks header blocks out ∧
      (¬UnknownSize header → UInt64.ofNat out.length = header.originalSize) := by
  constructor
  · intro h
    have hshort : ¬s.length < kEscEncodedHeaderSize := fun hs => by simp [decode,hs] at h
    have htake : (s.take kEscEncodedHeaderSize).length = 24 := by
      rw [List.length_take]
      exact min_eq_left (not_lt.mp hshort)
    cases hheader : decodeHeader (s.take kEscEncodedHeaderSize) with
    | error e =>
      rw [decode_of_badHeader hshort hheader] at h
      simp at h
    | ok header =>
      rw [decode_of_header hshort hheader] at h
      cases hblocks : decodeBlocks header (s.drop kEscEncodedHeaderSize) with
      | none =>
        rw [decodeBody_of_none hblocks] at h
        simp at h
      | some r =>
        rw [decodeBody_of_some hblocks] at h
        split_ifs at h with hsize
        obtain rfl := Except.ok.inj h
        obtain ⟨hok,hbytes⟩ := decodeHeader_ok htake hheader
        obtain ⟨blocks,hbs,hdrop⟩ := decodeBlocks_some hblocks
        refine ⟨header,blocks,?_,hok,hbs,fun hu => not_not.mp fun hne => hsize ⟨hu,hne⟩⟩
        rw [encode,hbytes,List.append_assoc,← hdrop,List.take_append_drop]
  · rintro ⟨header,blocks,rfl,hok,hbs,hsize⟩
    have hlen : (headerBytes header).length = kEscEncodedHeaderSize := by simp; rfl
    have hshort : ¬(encode header blocks ++ rest).length < kEscEncodedHeaderSize := by
      have := encode_length_ge header blocks
      simp [kEscEncodedHeaderSize]
      omega
    obtain ⟨crc,hheader⟩ := decodeHeader_headerBytes hok
    have htake : (encode header blocks ++ rest).take kEscEncodedHeaderSize = headerBytes header := by
      rw [encode,List.append_assoc,← hlen,List.take_left]
    have hdrop : (encode header blocks ++ rest).drop kEscEncodedHeaderSize =
        blocks.flatMap Block.bytes ++ rest := by
      rw [encode,List.append_assoc,← hlen,List.drop_left]
    have hsame : Blocks { header with headerCrc := crc } blocks out := hbs.of_blockSize rfl
    rw [decode_of_header hshort (htake ▸ hheader),hdrop,decodeBody_of_some (hsame.decode rest),
      if_neg fun h => h.2 (hsize h.1)]

/-- What follows a container does not matter. -/
theorem decode_append {c out rest : List UInt8} (h : decode (c ++ rest) = .ok (out,rest))
    (t : List UInt8) : decode (c ++ t) = .ok (out,t) := by
  obtain ⟨header,blocks,hs,hrest⟩ := decode_ok_iff.mp h
  obtain rfl := List.append_cancel_right hs
  exact decode_ok_iff.mpr ⟨header,blocks,rfl,hrest⟩

/-- A container that is cut short is corrupt. -/
theorem decode_truncated {c out : List UInt8} (h : decode c = .ok (out,[])) {k : ℕ}
    (hk : k < c.length) : decode (c.take k) = .error .corruptData := by
  obtain ⟨header,blocks,hs,hok,hbs,-⟩ := decode_ok_iff.mp h
  rw [List.append_nil] at hs
  subst hs
  have hlen : (headerBytes header).length = kEscEncodedHeaderSize := by simp; rfl
  by_cases hshort : ((encode header blocks).take k).length < kEscEncodedHeaderSize
  · rw [decode,if_pos hshort]
  · have hge : kEscEncodedHeaderSize ≤ k := by
      rw [List.length_take] at hshort
      omega
    have htake : ((encode header blocks).take k).take kEscEncodedHeaderSize = headerBytes header := by
      rw [List.take_take,min_eq_left hge,encode,← hlen,List.take_left]
    obtain ⟨crc,hheader⟩ := decodeHeader_headerBytes hok
    rw [decode_of_header hshort (htake ▸ hheader)]
    cases hblocks : decodeBlocks { header with headerCrc := crc }
        (((encode header blocks).take k).drop kEscEncodedHeaderSize) with
    | none => exact decodeBody_of_none hblocks
    | some r =>
      -- the records of the shorter string would end the longer one early
      obtain ⟨bs',hbs',hdrop⟩ := decodeBlocks_some hblocks
      have hfull : (encode header blocks).drop kEscEncodedHeaderSize =
          bs'.flatMap Block.bytes ++ (r.2 ++ (encode header blocks).drop k) := by
        rw [← List.append_assoc,← hdrop,← List.drop_append_of_le_length (by omega),
          List.take_append_drop]
      have hfirst := hbs'.decode (r.2 ++ (encode header blocks).drop k)
      have hsame : Blocks { header with headerCrc := crc } blocks out := hbs.of_blockSize rfl
      have hsecond := hsame.decode []
      have hdrop' : (encode header blocks).drop kEscEncodedHeaderSize =
          blocks.flatMap Block.bytes := by rw [encode,← hlen,List.drop_left]
      rw [List.append_nil,← hdrop',hfull,hfirst] at hsecond
      have hnil := (Prod.mk.inj (Option.some.inj hsecond)).2
      have hdropk := (List.append_eq_nil_iff.mp hnil).2
      exact absurd (List.drop_eq_nil_iff.mp hdropk) (by omega)

/-! ### The encoder's blocks -/

/-- The block that the encoder writes for a chunk, when the source says `ended` after it. -/
def chunkBlock (windowSize : ℕ) (chunk : List UInt8) (ended : Bool) : Block :=
  let encoded := LzLite.encodeBlock chunk windowSize
  let useRaw := decide (chunk.length ≤ encoded.length)
  let payload := if useRaw then chunk else encoded
  { header :=
      { flags := (if useRaw then kEscBlockFlagRaw else 0) ||| (if ended then kEscBlockFlagFinal else 0)
        originalSize := UInt32.ofNat chunk.length
        storedSize := UInt32.ofNat payload.length
        crc32 := espCompressorCrc32 chunk }
    payload }

/-- The empty final block. -/
def terminator : Block := ⟨{ flags := kEscBlockFlagRaw ||| kEscBlockFlagFinal },[]⟩

/-- The source said after the last chunk that it has ended. -/
def lastEnded (chunks : List (List UInt8 × Bool)) : Bool :=
  (chunks.getLast?.map Prod.snd).getD false

/-- All blocks that the encoder writes for some chunks. -/
def blocksOf (windowSize : ℕ) (chunks : List (List UInt8 × Bool)) : List Block :=
  chunks.map (fun c => chunkBlock windowSize c.1 c.2) ++
    if lastEnded chunks then [] else [terminator]

/-- The data of some chunks. -/
def chunkData (chunks : List (List UInt8 × Bool)) : List UInt8 := chunks.flatMap Prod.fst

theorem chunkBlock_isFinal (windowSize : ℕ) (chunk : List UInt8) (ended : Bool) :
    (chunkBlock windowSize chunk ended).IsFinal ↔ ended = true := by
  unfold chunkBlock Block.IsFinal
  dsimp only
  by_cases h : chunk.length ≤ (LzLite.encodeBlock chunk windowSize).length
  · simp only [h,decide_true,if_true]
    cases ended <;> decide
  · simp only [h,decide_false,Bool.false_eq_true,if_false]
    cases ended <;> decide

theorem chunkBlock_isRaw (windowSize : ℕ) (chunk : List UInt8) (ended : Bool) :
    (chunkBlock windowSize chunk ended).IsRaw ↔
      chunk.length ≤ (LzLite.encodeBlock chunk windowSize).length := by
  unfold chunkBlock Block.IsRaw
  by_cases h : chunk.length ≤ (LzLite.encodeBlock chunk windowSize).length
  · simp only [h,decide_true,if_true,iff_true]
    cases ended <;> decide
  · simp only [h,decide_false,Bool.false_eq_true,if_false,iff_false]
    cases ended <;> decide

theorem toNat_ofNat_of_le {n : ℕ} {m : UInt32} (h : n ≤ m.toNat) : (UInt32.ofNat n).toNat = n :=
  UInt32.toNat_ofNat_of_lt' (lt_of_le_of_lt h m.toNat_lt)

/-- What the encoder writes for a chunk decodes to the chunk. -/
theorem chunkBlock_wellFormed {header : EscHeader} {chunk : List UInt8} (windowSize : ℕ)
    (ended : Bool) (hne : chunk ≠ []) (hle : chunk.length ≤ header.blockSize.toNat) :
    (chunkBlock windowSize chunk ended).WellFormed header chunk := by
  have horiginal : (chunkBlock windowSize chunk ended).header.originalSize.toNat = chunk.length :=
    toNat_ofNat_of_le hle
  have hpayload : (chunkBlock windowSize chunk ended).payload.length ≤ chunk.length := by
    dsimp only [chunkBlock]
    split_ifs with h
    · exact le_refl _
    · simp only [decide_eq_true_eq,not_le] at h
      exact h.le
  have hstored : (chunkBlock windowSize chunk ended).header.storedSize.toNat =
      (chunkBlock windowSize chunk ended).payload.length :=
    toNat_ofNat_of_le (hpayload.trans hle)
  have hpos := List.length_pos_iff.mpr hne
  have hraw := chunkBlock_isRaw windowSize chunk ended
  have hrawPayload (h : (chunkBlock windowSize chunk ended).IsRaw) :
      (chunkBlock windowSize chunk ended).payload = chunk := by
    simp [chunkBlock,hraw.mp h]
  refine ⟨?_,?_,fun _ => ?_,fun h => ?_,hstored.symm,?_,rfl⟩
  · rw [UInt32.le_iff_toNat_le,horiginal]
    exact hle
  · rw [UInt32.le_iff_toNat_le,hstored,horiginal]
    exact hpayload
  · rw [UInt32.lt_iff_toNat_lt,horiginal]
    exact hpos
  · rw [← UInt32.toNat_inj,hstored,horiginal,hrawPayload h]
  · unfold Block.data
    split_ifs with h
    · rw [hrawPayload h]
    · have hencoded : (chunkBlock windowSize chunk ended).payload =
          LzLite.encodeBlock chunk windowSize := by
        simp [chunkBlock,mt hraw.mpr h]
      rw [horiginal,hencoded]
      exact LzLite.decodeBlock_encodeBlock chunk windowSize

theorem terminator_wellFormed (header : EscHeader) : terminator.WellFormed header [] where
  original_le := UInt32.zero_le
  stored_le := UInt32.zero_le
  nonempty h := absurd (show terminator.IsFinal by decide) h
  raw_eq _ := rfl
  payload_length := rfl
  data_eq := rfl
  crc_eq := crc32_nil

@[simp] theorem lastEnded_cons (c c' : List UInt8 × Bool) (cs : List (List UInt8 × Bool)) :
    lastEnded (c :: c' :: cs) = lastEnded (c' :: cs) := by
  simp [lastEnded,List.getLast?_cons_cons]

@[simp] theorem lastEnded_singleton (c : List UInt8 × Bool) : lastEnded [c] = c.2 := rfl

@[simp] theorem lastEnded_append_singleton (cs : List (List UInt8 × Bool)) (c : List UInt8 × Bool) :
    lastEnded (cs ++ [c]) = c.2 := by simp [lastEnded]

@[simp] theorem chunkData_append (cs cs' : List (List UInt8 × Bool)) :
    chunkData (cs ++ cs') = chunkData cs ++ chunkData cs' := List.flatMap_append

@[simp] theorem chunkData_cons (c : List UInt8 × Bool) (cs : List (List UInt8 × Bool)) :
    chunkData (c :: cs) = c.1 ++ chunkData cs := rfl

/-- Chunks of which only the last one may end make a sequence of the grammar. -/
theorem blocksOf_blocks {header : EscHeader} (windowSize : ℕ) {chunks : List (List UInt8 × Bool)}
    (hchunks : ∀ c ∈ chunks, c.1 ≠ [] ∧ c.1.length ≤ header.blockSize.toNat)
    (hended : ∀ c ∈ chunks.dropLast, c.2 = false) :
    Blocks header (blocksOf windowSize chunks) (chunkData chunks) := by
  induction chunks with
  | nil => exact .last (terminator_wellFormed header) (by decide)
  | cons c cs ih =>
    obtain ⟨hne,hle⟩ := hchunks c List.mem_cons_self
    have hblock := chunkBlock_wellFormed windowSize c.2 hne hle
    cases cs with
    | nil =>
      obtain ⟨chunk,ended⟩ := c
      cases ended with
      | true => simpa [blocksOf,chunkData] using
          Blocks.last hblock ((chunkBlock_isFinal windowSize chunk true).mpr rfl)
      | false =>
        have hlast : Blocks header [terminator] [] := .last (terminator_wellFormed header) (by decide)
        exact .cons hblock (by rw [chunkBlock_isFinal]; simp) hlast
    | cons c' cs =>
      have hc : c.2 = false := hended c (by simp)
      have htail := ih (fun x hx => hchunks x (List.mem_cons_of_mem _ hx))
        fun x hx => hended x (by simp [hx])
      have hall : blocksOf windowSize (c :: c' :: cs) =
          chunkBlock windowSize c.1 c.2 :: blocksOf windowSize (c' :: cs) := by simp [blocksOf]
      rw [hall]
      exact .cons hblock (by rw [chunkBlock_isFinal]; simp [hc]) htail

end Container
end EspCompressor
