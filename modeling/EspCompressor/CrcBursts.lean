import EspCompressor.BitFlips

/-! The CRC-32 detects every change that is confined to four consecutive bytes: in a message of any
length, in a file header with the CRC that it stores, and in the payload of a raw block. -/
namespace EspCompressor

/-- At most four consecutive bytes of the first byte string were changed. -/
inductive Burst : List UInt8 → List UInt8 → Prop
  | change (pre post : List UInt8) {bs bs' : List UInt8} : bs'.length = bs.length → bs.length ≤ 4 →
      bs' ≠ bs → Burst (pre ++ bs ++ post) (pre ++ bs' ++ post)

theorem Burst.length_eq {x y : List UInt8} (h : Burst x y) : y.length = x.length := by
  cases h with
  | change pre post hlen _ _ => simp [hlen]

namespace EscFormat

/-! ### The register -/

theorem crcBit_xor (a b : UInt32) : crcBit (a ^^^ b) = crcBit a ^^^ crcBit b := by
  have hshift : (a ^^^ b) >>> 1 = a >>> 1 ^^^ b >>> 1 := by
    apply UInt32.toBitVec_inj.mp
    simp [BitVec.ushiftRight_xor_distrib]
  have hcancel (x y p : UInt32) : x ^^^ p ^^^ (y ^^^ p) = x ^^^ y := by
    rw [UInt32.xor_comm y p,← UInt32.xor_assoc,UInt32.xor_assoc x,UInt32.xor_self,UInt32.xor_zero]
  simp only [crcBit,low_bit_iff,UInt32.toBitVec_xor,BitVec.getLsbD_xor,hshift]
  cases a.toBitVec.getLsbD 0 <;> cases b.toBitVec.getLsbD 0
  · rfl
  · exact UInt32.xor_assoc _ _ _
  · simp only [Bool.xor_false,if_true,Bool.false_eq_true,if_false]
    rw [UInt32.xor_assoc,UInt32.xor_assoc,UInt32.xor_comm (b >>> 1)]
  · simp [hcancel]

theorem crcBits_xor (n : ℕ) (a b : UInt32) :
    crcBit^[n] (a ^^^ b) = crcBit^[n] a ^^^ crcBit^[n] b := by
  induction n generalizing a b with
  | zero => rfl
  | succ n ih => simp only [Function.iterate_succ_apply,crcBit_xor,ih]

theorem crcBit_even {m : ℕ} (h : 2 * m < 2 ^ 32) : crcBit (UInt32.ofNat (2 * m)) = UInt32.ofNat m := by
  have hm : m < UInt32.size := by simp only [UInt32.size]; omega
  have hlow : ¬UInt32.ofNat (2 * m) &&& 1 ≠ 0 := by
    rw [low_bit_iff,← BitVec.testBit_toNat,UInt32.toNat_toBitVec,UInt32.toNat_ofNat_of_lt' h]
    simp
  rw [crcBit,if_neg hlow]
  apply UInt32.toNat_inj.mp
  rw [UInt32.toNat_shiftRight,UInt32.toNat_ofNat_of_lt' h,UInt32.toNat_ofNat_of_lt' hm]
  simp [Nat.shiftRight_eq_div_pow]

/-- A register whose lowest bits are clear only moves down. -/
theorem crcBits_even (n : ℕ) {m : ℕ} (h : 2 ^ n * m < 2 ^ 32) :
    crcBit^[n] (UInt32.ofNat (2 ^ n * m)) = UInt32.ofNat m := by
  induction n with
  | zero => simp
  | succ n ih =>
    have hdouble : 2 ^ (n + 1) * m = 2 * (2 ^ n * m) := by ring
    rw [hdouble] at h ⊢
    rw [Function.iterate_succ_apply,crcBit_even h,ih (by omega)]

theorem crcByte_eq (crc : UInt32) (byte : UInt8) :
    crcByte crc byte = crcBit^[8] (crc ^^^ byte.toUInt32) := by
  rw [crcByte,List.foldl_const,List.length_range]

/-- The lowest byte of a word is added without a carry. -/
theorem ofNat_cons (b : UInt8) {m : ℕ} (h : 256 * m < 2 ^ 32) :
    UInt32.ofNat (b.toNat + 256 * m) = b.toUInt32 ^^^ UInt32.ofNat (256 * m) := by
  have hb := b.toNat_lt
  have hsum : b.toNat + 256 * m < UInt32.size := by simp only [UInt32.size]; omega
  apply UInt32.toNat_inj.mp
  rw [UInt32.toNat_xor,UInt8.toNat_toUInt32,UInt32.toNat_ofNat_of_lt' hsum,
    UInt32.toNat_ofNat_of_lt' h]
  apply Nat.eq_of_testBit_eq
  intro i
  rw [Nat.testBit_xor,Nat.add_comm,show 256 = 2 ^ 8 from rfl,Nat.testBit_two_pow_mul_add _ hb,
    Nat.testBit_two_pow_mul]
  by_cases hi : i < 8
  · simp [hi,not_le.mpr hi]
  · have hclear : b.toNat.testBit i = false :=
      Nat.testBit_lt_two_pow (lt_of_lt_of_le hb (Nat.pow_le_pow_right (by decide) (not_lt.mp hi)))
    simp [hi,hclear,not_lt.mp hi]

/-- Up to four bytes enter the register as one little-endian word. -/
theorem crc_word {bs : List UInt8} (h : bs.length ≤ 4) (crc : UInt32) :
    bs.foldl crcByte crc = crcBit^[8 * bs.length] (crc ^^^ UInt32.ofNat (LittleEndian.value bs)) := by
  induction bs generalizing crc with
  | nil => simp [LittleEndian.value]
  | cons b bs ih =>
    rw [List.length_cons] at h
    have hvalue : 256 * LittleEndian.value bs < 2 ^ 32 := by
      have hlt := LittleEndian.value_lt bs
      have hpow : 256 ^ bs.length ≤ 256 ^ 3 := Nat.pow_le_pow_right (by decide) (by omega)
      omega
    have hmoved : crcBit^[8] (UInt32.ofNat (256 * LittleEndian.value bs)) =
        UInt32.ofNat (LittleEndian.value bs) := crcBits_even 8 hvalue
    calc (b :: bs).foldl crcByte crc
        = crcBit^[8 * bs.length] (crcByte crc b ^^^ UInt32.ofNat (LittleEndian.value bs)) := by
          rw [List.foldl_cons,ih (by omega)]
      _ = crcBit^[8 * bs.length] (crcBit^[8] (crc ^^^ b.toUInt32 ^^^
            UInt32.ofNat (256 * LittleEndian.value bs))) := by
          rw [crcByte_eq,crcBits_xor 8 (crc ^^^ b.toUInt32),hmoved]
      _ = _ := by
          rw [← Function.iterate_add_apply,UInt32.xor_assoc,← ofNat_cons b hvalue,
            List.length_cons,Nat.mul_succ,LittleEndian.value]

/-- The register tells apart any two strings of the same length, up to four bytes. -/
theorem crc_word_injective {bs bs' : List UInt8} (hlen : bs'.length = bs.length) (hle : bs.length ≤ 4)
    (crc : UInt32) (h : bs'.foldl crcByte crc = bs.foldl crcByte crc) : bs' = bs := by
  have hlt (cs : List UInt8) (hcs : cs.length ≤ 4) : LittleEndian.value cs < UInt32.size :=
    lt_of_lt_of_le (LittleEndian.value_lt cs) (Nat.pow_le_pow_right (by decide) hcs)
  rw [crc_word (hlen.trans_le hle),crc_word hle,hlen] at h
  have hword := (UInt32.xor_right_inj crc).mp (crcBit_injective.iterate _ h)
  have hvalue := congrArg UInt32.toNat hword
  rw [UInt32.toNat_ofNat_of_lt' (hlt bs' (hlen.trans_le hle)),
    UInt32.toNat_ofNat_of_lt' (hlt bs hle)] at hvalue
  rw [← LittleEndian.bytes_value bs',hvalue,hlen,LittleEndian.bytes_value]

theorem crcRegister_burst {x y : List UInt8} (h : Burst x y) (crc : UInt32) :
    y.foldl crcByte crc ≠ x.foldl crcByte crc := by
  cases h with
  | change pre post hlen hle hne =>
    intro he
    simp only [List.foldl_append] at he
    exact hne (crc_word_injective hlen hle _
      (FoldChecksum.foldl_injective crcByte_register_injective post he))

theorem crc32_detects_burst {x y : List UInt8} (h : Burst x y) :
    espCompressorCrc32 y ≠ espCompressorCrc32 x := by
  intro he
  exact crcRegister_burst h _ ((UInt32.not_inj).mp he)

/-! ### File headers -/

/-- After a message and its CRC the register has always the same value. -/
theorem crcRegister_residue (bs : List UInt8) :
    (bs ++ writeLe32 (espCompressorCrc32 bs)).foldl crcByte 0xFFFFFFFF = crcBit^[32] 0xFFFFFFFF := by
  have hvalue : LittleEndian.value (writeLe32 (espCompressorCrc32 bs)) =
      (espCompressorCrc32 bs).toNat := by
    rw [writeLe32_eq_bytes]
    exact LittleEndian.value_bytes 4 _ (UInt32.toNat_lt _)
  have hflip (c : UInt32) : c ^^^ ~~~c = 0xFFFFFFFF := by
    apply UInt32.toBitVec_inj.mp
    change c.toBitVec ^^^ ~~~c.toBitVec = BitVec.allOnes 32
    apply BitVec.eq_of_getLsbD_eq
    intro i hi
    simp only [BitVec.getLsbD_xor,BitVec.getLsbD_not,BitVec.getLsbD_allOnes,hi,decide_true,
      Bool.true_and,Bool.xor_not_self]
  rw [List.foldl_append,crc_word (by simp),hvalue,UInt32.ofNat_toNat,espCompressorCrc32,hflip]
  simp

theorem decodeEscHeader_cases (data : List UInt8) (h₀ : EscHeader) :
    (decodeEscHeader data h₀).1 = .ok ∨ decodeEscHeader data h₀ = (.corruptData,h₀) := by
  unfold decodeEscHeader
  split_ifs <;> simp

/-- The bytes of an encoded header. -/
theorem encodeEscHeader_contents {header : EscHeader} {s s' : BufferState}
    (h : Proc.exec (encodeEscHeader header) s = (some .ok,s')) :
    s'.buffer.contents = headerBytes header := by
  let Q (error : CompressionError) (s' : BufferState) : Prop :=
    error = .ok → s'.buffer.contents = headerBytes header
  have hspec : Proc.wp (encodeEscHeader header) Q Q (fun _ => False) s :=
    Proc.wp_mono (encodeEscHeader_spec header s) (fun _ _ h _ => h.2.2)
      (fun _ _ h hok => absurd (h.2.1.symm.trans hok) (by simp)) fun _ h => h
  exact Proc.exec_of_wp hspec h rfl

/-- A header is corrupt when four of its bytes have changed, its CRC included. -/
theorem decodeEscHeader_burst {header : EscHeader} {y : List UInt8} (h : Burst (headerBytes header) y)
    (h₀ : EscHeader) : decodeEscHeader y h₀ = (.corruptData,h₀) := by
  refine (decodeEscHeader_cases y h₀).resolve_left fun hok => ?_
  have hlen : y.length = 24 := h.length_eq.trans (headerBytes_length header)
  have hbytes : headerBytes (decodeEscHeader y h₀).2 = y := decodeEscHeader_ok hlen (Prod.ext hok rfl)
  have hresidue (header : EscHeader) :
      (headerBytes header).foldl crcByte 0xFFFFFFFF = crcBit^[32] 0xFFFFFFFF := crcRegister_residue _
  refine crcRegister_burst h 0xFFFFFFFF ?_
  rw [← hbytes,hresidue,hresidue]

end EscFormat

namespace Container

open EscFormat

/-! ### Raw blocks -/

/-- Four consecutive bytes of the payload have changed, or the stored CRC. -/
inductive Damaged (b : Block) : Block → Prop
  | payload {bs : List UInt8} : Burst b.payload bs → Damaged b ⟨b.header,bs⟩
  | crc {v : UInt32} : v ≠ b.header.crc32 → Damaged b ⟨{ b.header with crc32 := v },b.payload⟩

/-- A damaged raw block is refused. -/
theorem takeBlock_damaged {header : EscHeader} {b b' : Block} {data : List UInt8}
    (hb : b.WellFormed header data) (hraw : b.IsRaw) (h : Damaged b b') (after : List UInt8) :
    takeBlock header (b'.bytes ++ after) = none := by
  cases htake : takeBlock header (b'.bytes ++ after) with
  | none => rfl
  | some t =>
    obtain ⟨b₁,data₁,rest₁⟩ := t
    obtain ⟨hb₁,hbytes⟩ := takeBlock_eq_some_iff.mp htake
    rw [Block.bytes,List.append_assoc] at hbytes
    obtain ⟨hheader,hbody⟩ := bytes_append_inj hbytes
    cases h with
    | @payload bs hburst =>
      obtain ⟨hpayload,-⟩ := payload_of_storedSize hb hb₁ hburst.length_eq (by rw [hheader]) hbody
      have hraw₁ : b₁.IsRaw := by rwa [Block.IsRaw,hheader]
      have hdata := hb.data_eq
      have hdata₁ := hb₁.data_eq
      rw [Block.data,if_pos hraw] at hdata
      rw [Block.data,if_pos hraw₁,hpayload] at hdata₁
      have hcrc : espCompressorCrc32 data₁ = espCompressorCrc32 data := by
        rw [hb₁.crc_eq,hb.crc_eq,hheader]
      rw [← Option.some.inj hdata,← Option.some.inj hdata₁] at hcrc
      exact absurd hcrc (crc32_detects_burst hburst)
    | crc hv => exact (not_wellFormed_of_crc32 hb hb₁ hv hheader hbody).elim

/-- Blocks of which a raw one is damaged are refused. -/
theorem decodeBlocks_damaged {header : EscHeader} {before after : List Block} {b b' : Block}
    {out : List UInt8} (h : Blocks header (before ++ b :: after) out) (hraw : b.IsRaw)
    (hdamaged : Damaged b b') (rest : List UInt8) :
    decodeBlocks header ((before ++ b' :: after).flatMap Block.bytes ++ rest) = none := by
  induction before generalizing out with
  | nil =>
    have hb : ∃ data, b.WellFormed header data := by
      cases h with
      | last hb _ => exact ⟨_,hb⟩
      | cons hb _ _ => exact ⟨_,hb⟩
    obtain ⟨data,hb⟩ := hb
    rw [List.nil_append,List.flatMap_cons,List.append_assoc]
    exact decodeBlocks_of_refused (takeBlock_damaged hb hraw hdamaged _)
  | cons a before ih =>
    rw [List.cons_append] at h ⊢
    rw [List.flatMap_cons,List.append_assoc]
    generalize hmore : before ++ b :: after = more at h ih
    cases h with
    | last => simp at hmore
    | cons ha hfinal htail =>
      rw [decodeBlocks_of_taken (takeBlock_eq_some_iff.mpr ⟨ha,rfl⟩),if_neg hfinal,ih htail]
      rfl

/-- The container in front of a byte string that is accepted, and what follows it. -/
structure ReadAs (d : List UInt8) (header : EscHeader) (blocks : List Block) (rest : List UInt8) :
    Prop where
  bytes_eq : d = encode header blocks ++ rest
  header_ok : HeaderOk header
  decoded : ∃ out, Blocks header blocks out ∧
    (¬UnknownSize header → UInt64.ofNat out.length = header.originalSize)

theorem readAs_of_decode {d out rest : List UInt8} (h : decode d = .ok (out,rest)) :
    ∃ header blocks, ReadAs d header blocks rest := by
  obtain ⟨header,blocks,hbytes,hok,hblocks,hsize⟩ := decode_ok_iff.mp h
  exact ⟨header,blocks,hbytes,hok,out,hblocks,hsize⟩

theorem decode_damaged {d rest : List UInt8} {header : EscHeader} {before after : List Block}
    {b b' : Block} (h : ReadAs d header (before ++ b :: after) rest) (hraw : b.IsRaw)
    (hdamaged : Damaged b b') :
    decode (encode header (before ++ b' :: after) ++ rest) = .error .corruptData := by
  obtain ⟨out,hblocks,-⟩ := h.decoded
  have hlen : (headerBytes header).length = kEscEncodedHeaderSize := by simp; rfl
  have hshort : ¬(encode header (before ++ b' :: after) ++ rest).length < kEscEncodedHeaderSize := by
    have := encode_length_ge header (before ++ b' :: after)
    simp only [List.length_append,kEscEncodedHeaderSize]
    omega
  have htake : (encode header (before ++ b' :: after) ++ rest).take kEscEncodedHeaderSize =
      headerBytes header := by
    rw [encode,List.append_assoc,← hlen,List.take_left]
  have hdrop : (encode header (before ++ b' :: after) ++ rest).drop kEscEncodedHeaderSize =
      (before ++ b' :: after).flatMap Block.bytes ++ rest := by
    rw [encode,List.append_assoc,← hlen,List.drop_left]
  obtain ⟨crc,hheader⟩ := decodeHeader_headerBytes h.header_ok
  have hsame : Blocks { header with headerCrc := crc } (before ++ b :: after) out :=
    hblocks.of_blockSize rfl
  rw [decode_of_header hshort (htake ▸ hheader),hdrop]
  exact decodeBody_of_none (decodeBlocks_damaged hsame hraw hdamaged rest)

end Container

namespace Compressor

open Container EscFormat

/-- A byte string that is not a container is refused: by every run, whatever hinders it, and as
corrupt by a run that nothing hinders. -/
theorem DecompressRun.refuses {d : List UInt8} (job : DecompressRun d) (hfuel : d.length < job.fuel)
    (h : decode d = .error .corruptData) : ∃ r s, job.run = (some r,s) ∧ r.error ≠ .ok ∧
      (Unhindered job.ctx job.k₀ job.heap uint32Max → r.error = .corruptData) ∧
      published s.trace = none ∧
      ∀ (δ : Type) (destination : job.κ → δ), Transactional job.ctx.sink job.k₀ destination →
        destination s.sink = destination job.k₀ := by
  obtain ⟨r,s,hrun,⟨herror,hpublished⟩ | ⟨-,-,hdone⟩⟩ := job.returns hfuel
  · have hends := Proc.exec_of_wp (runDecompress_ends job.ctx job.fuel job.source job.heap) hrun
    refine ⟨r,s,hrun,herror,fun hunhindered => ?_,hpublished,fun δ destination htransactional =>
      htransactional hends herror⟩
    obtain ⟨r',s',hrun',houtcome,-⟩ := DecompressJob.returns ⟨job,hunhindered,hfuel⟩
    rw [outcome_of_error h,Prod.mk.injEq] at houtcome
    obtain rfl : r = r' := Option.some.inj (congrArg Prod.fst (hrun.symm.trans hrun'))
    exact houtcome.1
  · obtain ⟨rest,hdecode,-⟩ := hdone.decoded
    rw [h] at hdecode
    simp at hdecode

/-- Four consecutive bytes, anywhere in a message, in an encoded file header, or in a raw block of an
accepted container, cannot be changed unnoticed. -/
theorem bursts_detected :
    (∀ x y, Burst x y → espCompressorCrc32 y ≠ espCompressorCrc32 x) ∧
    (∀ header buffer buffer', Proc.exec (encodeEscHeader header) buffer = (some .ok,buffer') →
      ∀ y, Burst buffer'.buffer.contents y → ∀ h₀, decodeEscHeader y h₀ = (.corruptData,h₀)) ∧
    ∀ d (job : DecompressRun d) r s, job.run = (some r,s) → r.error = .ok →
      (∃ header blocks rest, ReadAs d header blocks rest) ∧
      ∀ header before b after rest, ReadAs d header (before ++ b :: after) rest → b.IsRaw →
        ∀ b', Damaged b b' →
          ∀ job' : DecompressRun (encode header (before ++ b' :: after) ++ rest),
            (encode header (before ++ b' :: after) ++ rest).length < job'.fuel →
            ∃ r' s', job'.run = (some r',s') ∧ r'.error ≠ .ok ∧
              (Unhindered job'.ctx job'.k₀ job'.heap uint32Max → r'.error = .corruptData) ∧
              published s'.trace = none ∧
              ∀ (δ : Type) (destination : job'.κ → δ),
                Transactional job'.ctx.sink job'.k₀ destination →
                  destination s'.sink = destination job'.k₀ := by
  refine ⟨fun _ _ h => crc32_detects_burst h,fun header buffer buffer' hencode y hy h₀ => ?_,?_⟩
  · rw [encodeEscHeader_contents hencode] at hy
    exact decodeEscHeader_burst hy h₀
  intro d job r s hrun hok
  obtain ⟨rest,hdecode,-⟩ := (job.result hrun hok).decoded
  refine ⟨?_,fun header before b after rest hread hraw b' hdamaged job' hfuel => ?_⟩
  · obtain ⟨header,blocks,hread⟩ := readAs_of_decode hdecode
    exact ⟨header,blocks,rest,hread⟩
  · exact job'.refuses hfuel (decode_damaged hread hraw hdamaged)

/-- The header of a container of blocks of one byte. -/
def byteHeader : EscHeader := { blockSize := 1, flags := kEscHeaderFlagUnknownOriginalSize }

/-- The block of the single byte 7. -/
def byteBlock : Block := chunkBlock 1 [7] true

theorem byteBlock_readAs : ReadAs (encode byteHeader [byteBlock]) byteHeader ([] ++ byteBlock :: []) [] where
  bytes_eq := (List.append_nil _).symm
  header_ok := ⟨rfl,rfl,by decide⟩
  decoded := ⟨[7],.last (chunkBlock_wellFormed 1 true (by simp) (by decide))
    ((chunkBlock_isFinal 1 [7] true).mpr rfl),fun hknown => absurd (show UnknownSize _ by decide) hknown⟩

/-- The byte 7 of the raw block becomes an 8. -/
theorem bursts_detected_byte : ∃ r s,
    (DecompressJob.ofBuffer (encode byteHeader [⟨byteBlock.header,[8]⟩] ++ [])).run = (some r,s) ∧
      r.error = .corruptData ∧ s.sink.out = [] := by
  obtain ⟨out,hblocks,hsize⟩ := byteBlock_readAs.decoded
  have hdecode : decode (encode byteHeader [byteBlock]) = .ok (out,[]) :=
    decode_ok_iff.mpr ⟨_,_,byteBlock_readAs.bytes_eq,byteBlock_readAs.header_ok,hblocks,hsize⟩
  obtain ⟨r,s,hrun,hok,-⟩ := (DecompressJob.ofBuffer (encode byteHeader [byteBlock])).returns_ok hdecode
  have hburst : Burst ([] ++ [7] ++ []) ([] ++ [8] ++ []) := .change [] [] rfl (by decide) (by decide)
  obtain ⟨r',s',hrun',-,hcorrupt,-,hkept⟩ := (bursts_detected.2.2 _ _ r s hrun hok).2 _ _ _ _ _
    byteBlock_readAs ((chunkBlock_isRaw 1 [7] true).mpr (by decide)) _ (.payload hburst)
    (DecompressJob.ofBuffer _).toDecompressRun (Nat.lt_succ_self _)
  exact ⟨r',s',hrun',hcorrupt (DecompressJob.ofBuffer _).unhindered,
    hkept _ DynamicBufferSink.out (DynamicBufferSink.transactional _)⟩

end Compressor
end EspCompressor
