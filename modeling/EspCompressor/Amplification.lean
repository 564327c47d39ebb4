import EspCompressor.LzFraming
import EspCompressor.Salvage

/-! How much a decompression can make of little: at most 255 bytes of one, and nearly as many. -/
namespace EspCompressor

/-! ### A block -/

namespace LzLite

open Codec LzSequence

/-- Every byte of a length adds at most 255 to it. -/
theorem takeLength_le {bs rest : List UInt8} {acc value : ℕ} (h : takeLength bs acc = some (value,rest)) :
    value + 255 * rest.length ≤ acc + 255 * bs.length := by
  induction bs generalizing acc with
  | nil => simp [takeLength] at h
  | cons b bs ih =>
    rw [List.length_cons]
    unfold takeLength at h
    split_ifs at h
    · have htail := ih h
      omega
    · obtain ⟨rfl,rfl⟩ := Prod.mk.inj (Option.some.inj h)
      have hb := b.toNat_lt
      omega

theorem lengthField_le {bits base value : ℕ} {bs rest : List UInt8} (hbits : bits ≤ 15)
    (h : lengthField bits base bs = some (value,rest)) :
    value + 255 * rest.length ≤ 15 + base + 255 * bs.length := by
  unfold lengthField at h
  split_ifs at h
  · exact takeLength_le h
  · obtain ⟨rfl,rfl⟩ := Prod.mk.inj (Option.some.inj h)
    omega

theorem takeOffset_length {bs rest : List UInt8} {offset : ℕ} (h : takeOffset bs = some (offset,rest)) :
    bs.length = rest.length + 2 := by
  unfold takeOffset at h
  split at h
  · obtain ⟨-,rfl⟩ := Prod.mk.inj (Option.some.inj h)
    rfl
  · cases h

theorem lowBits_le (token : UInt8) : (token &&& 0x0F).toNat ≤ 15 := by
  rw [UInt8.toNat_and]
  exact Nat.and_le_right

/-- A sequence pays for its output with its bytes: the token and the offset cover what the four bits add. -/
theorem step_more_length {n : ℕ} {token : UInt8} {rest out rest' out' : List UInt8}
    (h : step n token rest out = .more rest' out') :
    out'.length + 255 * rest'.length ≤ out.length + 255 * rest.length := by
  obtain ⟨literalLength,tail,offset,tail',matchLength,hliterals,hfit,-,hoffset,hpos,hle,hmatch,-,rfl⟩ :=
    step_more_iff.mp h
  have htail := (lengthField_suffix hliterals).length_le
  have hpair := takeOffset_length hoffset
  have hlength := lengthField_le (lowBits_le token) hmatch
  have hout : (out ++ tail.take literalLength).length = out.length + literalLength := by
    rw [List.length_append,List.length_take,min_eq_left hfit]
  rw [List.length_drop] at hpair
  rw [copyBack_length hpos (hout ▸ hle),hout]
  unfold kMinMatch at hlength
  omega

theorem parse_length_le {n : ℕ} {rest out o : List UInt8} (h : parse n rest out = some o) :
    o.length ≤ out.length + 255 * rest.length := by
  induction rest,out using parse.induct n with
  | case1 out hn =>
    rw [parse,if_pos hn] at h
    obtain rfl := Option.some.inj h
    exact Nat.le_add_right _ _
  | case2 out hn => rw [parse,if_neg hn] at h; cases h
  | case3 out token tail hstep => rw [parse_cons,hstep] at h; cases h
  | case4 out token tail out' hstep =>
    rw [parse_cons,hstep] at h
    obtain rfl := Option.some.inj h
    obtain ⟨literals,hfield,-,rfl⟩ := step_finished_iff.mp hstep
    have hlen := (lengthField_suffix hfield).length_le
    rw [List.length_append,List.length_cons]
    omega
  | case5 out token tail rest' out' hstep ih =>
    rw [parse_cons,hstep] at h
    have hparse := ih h
    have hlen := step_more_length hstep
    rw [List.length_cons]
    omega

/-- A byte of a payload makes at most 255 bytes of data. -/
theorem decodeBlock_length_le {payload o : List UInt8} {n : ℕ} (h : decodeBlock payload n = some o) :
    o.length ≤ 255 * payload.length := by
  have hparse := parse_length_le h
  rw [List.length_nil] at hparse
  omega

/-- One letter, repeated. -/
def repeated (k : ℕ) : LzSequence UInt8 := ⟨[0],1,18 + 255 * k⟩

theorem matchBytes_repeated (k : ℕ) : (matchBytes (repeated k)).length = k + 5 := by
  have hliterals : extendedBytes [(0 : UInt8)].length = [] := rfl
  have hmatch : (extendedBytes (18 + 255 * k - kMinMatch)).length = k + 1 := by
    rw [show 18 + 255 * k - kMinMatch = 15 + 255 * k by unfold kMinMatch; omega,extendedBytes,if_pos (by omega),
      Nat.add_sub_cancel_left,lengthBytes_length,Nat.mul_div_cancel_left _ (by decide)]
  rw [matchBytes,repeated,hliterals]
  simp only [List.length_cons,List.length_append,List.length_nil,hmatch,offsetBytes]
  omega

theorem decodeBlock_repeated (k : ℕ) :
    ∃ o, decodeBlock (matchBytes (repeated k)) (19 + 255 * k) = some o ∧ o.length = 19 + 255 * k := by
  have hvalid : (repeated k).Valid kMinMatch 0xFFFF [] :=
    ⟨le_refl _,by simp [repeated],by simp [repeated],by simp only [repeated,kMinMatch]; omega⟩
  have hlen : (expand [] (repeated k)).length = 19 + 255 * k := by
    rw [hvalid.expand_length]
    simp only [repeated,List.length_nil,List.length_singleton]
    omega
  have hparse := @parse_matchBytes (19 + 255 * k) _ [] [] hvalid (by
    simp only [repeated,List.length_nil,List.length_singleton]
    omega)
  rw [List.append_nil,parse,if_pos hlen] at hparse
  exact ⟨_,hparse,hlen⟩

end LzLite

/-! ### A container -/

namespace Container

variable {header : EscHeader}

theorem Block.WellFormed.data_length_le {b : Block} {data : List UInt8} (h : b.WellFormed header data) :
    data.length ≤ 255 * b.payload.length := by
  have hdata := h.data_eq
  unfold Block.data at hdata
  split_ifs at hdata
  · obtain rfl := Option.some.inj hdata
    omega
  · exact LzLite.decodeBlock_length_le hdata

/-- The 13 bytes of a block header give nothing. -/
theorem salvageBlocks_length_le (rest : List UInt8) : (salvageBlocks header rest).length ≤ 255 * (rest.length - 13) := by
  induction rest using salvageBlocks.induct header with
  | case1 rest hnone =>
    rw [salvageBlocks_of_refused hnone]
    exact Nat.zero_le _
  | case2 rest b data rest' htake hfinal =>
    obtain ⟨hb,rfl⟩ := takeBlock_eq_some_iff.mp htake
    have hdata := hb.data_length_le
    rw [salvageBlocks_bytes hb,if_pos hfinal,List.length_append,Block.bytes_length]
    omega
  | case3 rest b data rest' htake hfinal ih =>
    obtain ⟨hb,rfl⟩ := takeBlock_eq_some_iff.mp htake
    have hdata := hb.data_length_le
    rw [salvageBlocks_bytes hb,if_neg hfinal,List.length_append,List.length_append,Block.bytes_length]
    omega

theorem salvage_length_le (d : List UInt8) : (salvage d).length ≤ 255 * (d.length - 37) := by
  unfold salvage
  split_ifs with hshort
  · exact Nat.zero_le _
  · split
    · exact Nat.zero_le _
    · have hblocks := @salvageBlocks_length_le ‹_› (d.drop kEscEncodedHeaderSize)
      rw [List.length_drop] at hblocks
      unfold kEscEncodedHeaderSize at hblocks ⊢
      omega

/-- One block of one repeated letter. -/
def repeatedBlock (k : ℕ) (data : List UInt8) : Block where
  header :=
    { flags := kEscBlockFlagFinal
      originalSize := UInt32.ofNat (19 + 255 * k)
      storedSize := UInt32.ofNat (k + 5)
      crc32 := EscFormat.espCompressorCrc32 data }
  payload := LzLite.matchBytes (LzLite.repeated k)

theorem repeatedBlock_flags (k : ℕ) (data : List UInt8) :
    ¬(repeatedBlock k data).IsRaw ∧ (repeatedBlock k data).IsFinal :=
  ⟨show ¬kEscBlockFlagFinal &&& kEscBlockFlagRaw ≠ 0 by decide,
    show kEscBlockFlagFinal &&& kEscBlockFlagFinal ≠ 0 by decide⟩

/-- The header of a container of such a block. -/
def repeatedHeader (k : ℕ) : EscHeader :=
  { flags := kEscHeaderFlagUnknownOriginalSize, blockSize := UInt32.ofNat (19 + 255 * k) }

theorem repeatedBlock_wellFormed {k : ℕ} (hk : 19 + 255 * k ≤ uint32Max) :
    ∃ o, (repeatedBlock k o).WellFormed (repeatedHeader k) o ∧ o.length = 19 + 255 * k := by
  obtain ⟨o,ho,hlen⟩ := LzLite.decodeBlock_repeated k
  have hmax : uint32Max < UInt32.size := by decide
  have horiginal : (UInt32.ofNat (19 + 255 * k)).toNat = 19 + 255 * k := UInt32.toNat_ofNat_of_lt' (by omega)
  have hstored : (UInt32.ofNat (k + 5)).toNat = k + 5 := UInt32.toNat_ofNat_of_lt' (by omega)
  obtain ⟨hraw,hfinal⟩ := repeatedBlock_flags k o
  refine ⟨o,⟨UInt32.le_refl (UInt32.ofNat (19 + 255 * k)),?_,fun hopen => absurd hfinal hopen,fun hyes => absurd hyes hraw,
    (LzLite.matchBytes_repeated k).trans hstored.symm,?_,rfl⟩,hlen⟩
  · change UInt32.ofNat (k + 5) ≤ UInt32.ofNat (19 + 255 * k)
    rw [UInt32.le_iff_toNat_le,hstored,horiginal]
    omega
  · rw [Block.data,if_neg hraw]
    change LzLite.decodeBlock _ (UInt32.ofNat (19 + 255 * k)).toNat = _
    rw [horiginal]
    exact ho

/-- A container of `k + 42` bytes can hold that many. -/
theorem exists_repeated {k : ℕ} (hk : 19 + 255 * k ≤ uint32Max) :
    ∃ c o, c.length = k + 42 ∧ o.length = 19 + 255 * k ∧ decode c = .ok (o,[]) := by
  obtain ⟨o,hblock,hlen⟩ := repeatedBlock_wellFormed hk
  have hpayload : (repeatedBlock k o).payload.length = k + 5 := LzLite.matchBytes_repeated k
  have hsize : (repeatedHeader k).blockSize ≠ 0 := by
    intro hzero
    have hle := hblock.original_le
    have hdata := hblock.data_length
    rw [hzero,UInt32.le_iff_toNat_le] at hle
    rw [hlen] at hdata
    rw [← hdata] at hle
    simp at hle
  have hunknown : UnknownSize (repeatedHeader k) :=
    show kEscHeaderFlagUnknownOriginalSize &&& kEscHeaderFlagUnknownOriginalSize ≠ 0 by decide
  refine ⟨encode (repeatedHeader k) [repeatedBlock k o],o,?_,hlen,?_⟩
  · rw [encode,List.flatMap_singleton,List.length_append,Block.bytes_length,hpayload,EscFormat.headerBytes_length]
    omega
  · exact decode_ok_iff.mpr ⟨_,_,(List.append_nil _).symm,⟨rfl,rfl,hsize⟩,
      .last hblock (repeatedBlock_flags k o).2,fun hknown => absurd hunknown hknown⟩

end Container

end EspCompressor
