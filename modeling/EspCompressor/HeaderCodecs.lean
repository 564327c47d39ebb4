import EspCompressor.EscFormat

/-! The header codecs are inverse to each other: each header has one encoding, and each block header
is one string of thirteen bytes. -/
namespace EspCompressor
namespace EscFormat

/-! ### File headers -/

theorem getD_take {data : List UInt8} {n i : ℕ} (h : i < n) : (data.take n).getD i 0 = data.getD i 0 := by
  rw [List.getD_eq_getElem?_getD,List.getD_eq_getElem?_getD,List.getElem?_take_of_lt h]

theorem readLe32_take {data : List UInt8} {n offset : ℕ} (h : offset + 4 ≤ n) :
    readLe32 (data.take n) offset = readLe32 data offset := by
  apply UInt32.toNat_inj.mp
  rw [readLe32_toNat,readLe32_toNat,getD_take (by omega),getD_take (by omega),getD_take (by omega),
    getD_take (by omega)]

theorem readLe64_take {data : List UInt8} {n offset : ℕ} (h : offset + 8 ≤ n) :
    readLe64 (data.take n) offset = readLe64 data offset := by
  apply UInt64.toNat_inj.mp
  rw [readLe64_toNat,readLe64_toNat]
  congr 1
  apply List.map_congr_left
  intro i hi
  have hi : i < 8 := List.mem_range.mp hi
  exact getD_take (by omega)

/-- The decoder reads the first 24 bytes only. -/
theorem decodeEscHeader_take {data : List UInt8} (hlen : kEscEncodedHeaderSize ≤ data.length)
    (h₀ : EscHeader) :
    decodeEscHeader (data.take kEscEncodedHeaderSize) h₀ = decodeEscHeader data h₀ := by
  have hsize : kEscEncodedHeaderSize = 24 := rfl
  have htake : (data.take kEscEncodedHeaderSize).take 20 = data.take 20 := by
    rw [List.take_take]
    rfl
  have hlong : ¬(data.take kEscEncodedHeaderSize).length < kEscEncodedHeaderSize := by
    rw [List.length_take]
    omega
  unfold decodeEscHeader
  rw [if_neg hlong,if_neg (not_lt.mpr hlen),htake,readLe32_take (by omega),readLe32_take (by omega),
    readLe64_take (by omega),getD_take (by omega),getD_take (by omega),getD_take (by omega),
    getD_take (by omega),getD_take (by omega),getD_take (by omega),getD_take (by omega),
    getD_take (by omega)]

/-- What is accepted is long enough. -/
theorem decodeEscHeader_length {data : List UInt8} {h₀ header : EscHeader}
    (h : decodeEscHeader data h₀ = (.ok,header)) : kEscEncodedHeaderSize ≤ data.length := by
  by_contra hshort
  rw [decodeEscHeader,if_pos (not_le.mp hshort)] at h
  exact absurd (Prod.mk.inj h).1 (by simp)

/-- Only the encoding of a header, whatever follows it, decodes to it. -/
theorem headerBytes_of_decode {data : List UInt8} {h₀ header : EscHeader}
    (h : decodeEscHeader data h₀ = (.ok,header)) : headerBytes header = data.take kEscEncodedHeaderSize := by
  have hlen := decodeEscHeader_length h
  rw [← decodeEscHeader_take hlen] at h
  apply decodeEscHeader_ok _ h
  rw [List.length_take]
  exact Nat.min_eq_left hlen

/-- The encoder leaves the header in the buffer, or could not get one. -/
theorem encodeEscHeader_exec (header : EscHeader) (s : BufferState) :
    ∃ e s', Proc.exec (encodeEscHeader header) s = (some e,s') ∧
      (e = .ok ∧ s'.buffer.contents = headerBytes header ∨
        e = .noMemory ∧ s.heap.answer s.heap.calls = none) := by
  apply Proc.exec_returns
  apply Proc.wp_mono (encodeEscHeader_spec header s)
  · exact fun e s' hdone => .inl hdone.2
  · exact fun e s' hrefused => .inr hrefused.2
  · exact fun _ h => h

theorem encodeEscHeader_bytes {header : EscHeader} {s s' : BufferState}
    (h : Proc.exec (encodeEscHeader header) s = (some .ok,s')) :
    s'.buffer.contents = headerBytes header := by
  obtain ⟨e,t,hexec,hend⟩ := encodeEscHeader_exec header s
  rw [h] at hexec
  obtain ⟨he,rfl⟩ := Prod.mk.inj hexec
  obtain rfl := Option.some.inj he
  cases hend with
  | inl hdone => exact hdone.2
  | inr hrefused => exact absurd hrefused.1 (by simp)

theorem decodeEscHeader_error {data : List UInt8} {h₀ header : EscHeader} {e : CompressionError}
    (h : decodeEscHeader data h₀ = (e,header)) (he : e ≠ .ok) : header = h₀ := by
  unfold decodeEscHeader at h
  split_ifs at h <;> simp only [Prod.mk.injEq] at h
  all_goals first
    | exact h.2.symm
    | exact absurd h.1.symm he

/-! ### Block headers -/

/-- The codec of block headers as a bijection. -/
def blockHeaderEquiv : EscBlockHeader ≃ {data : List UInt8 // data.length = kEscEncodedBlockHeaderSize} where
  toFun header := ⟨blockHeaderBytes header,blockHeaderBytes_length header⟩
  invFun data := (decodeEscBlockHeader data.1 {}).2
  left_inv header := by
    dsimp only
    rw [decodeEscBlockHeader_encode]
  right_inv data := by
    obtain ⟨header,hdecode,hbytes⟩ := decodeEscBlockHeader_spec data.2 {}
    apply Subtype.ext
    dsimp only
    rw [hdecode,hbytes]

/-- The encoder writes the header's string over the first thirteen bytes. -/
theorem encodeEscBlockHeader_eq (header : EscBlockHeader) {out : List UInt8}
    (hlen : kEscEncodedBlockHeaderSize ≤ out.length) : encodeEscBlockHeader header out =
      (.ok,(blockHeaderEquiv header).1 ++ out.drop kEscEncodedBlockHeaderSize) :=
  if_neg (not_lt.mpr hlen)

/-- The decoder reads any thirteen bytes, whatever the struct held. -/
theorem decodeEscBlockHeader_eq (data : {data : List UInt8 // data.length = kEscEncodedBlockHeaderSize})
    (h₀ : EscBlockHeader) : decodeEscBlockHeader data.1 h₀ = (.ok,blockHeaderEquiv.symm data) := by
  have hlen : ¬data.1.length < kEscEncodedBlockHeaderSize := not_lt.mpr data.2.ge
  change _ = (CompressionError.ok,(decodeEscBlockHeader data.1 {}).2)
  unfold decodeEscBlockHeader
  rw [if_neg hlen,if_neg hlen]

theorem decodeEscBlockHeader_error {data : List UInt8} {h₀ header : EscBlockHeader} {e : CompressionError}
    (h : decodeEscBlockHeader data h₀ = (e,header)) (he : e ≠ .ok) : header = h₀ := by
  unfold decodeEscBlockHeader at h
  split_ifs at h
  · exact (Prod.mk.inj h).2.symm
  · exact absurd (Prod.mk.inj h).1.symm he

/-- The header codecs are exact inverses, and an error leaves the caller's header as it was. -/
theorem header_codecs_inverse :
    (∀ (header : EscHeader) (s : BufferState), s.heap.answer s.heap.calls ≠ none →
      ∃ s', Proc.exec (encodeEscHeader header) s = (some .ok,s')) ∧
    (∀ (header h₀ : EscHeader) (s s' : BufferState),
      Proc.exec (encodeEscHeader header) s = (some .ok,s') →
      s'.buffer.contents.length = kEscEncodedHeaderSize ∧
        ∃ crc, decodeEscHeader s'.buffer.contents h₀ = (.ok,{ header with headerCrc := crc })) ∧
    (∀ (data : List UInt8) (h₀ header : EscHeader) (s s' : BufferState),
      decodeEscHeader data h₀ = (.ok,header) →
      Proc.exec (encodeEscHeader header) s = (some .ok,s') →
      s'.buffer.contents = data.take kEscEncodedHeaderSize) ∧
    (∀ (header : EscBlockHeader) (out : List UInt8), out.length = kEscEncodedBlockHeaderSize →
      encodeEscBlockHeader header out = (.ok,(blockHeaderEquiv header).1)) ∧
    (∀ (data : {data : List UInt8 // data.length = kEscEncodedBlockHeaderSize}) (h₀ : EscBlockHeader),
      decodeEscBlockHeader data.1 h₀ = (.ok,blockHeaderEquiv.symm data)) ∧
    (∀ (data : List UInt8) (h₀ header : EscHeader) (e : CompressionError),
      decodeEscHeader data h₀ = (e,header) → e ≠ .ok → header = h₀) ∧
    (∀ (data : List UInt8) (h₀ header : EscBlockHeader) (e : CompressionError),
      decodeEscBlockHeader data h₀ = (e,header) → e ≠ .ok → header = h₀) := by
  refine ⟨?_,?_,?_,?_,decodeEscBlockHeader_eq,fun _ _ _ _ => decodeEscHeader_error,
    fun _ _ _ _ => decodeEscBlockHeader_error⟩
  · intro header s hgranted
    obtain ⟨e,s',hexec,⟨rfl,-⟩ | ⟨-,hrefused⟩⟩ := encodeEscHeader_exec header s
    · exact ⟨s',hexec⟩
    · exact absurd hrefused hgranted
  · intro header h₀ s s' hencode
    rw [encodeEscHeader_bytes hencode]
    exact ⟨headerBytes_length header,_,decodeEscHeader_encode header h₀⟩
  · intro data h₀ header s s' hdecode hencode
    rw [encodeEscHeader_bytes hencode,headerBytes_of_decode hdecode]
  · intro header out hlen
    rw [encodeEscBlockHeader_eq header hlen.ge,List.drop_eq_nil_of_le hlen.le,List.append_nil]

theorem header_codecs_inverse_default : ∃ s : BufferState,
    Proc.exec (encodeEscHeader {}) ⟨.new,.unlimited⟩ = (some .ok,s) ∧
      s.buffer.contents.length = kEscEncodedHeaderSize ∧
      (∃ crc, decodeEscHeader s.buffer.contents {} = (.ok,{ headerCrc := crc })) ∧
      (decodeEscHeader (s.buffer.contents.drop 1) { flags := 7 }).2 = { flags := 7 } := by
  obtain ⟨hencodes,hdecodes,-,-,-,hkept,-⟩ := header_codecs_inverse
  obtain ⟨s,hencode⟩ := hencodes {} ⟨.new,.unlimited⟩ (by simp [Heap.unlimited])
  obtain ⟨hlength,crc,hdecode⟩ := hdecodes {} {} _ _ hencode
  have hshort : (s.buffer.contents.drop 1).length < kEscEncodedHeaderSize := by
    rw [List.length_drop,hlength]
    decide
  refine ⟨s,hencode,hlength,⟨crc,hdecode⟩,hkept _ _ _ (decodeEscHeader _ _).1 rfl ?_⟩
  rw [decodeEscHeader,if_pos hshort]
  decide

end EscFormat
end EspCompressor
