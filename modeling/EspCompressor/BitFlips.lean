import EspCompressor.LzFraming
import EspCompressor.OneBit
import EspCompressor.RoundTrip
import EspCompressor.SizedRuns

/-! What one flipped bit does to a container: nearly always it is detected or harmless; the three
other ways are named here. -/
namespace EspCompressor
namespace EscFormat

/-! ### Headers -/

/-- A flipped bit in a message changes its CRC. -/
theorem crc32_detects_oneBit {x y : List UInt8} (h : OneBit x y) :
    espCompressorCrc32 y ≠ espCompressorCrc32 x := by
  cases h with
  | flip pre b post hi => exact fun he => flipBit_ne hi b (crc32_detects_one pre post he)

/-- A flipped bit in a field gives another value of the field. -/
theorem writeLe32_oneBit {v : UInt32} {y : List UInt8} (h : OneBit (writeLe32 v) y) :
    ∃ v', v' ≠ v ∧ y = writeLe32 v' := by
  have hread : writeLe32 (readLe32 y 0) = y := by
    match y, h.length_eq with
    | [a,b,c,d], _ => exact writeLe32_readLe32 _ 0
  refine ⟨readLe32 y 0,fun he => h.ne ?_,hread.symm⟩
  rw [← hread,he]

/-- One field of a block header has changed, the flags by one bit. -/
inductive FieldFlip (h : EscBlockHeader) : EscBlockHeader → Prop
  | flags {i : ℕ} : i < 8 → FieldFlip h { h with flags := flipBit h.flags i }
  | originalSize {v : UInt32} : v ≠ h.originalSize → FieldFlip h { h with originalSize := v }
  | storedSize {v : UInt32} : v ≠ h.storedSize → FieldFlip h { h with storedSize := v }
  | crc32 {v : UInt32} : v ≠ h.crc32 → FieldFlip h { h with crc32 := v }

theorem blockHeaderBytes_oneBit {h : EscBlockHeader} {x : List UInt8}
    (hx : OneBit (blockHeaderBytes h) x) : ∃ h', x = blockHeaderBytes h' ∧ FieldFlip h h' := by
  have hparts : blockHeaderBytes h = [h.flags] ++ ((writeLe32 h.originalSize ++
      writeLe32 h.storedSize) ++ writeLe32 h.crc32) := rfl
  rw [hparts] at hx
  rcases hx.append with ⟨y,rfl,hy⟩ | ⟨z,rfl,hz⟩
  · obtain ⟨i,hi,rfl⟩ := OneBit.singleton hy
    exact ⟨_,rfl,.flags hi⟩
  rcases hz.append with ⟨w,rfl,hw⟩ | ⟨y,rfl,hy⟩
  swap
  · obtain ⟨v,hv,rfl⟩ := writeLe32_oneBit hy
    exact ⟨_,rfl,.crc32 hv⟩
  rcases hw.append with ⟨y,rfl,hy⟩ | ⟨y,rfl,hy⟩
  · obtain ⟨v,hv,rfl⟩ := writeLe32_oneBit hy
    exact ⟨_,rfl,.originalSize hv⟩
  · obtain ⟨v,hv,rfl⟩ := writeLe32_oneBit hy
    exact ⟨_,rfl,.storedSize hv⟩

/-- A flipped bit in a file header is detected. -/
theorem headerBytes_oneBit {h h' : EscHeader} : ¬OneBit (headerBytes h) (headerBytes h') := by
  intro hx
  unfold headerBytes at hx
  rcases hx.append with ⟨y,he,hy⟩ | ⟨y,he,hy⟩
  · obtain ⟨hcovered,hcrc⟩ := List.append_inj' he (by rw [writeLe32_length,writeLe32_length])
    rw [← hcovered] at hy
    exact crc32_detects_oneBit hy (writeLe32_injective hcrc)
  · obtain ⟨hcovered,hcrc⟩ := List.append_inj he (by simp)
    rw [← hcrc,hcovered] at hy
    exact hy.ne rfl

end EscFormat

namespace Container

open EscFormat

/-! ### Blocks -/

namespace Block

/-- The data of a block that is well formed. -/
def content (b : Block) : List UInt8 := b.data.getD []

def flipRaw (b : Block) : Block := { b with header := { b.header with flags := flipBit b.header.flags 0 } }

def flipFinal (b : Block) : Block := { b with header := { b.header with flags := flipBit b.header.flags 1 } }

/-- The block with a shorter payload. -/
def shorten (b : Block) (payload : List UInt8) : Block :=
  ⟨{ b.header with storedSize := UInt32.ofNat payload.length },payload⟩

theorem data_congr {b b' : Block} (hraw : b'.IsRaw ↔ b.IsRaw)
    (hsize : b'.header.originalSize = b.header.originalSize) (hpayload : b'.payload = b.payload) :
    b'.data = b.data := by
  by_cases h : b.IsRaw
  · rw [data,data,if_pos h,if_pos (hraw.mpr h),hpayload]
  · rw [data,data,if_neg h,if_neg (mt hraw.mp h),hpayload,hsize]

theorem WellFormed.content_eq {header : EscHeader} {b : Block} {data : List UInt8}
    (h : b.WellFormed header data) : b.content = data := by
  rw [content,h.data_eq]
  rfl

/-- What the encoder does beyond the grammar: a compressed payload is shorter than its data, and
nothing may follow it. -/
structure Sealed (b : Block) : Prop where
  stored_lt : ¬b.IsRaw → b.header.storedSize < b.header.originalSize
  closed : ¬b.IsRaw → ∀ e ≠ [], LzLite.decodeBlock (b.payload ++ e) b.header.originalSize.toNat = none

theorem flipFinal_isFinal (b : Block) : b.flipFinal.IsFinal ↔ ¬b.IsFinal :=
  flipBit_and_ne_zero_iff (by decide) b.header.flags

theorem flipRaw_isRaw (b : Block) : b.flipRaw.IsRaw ↔ ¬b.IsRaw :=
  flipBit_and_ne_zero_iff (by decide) b.header.flags

/-- Another block with data of the same length and CRC, one bit away: the raw flag of a raw block, or
a bit of a compressed payload. -/
structure Collision (b b' : Block) (data : List UInt8) : Prop where
  flipped : b.IsRaw ∧ b' = b.flipRaw ∨ ¬b.IsRaw ∧ b'.header = b.header ∧ OneBit b.payload b'.payload
  data_eq : b'.data = some data
  length_eq : data.length = b.content.length
  crc_eq : espCompressorCrc32 data = espCompressorCrc32 b.content

theorem Collision.isFinal {b b' : Block} {data : List UInt8} (h : Collision b b' data) :
    b'.IsFinal ↔ b.IsFinal := by
  rcases h.flipped with ⟨-,rfl⟩ | ⟨-,hheader,-⟩
  · have hflags : b.flipRaw.header.flags &&& kEscBlockFlagFinal = b.header.flags &&& kEscBlockFlagFinal :=
      flipBit_and_of_disjoint (by decide) b.header.flags
    rw [IsFinal,hflags,IsFinal]
  · rw [IsFinal,hheader,IsFinal]

end Block

/-- What may be taken off in place of a record after one of its bits was flipped: a block, its data and
what follows. -/
inductive Taken (b : Block) (after : List UInt8) : Block → List UInt8 → List UInt8 → Prop
  | same {b' : Block} : (b'.IsFinal ↔ b.IsFinal) → Taken b after b' b.content after
  | final : Taken b after b.flipFinal b.content after
  | collision {b' : Block} {data : List UInt8} : b.Collision b' data → Taken b after b' data after
  | short {payload : List UInt8} {t : UInt8} : ¬b.IsRaw → b.payload = payload ++ [t] → t >>> 4 = 0 →
      (b.shorten payload).data = some b.content →
      Taken b after (b.shorten payload) b.content (t :: after)

theorem bytes_append_inj {h : EscBlockHeader} {b : Block} {body rest : List UInt8}
    (he : blockHeaderBytes h ++ body = b.bytes ++ rest) : b.header = h ∧ body = b.payload ++ rest := by
  rw [Block.bytes,List.append_assoc] at he
  obtain ⟨hheader,hbody⟩ := List.append_inj he (by simp)
  exact ⟨(blockHeaderBytes_injective hheader).symm,hbody⟩

section Record

variable {header : EscHeader} {b b' : Block} {data data' after rest' : List UInt8}

/-- The record of the same length, after a flip that keeps the sizes. -/
theorem payload_of_storedSize (hb : b.WellFormed header data) (hb' : b'.WellFormed header data')
    {payload : List UInt8} (hlen : payload.length = b.payload.length)
    (hstored : b'.header.storedSize = b.header.storedSize)
    (he : payload ++ after = b'.payload ++ rest') : b'.payload = payload ∧ rest' = after := by
  have hsame : payload.length = b'.payload.length := by
    rw [hlen,hb.payload_length,hb'.payload_length,hstored]
  obtain ⟨hpayload,hrest⟩ := List.append_inj he hsame
  exact ⟨hpayload.symm,hrest.symm⟩

/-- A bit of the flags. -/
theorem taken_flags (hb : b.WellFormed header data) (hs : b.Sealed) (hb' : b'.WellFormed header data')
    {i : ℕ} (hi : i < 8) (hheader : b'.header = { b.header with flags := flipBit b.header.flags i })
    (he : b.payload ++ after = b'.payload ++ rest') : Taken b after b' data' rest' := by
  obtain ⟨hpayload,rfl⟩ := payload_of_storedSize hb hb' rfl (by rw [hheader]) he
  have hblock : b' = ⟨{ b.header with flags := flipBit b.header.flags i },b.payload⟩ := Block.ext hheader hpayload
  have hcontent := hb.content_eq
  by_cases hraw : i = 0
  · subst hraw
    have hflip : b' = b.flipRaw := hblock
    by_cases hisRaw : b.IsRaw
    · refine .collision ⟨.inl ⟨hisRaw,hflip⟩,hb'.data_eq,?_,?_⟩
      · rw [hcontent,hb'.data_length,hb.data_length,hheader]
      · rw [hcontent,hb'.crc_eq,hb.crc_eq,hheader]
    · -- a compressed payload is too short to be raw
      have hraw' : b'.IsRaw := by rwa [hflip,Block.flipRaw_isRaw]
      have heq := hb'.raw_eq hraw'
      rw [hheader] at heq
      exact absurd heq (UInt32.ne_of_lt (hs.stored_lt hisRaw))
  have hdata : data' = b.content := by
    have hflags : b'.header.flags &&& kEscBlockFlagRaw = b.header.flags &&& kEscBlockFlagRaw := by
      rw [hheader]
      refine flipBit_and_of_disjoint ?_ b.header.flags
      interval_cases i <;> first | exact absurd rfl hraw | decide
    have hsame : b'.data = b.data :=
      Block.data_congr (by rw [Block.IsRaw,hflags,Block.IsRaw]) (by rw [hheader]) hpayload
    rw [hcontent]
    exact Option.some.inj (hb'.data_eq.symm.trans (hsame.trans hb.data_eq))
  by_cases hfinal : i = 1
  · subst hfinal
    have hflip : b' = b.flipFinal := hblock
    rw [hdata,hflip]
    exact .final
  · rw [hdata]
    refine .same ?_
    have hflags : b'.header.flags &&& kEscBlockFlagFinal = b.header.flags &&& kEscBlockFlagFinal := by
      rw [hheader]
      refine flipBit_and_of_disjoint ?_ b.header.flags
      interval_cases i <;> first | exact absurd rfl hfinal | decide
    rw [Block.IsFinal,hflags,Block.IsFinal]

/-- The size of the data. -/
theorem not_wellFormed_of_originalSize (hb : b.WellFormed header data) (hb' : b'.WellFormed header data')
    {v : UInt32} (hv : v ≠ b.header.originalSize)
    (hheader : b'.header = { b.header with originalSize := v })
    (he : b.payload ++ after = b'.payload ++ rest') : False := by
  obtain ⟨hpayload,-⟩ := payload_of_storedSize hb hb' rfl (by rw [hheader]) he
  have hsize : b'.header.originalSize = v := by rw [hheader]
  have hsameRaw : b'.IsRaw ↔ b.IsRaw := by rw [Block.IsRaw,hheader,Block.IsRaw]
  by_cases hraw : b.IsRaw
  · have hstored : b'.header.storedSize = b.header.storedSize := by rw [hheader]
    rw [hb'.raw_eq (hsameRaw.mpr hraw),hb.raw_eq hraw,hsize] at hstored
    exact hv hstored
  · have hdata := hb.data_eq
    have hdata' := hb'.data_eq
    rw [Block.data,if_neg hraw] at hdata
    rw [Block.data,if_neg (mt hsameRaw.mp hraw),hpayload,hsize] at hdata'
    exact hv (UInt32.toNat_inj.mp (LzLite.decodeBlock_size_unique hdata' hdata))

/-- The size of the payload. -/
theorem taken_storedSize (hb : b.WellFormed header data) (hs : b.Sealed)
    (hb' : b'.WellFormed header data') {v : UInt32} (hv : v ≠ b.header.storedSize)
    (hheader : b'.header = { b.header with storedSize := v })
    (he : b.payload ++ after = b'.payload ++ rest') : Taken b after b' data' rest' := by
  have hsameRaw : b'.IsRaw ↔ b.IsRaw := by rw [Block.IsRaw,hheader,Block.IsRaw]
  have hsize : b'.header.originalSize = b.header.originalSize := by rw [hheader]
  have hstored : b'.header.storedSize = v := by rw [hheader]
  have hlen : b'.payload.length = v.toNat := by rw [hb'.payload_length,hstored]
  have hlen_ne : b'.payload.length ≠ b.payload.length := by
    rw [hlen,hb.payload_length]
    exact fun hsame => hv (UInt32.toNat_inj.mp hsame)
  by_cases hraw : b.IsRaw
  · have heq := hb'.raw_eq (hsameRaw.mpr hraw)
    rw [hstored,hsize,← hb.raw_eq hraw] at heq
    exact absurd heq hv
  have hdata := hb.data_eq
  have hdata' := hb'.data_eq
  rw [Block.data,if_neg hraw] at hdata
  rw [Block.data,if_neg (mt hsameRaw.mp hraw),hsize] at hdata'
  rcases List.append_eq_append_iff.mp he with ⟨c,hpayload,-⟩ | ⟨c,hpayload,hrest⟩
  · -- a longer payload is corrupt
    have hne : c ≠ [] := fun hnil => hlen_ne (by rw [hpayload,hnil,List.append_nil])
    rw [hpayload,hs.closed hraw c hne] at hdata'
    simp at hdata'
  · have hne : c ≠ [] := fun hnil => hlen_ne (by rw [hpayload,hnil,List.append_nil])
    rw [hpayload] at hdata
    obtain ⟨⟨t,hempty,rfl⟩,hsame⟩ := LzLite.decodeBlock_append hne hdata' hdata
    have hblock : b' = b.shorten b'.payload := by
      refine Block.ext ?_ rfl
      rw [Block.shorten,hlen,UInt32.ofNat_toNat]
      exact hheader
    have hshort := hb'.data_eq
    rw [hblock,← hsame,← hb.content_eq] at hshort
    rw [hblock,hrest,← hsame,← hb.content_eq]
    exact .short hraw hpayload hempty hshort

/-- The CRC. -/
theorem not_wellFormed_of_crc32 (hb : b.WellFormed header data) (hb' : b'.WellFormed header data')
    {v : UInt32} (hv : v ≠ b.header.crc32) (hheader : b'.header = { b.header with crc32 := v })
    (he : b.payload ++ after = b'.payload ++ rest') : False := by
  obtain ⟨hpayload,-⟩ := payload_of_storedSize hb hb' rfl (by rw [hheader]) he
  have hsame : b'.data = b.data :=
    Block.data_congr (by rw [Block.IsRaw,hheader,Block.IsRaw]) (by rw [hheader]) hpayload
  have hdata : data' = data := Option.some.inj (hb'.data_eq.symm.trans (hsame.trans hb.data_eq))
  have hcrc := hb'.crc_eq
  rw [hdata,hb.crc_eq,hheader] at hcrc
  exact hv hcrc.symm

/-- A bit of the payload. -/
theorem taken_payload (hb : b.WellFormed header data) (hb' : b'.WellFormed header data')
    {payload : List UInt8} (hflip : OneBit b.payload payload) (hheader : b'.header = b.header)
    (he : payload ++ after = b'.payload ++ rest') : Taken b after b' data' rest' := by
  obtain ⟨rfl,rfl⟩ := payload_of_storedSize hb hb' hflip.length_eq (by rw [hheader]) he
  have hcontent := hb.content_eq
  have hcrc : espCompressorCrc32 data' = espCompressorCrc32 b.content := by
    rw [hcontent,hb'.crc_eq,hb.crc_eq,hheader]
  refine .collision ⟨.inr ⟨fun hraw => ?_,hheader,hflip⟩,hb'.data_eq,?_,hcrc⟩
  · have hraw' : b'.IsRaw := by rwa [Block.IsRaw,hheader]
    have hdata := hb.data_eq
    have hdata' := hb'.data_eq
    rw [Block.data,if_pos hraw] at hdata
    rw [Block.data,if_pos hraw'] at hdata'
    rw [hcontent,← Option.some.inj hdata,← Option.some.inj hdata'] at hcrc
    exact crc32_detects_oneBit hflip hcrc
  · rw [hcontent,hb'.data_length,hb.data_length,hheader]

theorem taken_oneBit (hb : b.WellFormed header data) (hs : b.Sealed) {x : List UInt8}
    (hx : OneBit b.bytes x) (hb' : b'.WellFormed header data') (he : x ++ after = b'.bytes ++ rest') :
    Taken b after b' data' rest' := by
  rcases hx.append with ⟨y,rfl,hy⟩ | ⟨payload,rfl,hpayload⟩
  · obtain ⟨h',rfl,hfield⟩ := blockHeaderBytes_oneBit hy
    rw [List.append_assoc] at he
    obtain ⟨hheader,hbody⟩ := bytes_append_inj he
    cases hfield with
    | flags hi => exact taken_flags hb hs hb' hi hheader hbody
    | originalSize hv => exact (not_wellFormed_of_originalSize hb hb' hv hheader hbody).elim
    | storedSize hv => exact taken_storedSize hb hs hb' hv hheader hbody
    | crc32 hv => exact (not_wellFormed_of_crc32 hb hb' hv hheader hbody).elim
  · rw [List.append_assoc] at he
    obtain ⟨hheader,hbody⟩ := bytes_append_inj he
    exact taken_payload hb hb' hpayload hheader hbody

end Record

/-! ### Containers -/

/-- The data of some blocks. -/
def contents (blocks : List Block) : List UInt8 := blocks.flatMap Block.content

/-- What is read, and what comes out of it, are those of the blocks up to one of them; from there on
they are as `R` says. -/
def From (R : Block → List Block → List UInt8 → List UInt8 → Prop) (blocks : List Block)
    (x o : List UInt8) : Prop :=
  ∃ before b after x' o', blocks = before ++ b :: after ∧ x = before.flatMap Block.bytes ++ x' ∧
    o = contents before ++ o' ∧ R b after x' o'

/-- The final flag of a block that is not the last one was flipped: the data ends with the block. -/
def Cut (b : Block) (after : List Block) (x o : List UInt8) : Prop :=
  ¬b.IsFinal ∧ x = b.flipFinal.bytes ++ after.flatMap Block.bytes ∧ o = b.content

/-- The block was exchanged for one with other data of the same length and CRC. -/
def Collides (b : Block) (after : List Block) (x o : List UInt8) : Prop :=
  ∃ b' data, b.Collision b' data ∧ x = b'.bytes ++ after.flatMap Block.bytes ∧ o = data ++ contents after

/-- The token of empty literals at the end of the payload was cut off, and begins the next record. -/
def Shifts (header : EscHeader) (b : Block) (after : List Block) (x o : List UInt8) : Prop :=
  ∃ (payload : List UInt8) (t : UInt8) (tail rest : List UInt8), ¬b.IsRaw ∧ ¬b.IsFinal ∧
    b.payload = payload ++ [t] ∧ t >>> 4 = 0 ∧ (b.shorten payload).data = some b.content ∧
    x = (b.shorten payload).bytes ++ t :: after.flatMap Block.bytes ∧
    decodeBlocks header (t :: after.flatMap Block.bytes) = some (tail,rest) ∧ o = b.content ++ tail

theorem From.here {R : Block → List Block → List UInt8 → List UInt8 → Prop} {b : Block}
    {bs : List Block} {x o : List UInt8} (h : R b bs x o) : From R (b :: bs) x o :=
  ⟨[],b,bs,x,o,rfl,rfl,rfl,h⟩

theorem From.later {R : Block → List Block → List UInt8 → List UInt8 → Prop} {bs : List Block}
    {x o : List UInt8} (b : Block) (h : From R bs x o) :
    From R (b :: bs) (b.bytes ++ x) (b.content ++ o) := by
  obtain ⟨before,b',after,x',o',rfl,rfl,rfl,hR⟩ := h
  refine ⟨b :: before,b',after,x',o',rfl,?_,?_,hR⟩
  · rw [List.flatMap_cons,List.append_assoc]
  · rw [contents,contents,List.flatMap_cons,List.append_assoc]

theorem Blocks.contents_eq {header : EscHeader} {bs : List Block} {out : List UInt8}
    (h : Blocks header bs out) : contents bs = out := by
  induction h with
  | last hb _ => rw [contents,List.flatMap_singleton,hb.content_eq]
  | cons hb _ _ ih => rw [contents,List.flatMap_cons,hb.content_eq,← ih,contents]

section Record

variable {header : EscHeader} {b : Block} {data : List UInt8} {after : List Block}

/-- A block is the last one exactly if it is final, and a sequence of the grammar follows if not. -/
def Followed (header : EscHeader) (b : Block) (after : List Block) : Prop :=
  b.IsFinal ∧ after = [] ∨ ¬b.IsFinal ∧ ∃ out, Blocks header after out

/-- When a record was replaced by one that is final if it was, the others are read as before. -/
theorem decodeBlocks_replaced (hf : Followed header b after) {x data' o rest : List UInt8} {b' : Block}
    (htake : takeBlock header x = some (b',data',after.flatMap Block.bytes))
    (hfinal : b'.IsFinal ↔ b.IsFinal) (hdecode : decodeBlocks header x = some (o,rest)) :
    o = data' ++ contents after := by
  rw [decodeBlocks_of_taken htake] at hdecode
  rcases hf with ⟨hlast,rfl⟩ | ⟨hmore,out,hout⟩
  · rw [if_pos (hfinal.mpr hlast)] at hdecode
    obtain ⟨rfl,-⟩ := Prod.mk.inj (Option.some.inj hdecode)
    exact (List.append_nil _).symm
  · have htail := hout.decode []
    rw [List.append_nil] at htail
    rw [if_neg (mt hfinal.mp hmore),htail] at hdecode
    obtain ⟨rfl,-⟩ := Prod.mk.inj (Option.some.inj hdecode)
    rw [hout.contents_eq]

/-- What the decoder makes of records when one bit of the first one was flipped. -/
theorem decodeBlocks_record (hb : b.WellFormed header data) (hs : b.Sealed)
    (hf : Followed header b after) {y : List UInt8} (hy : OneBit b.bytes y) {o rest : List UInt8}
    (hdecode : decodeBlocks header (y ++ after.flatMap Block.bytes) = some (o,rest)) :
    o = b.content ++ contents after ∨ Cut b after (y ++ after.flatMap Block.bytes) o ∨
      Collides b after (y ++ after.flatMap Block.bytes) o ∨
      Shifts header b after (y ++ after.flatMap Block.bytes) o := by
  cases htake : takeBlock header (y ++ after.flatMap Block.bytes) with
  | none =>
    rw [decodeBlocks_of_refused htake] at hdecode
    simp at hdecode
  | some t =>
    obtain ⟨b',data',rest'⟩ := t
    obtain ⟨hb',hbytes⟩ := takeBlock_eq_some_iff.mp htake
    cases taken_oneBit hb hs hy hb' hbytes with
    | same hfinal => exact .inl (decodeBlocks_replaced hf htake hfinal hdecode)
    | final =>
      rw [decodeBlocks_of_taken htake] at hdecode
      rcases hf with ⟨hlast,rfl⟩ | ⟨hmore,-⟩
      · -- no record follows the last one
        have hempty : decodeBlocks header [] = none := decodeBlocks_of_refused (takeBlock_short (by decide))
        rw [if_neg (mt b.flipFinal_isFinal.mp (not_not.mpr hlast)),List.flatMap_nil,hempty] at hdecode
        simp at hdecode
      · rw [if_pos (b.flipFinal_isFinal.mpr hmore)] at hdecode
        obtain ⟨rfl,-⟩ := Prod.mk.inj (Option.some.inj hdecode)
        exact .inr (.inl ⟨hmore,hbytes,rfl⟩)
    | collision hcollision =>
      refine .inr (.inr (.inl ⟨b',data',hcollision,hbytes,?_⟩))
      exact decodeBlocks_replaced hf htake hcollision.isFinal hdecode
    | @short payload t hraw hpayload hempty hshort =>
      have hsame : (b.shorten payload).IsFinal ↔ b.IsFinal := Iff.rfl
      rw [decodeBlocks_of_taken htake] at hdecode
      rcases hf with ⟨hlast,rfl⟩ | ⟨hmore,-⟩
      · rw [if_pos (hsame.mpr hlast)] at hdecode
        obtain ⟨rfl,-⟩ := Prod.mk.inj (Option.some.inj hdecode)
        exact .inl (List.append_nil _).symm
      · rw [if_neg (mt hsame.mp hmore),Option.map_eq_some_iff] at hdecode
        obtain ⟨⟨tail,rest'⟩,htail,heq⟩ := hdecode
        obtain ⟨rfl,rfl⟩ := Prod.mk.inj heq
        exact .inr (.inr (.inr ⟨payload,t,tail,_,hraw,hmore,hpayload,hempty,hshort,hbytes,
          htail,rfl⟩))

end Record

/-- What the decoder makes of records of which one bit was flipped. -/
theorem decodeBlocks_oneBit {header : EscHeader} {bs : List Block} {d : List UInt8}
    (h : Blocks header bs d) (hs : ∀ b ∈ bs, b.Sealed) {x : List UInt8}
    (hx : OneBit (bs.flatMap Block.bytes) x) {o rest : List UInt8}
    (hdecode : decodeBlocks header x = some (o,rest)) :
    o = d ∨ From Cut bs x o ∨ From Collides bs x o ∨ From (Shifts header) bs x o := by
  have hfirst {b : Block} {data y o : List UInt8} {bs : List Block} (hb : b.WellFormed header data)
      (hsb : b.Sealed) (hf : Followed header b bs) (hy : OneBit b.bytes y)
      (hdecode : decodeBlocks header (y ++ bs.flatMap Block.bytes) = some (o,rest)) :
      o = data ++ contents bs ∨ From Cut (b :: bs) (y ++ bs.flatMap Block.bytes) o ∨
        From Collides (b :: bs) (y ++ bs.flatMap Block.bytes) o ∨
        From (Shifts header) (b :: bs) (y ++ bs.flatMap Block.bytes) o := by
    rw [← hb.content_eq]
    exact (decodeBlocks_record hb hsb hf hy hdecode).imp_right
      (Or.imp .here (Or.imp .here .here))
  induction h generalizing x o with
  | @last b data hb hfinal =>
    rw [List.flatMap_singleton] at hx
    have hcase := @hfirst b data x o [] hb (hs b List.mem_cons_self) (.inl ⟨hfinal,rfl⟩) hx
    rw [List.flatMap_nil,List.append_nil] at hcase
    have hresult := hcase hdecode
    rwa [contents,List.flatMap_nil,List.append_nil] at hresult
  | @cons b bs data out hb hfinal htail ih =>
    obtain ⟨hsb,hsbs⟩ := List.forall_mem_cons.mp hs
    rw [List.flatMap_cons] at hx
    rcases hx.append with ⟨y,rfl,hy⟩ | ⟨y,rfl,hy⟩
    · rw [← htail.contents_eq]
      exact hfirst hb hsb (.inr ⟨hfinal,out,htail⟩) hy hdecode
    · -- the flip is in a later record
      have htake : takeBlock header (b.bytes ++ y) = some (b,data,y) :=
        takeBlock_eq_some_iff.mpr ⟨hb,rfl⟩
      rw [decodeBlocks_of_taken htake,if_neg hfinal,Option.map_eq_some_iff] at hdecode
      obtain ⟨⟨o',rest'⟩,hlater,heq⟩ := hdecode
      obtain ⟨rfl,rfl⟩ := Prod.mk.inj heq
      rw [← hb.content_eq]
      rcases ih hsbs hy hlater with rfl | h | h | h
      · exact .inl rfl
      · exact .inr (.inl (h.later b))
      · exact .inr (.inr (.inl (h.later b)))
      · exact .inr (.inr (.inr (h.later b)))

/-- What comes out of a container that was cut is the beginning of its data. -/
theorem From.cut_start {bs : List Block} {x o : List UInt8} (h : From Cut bs x o) :
    o <+: contents bs := by
  obtain ⟨before,b,after,x',o',rfl,-,rfl,-,-,rfl⟩ := h
  exact ⟨contents after,by simp [contents]⟩

/-- What one flipped bit can do to a container. -/
theorem decode_oneBit {header : EscHeader} {bs : List Block} {d : List UInt8} (h : Blocks header bs d)
    (hs : ∀ b ∈ bs, b.Sealed)
    (hsize : ¬UnknownSize header → header.originalSize = UInt64.ofNat d.length) {c' : List UInt8}
    (hflip : OneBit (encode header bs) c') {o rest : List UInt8} (hdecode : decode c' = .ok (o,rest)) :
    o = d ∨ ∃ x, c' = headerBytes header ++ x ∧
      (¬UnknownSize header → UInt64.ofNat o.length = UInt64.ofNat d.length) ∧
      (From Cut bs x o ∧ (UnknownSize header ∨ 2 ^ 64 ≤ d.length) ∨ From Collides bs x o ∨
        From (Shifts header) bs x o) := by
  obtain ⟨header',bs',hbytes,hok',hbs',hsize'⟩ := decode_ok_iff.mp hdecode
  rcases hflip.append with ⟨y,rfl,hy⟩ | ⟨y,rfl,hy⟩
  · -- the file header has its CRC
    rw [encode,List.append_assoc] at hbytes
    obtain ⟨rfl,-⟩ := List.append_inj hbytes (by rw [hy.length_eq]; simp)
    exact absurd hy headerBytes_oneBit
  · rw [encode,List.append_assoc] at hbytes
    obtain ⟨hheader,rfl⟩ := List.append_inj hbytes (by simp)
    obtain ⟨crc,rfl⟩ := headerBytes_inj hheader
    have hread : decodeBlocks header (bs'.flatMap Block.bytes ++ rest) = some (o,rest) :=
      (hbs'.of_blockSize rfl : Blocks header bs' o).decode rest
    have hsame (hu : ¬UnknownSize header) : UInt64.ofNat o.length = UInt64.ofNat d.length :=
      (hsize' hu).trans (hsize hu)
    rcases decodeBlocks_oneBit h hs hy hread with hd | hcut | hcollides | hshifts
    · exact .inl hd
    · obtain ⟨lost,hlost⟩ := hcut.cut_start
      rw [h.contents_eq] at hlost
      by_cases hcheck : UnknownSize header ∨ 2 ^ 64 ≤ d.length
      · exact .inr ⟨_,rfl,hsame,.inl ⟨hcut,hcheck⟩⟩
      · -- the size check finds that data is missing
        obtain ⟨hknown,hsmall⟩ := not_or.mp hcheck
        have hlen := congrArg List.length hlost
        rw [List.length_append] at hlen
        have hlength : o.length = d.length := by
          have hnat := congrArg UInt64.toNat (hsame hknown)
          rwa [UInt64.toNat_ofNat_of_lt' (by simp only [UInt64.size]; omega),
            UInt64.toNat_ofNat_of_lt' (by simp only [UInt64.size]; omega)] at hnat
        obtain rfl : lost = [] := List.length_eq_zero_iff.mp (by omega)
        exact .inl (by rw [← hlost,List.append_nil])
    · exact .inr ⟨_,rfl,hsame,.inr (.inl hcollides)⟩
    · exact .inr ⟨_,rfl,hsame,.inr (.inr hshifts)⟩

/-! ### The encoder's blocks -/

theorem chunkBlock_sealed {chunk : List UInt8} {m : UInt32} (windowSize : ℕ) (ended : Bool)
    (hne : chunk ≠ []) (hle : chunk.length ≤ m.toNat) : (chunkBlock windowSize chunk ended).Sealed := by
  have hraw := chunkBlock_isRaw windowSize chunk ended
  have horiginal : (chunkBlock windowSize chunk ended).header.originalSize.toNat = chunk.length :=
    toNat_ofNat_of_le hle
  have hpayload (h : ¬(chunkBlock windowSize chunk ended).IsRaw) :
      (chunkBlock windowSize chunk ended).payload = LzLite.encodeBlock chunk windowSize := by
    simp [chunkBlock,mt hraw.mpr h]
  refine ⟨fun h => ?_,fun h e he => ?_⟩
  · have hlt : (LzLite.encodeBlock chunk windowSize).length < chunk.length := not_le.mp (mt hraw.mpr h)
    have hstored : (chunkBlock windowSize chunk ended).header.storedSize.toNat =
        (chunkBlock windowSize chunk ended).payload.length :=
      toNat_ofNat_of_le ((congrArg List.length (hpayload h)).le.trans (hlt.le.trans hle))
    rw [UInt32.lt_iff_toNat_lt,hstored,hpayload h,horiginal]
    exact hlt
  · rw [hpayload h,horiginal]
    exact LzLite.decodeBlock_encodeBlock_append windowSize hne he

theorem blocksOf_sealed {m : UInt32} (windowSize : ℕ) {chunks : List (List UInt8 × Bool)}
    (h : ∀ c ∈ chunks, c.1 ≠ [] ∧ c.1.length ≤ m.toNat) : ∀ b ∈ blocksOf windowSize chunks, b.Sealed := by
  intro b hb
  rw [blocksOf,List.mem_append,List.mem_map] at hb
  rcases hb with ⟨c,hc,rfl⟩ | hb
  · exact chunkBlock_sealed windowSize c.2 (h c hc).1 (h c hc).2
  · split_ifs at hb
    · simp at hb
    · rw [List.mem_singleton] at hb
      have hraw : b.IsRaw := by
        rw [hb]
        decide
      exact ⟨fun hno => absurd hraw hno,fun hno => absurd hraw hno⟩

end Container

namespace Compressor

open Container EscFormat

/-- A container of which one bit was flipped is refused, or decompressed to the same data, but for three
kinds of flips; so it is with the `size_t` of the heap, where it holds the sums of the decoder. -/
theorem bit_flip {d : List UInt8} (job : CompressRun d) {r : CompressionResult}
    {s : RunState job.σ job.κ} (hrun : job.run = (some r,s)) (hok : r.error = .ok) :
    ∃ header blocks, published s.trace = some (encode header blocks) ∧ Blocks header blocks d ∧
      ∀ c', OneBit (encode header blocks) c' → ∀ job' : DecompressRun c', c'.length < job'.fuel →
        ∃ r' s', job'.run = (some r',s') ∧ (job'.heap.HoldsSums c'.length → job'.sizedRun = (some r',s')) ∧
          (r'.error ≠ .ok ∧ published s'.trace = none ∨
          r'.error = .ok ∧ ∃ o, published s'.trace = some o ∧ (o = d ∨
            ∃ x, c' = headerBytes header ++ x ∧
              (¬UnknownSize header → UInt64.ofNat o.length = UInt64.ofNat d.length) ∧
              (From Cut blocks x o ∧ (UnknownSize header ∨ 2 ^ 64 ≤ d.length) ∨
                From Collides blocks x o ∨ From (Shifts header) blocks x o))) := by
  obtain ⟨hdone,hpublished⟩ := compressed_of_exec hrun hok
  obtain ⟨header,chunks,htranscript,hwritten,-⟩ := hdone.written_eq
  obtain ⟨hdata,hended,hsize⟩ := job.transcript_some (Nat.pos_of_ne_zero hdone.valid.1) htranscript
  have hchunks := (transcript_bounds hdone.valid htranscript).2
  have hblocks := blocksOf_blocks job.ctx.config.windowSize hchunks hended
  rw [hdata] at hblocks
  refine ⟨header,blocksOf job.ctx.config.windowSize chunks,by rw [hpublished,hwritten],hblocks,?_⟩
  intro c' hflip job' hfuel
  obtain ⟨r',s',hrun',hfailed | ⟨hok',hpublished',hdone'⟩⟩ := job'.returns hfuel
  · exact ⟨r',s',hrun',fun hsums => (job'.sizedRun_eq hsums).trans hrun',.inl hfailed⟩
  · obtain ⟨rest,hdecode,-⟩ := hdone'.decoded
    exact ⟨r',s',hrun',fun hsums => (job'.sizedRun_eq hsums).trans hrun',.inr ⟨hok',_,hpublished',decode_oneBit hblocks
      (blocksOf_sealed job.ctx.config.windowSize hchunks) hsize hflip hdecode⟩⟩

theorem mixedConfig_valid : ValidConfig { blockSize := 16, windowSize := 16 } := ⟨by decide,by decide,by decide⟩

/-- An encoded block and a raw one. -/
def mixedJob : CompressJob mixedData := .ofBuffer mixedData { blockSize := 16, windowSize := 16 } mixedConfig_valid

/-- What an encoded block and a raw one are compressed to: with any one bit flipped it is refused, and nothing
published, or as many bytes are published as before; a bit of the first payload is noticed. -/
theorem bit_flip_mixed : ∃ r s, mixedJob.run = (some r,s) ∧ published s.trace = some mixedContainer ∧
    (∀ c', OneBit mixedContainer c' → ∃ r' s', (DecompressJob.ofBuffer32 c').sizedRun = (some r',s') ∧
      (r'.error ≠ .ok ∧ published s'.trace = none ∨
        r'.error = .ok ∧ ∃ o, published s'.trace = some o ∧ UInt64.ofNat o.length = 19)) ∧
    OneBit mixedContainer (mixedContainer.modify 38 (flipBit · 1)) ∧
    published (DecompressJob.ofBuffer (mixedContainer.modify 38 (flipBit · 1))).run.2.trace = none := by
  obtain ⟨r,s,hrun,hok⟩ := mixedJob.returns
  obtain ⟨header,blocks,hpublished,-,hflip⟩ := bit_flip mixedJob.toCompressRun hrun hok
  have hmixed : published mixedJob.run.2.trace = some mixedContainer := by decide +kernel
  have hencode : encode header blocks = mixedContainer := by
    rw [hrun] at hmixed
    exact Option.some.inj (hpublished.symm.trans hmixed)
  have hknown : ¬UnknownSize header := by
    obtain ⟨hheader,-⟩ := List.append_inj (hencode : _ = encode mixedHeader mixedBlocks) (by simp)
    obtain ⟨crc,hsame⟩ := headerBytes_inj hheader.symm
    rw [hsame]
    exact show ¬UnknownSize mixedHeader by decide
  rw [hencode] at hpublished hflip
  refine ⟨r,s,hrun,hpublished,fun c' hc' => ?_,.modify (by decide) (by decide),by decide +kernel⟩
  obtain ⟨r',s',-,hsized,hends⟩ := hflip c' hc' (DecompressJob.ofBuffer32 c').toDecompressRun (Nat.lt_succ_self _)
  have hrun' := hsized (Heap.granting_holdsSums (by rw [hc'.length_eq,mixedContainer_length]; decide))
  obtain hfailed | ⟨hok',o,hpublished',hsame | ⟨x,-,hsize,-⟩⟩ := hends
  · exact ⟨r',s',hrun',.inl hfailed⟩
  · exact ⟨r',s',hrun',.inr ⟨hok',o,hpublished',by rw [hsame]; decide⟩⟩
  · exact ⟨r',s',hrun',.inr ⟨hok',o,hpublished',hsize hknown⟩⟩

/-- One bit of what the job publishes is flipped, and the decompression publishes other data. -/
def Misread {d : List UInt8} (job : CompressJob d) (o : List UInt8) : Prop :=
  o ≠ d ∧ ∃ c c', published job.run.2.trace = some c ∧ OneBit c c' ∧
    published (DecompressJob.ofBuffer c').run.2.trace = some o

/-- What the decompression publishes when bit `i` of byte `n` was flipped. -/
def flipped {d : List UInt8} (job : CompressJob d) (n i : ℕ) : Option (List UInt8) :=
  (published job.run.2.trace).bind fun c => if n < c.length then
    published (DecompressJob.ofBuffer (c.modify n (flipBit · i))).run.2.trace else none

theorem misread_of_flipped {d o : List UInt8} {job : CompressJob d} {n i : ℕ} (hi : i < 8)
    (ho : o ≠ d) (h : flipped job n i = some o) : Misread job o := by
  rw [flipped,Option.bind_eq_some_iff] at h
  obtain ⟨c,hc,hread⟩ := h
  split_ifs at hread with hn
  exact ⟨ho,c,_,hc,.modify hn hi,hread⟩

/-- A stream of two bytes, in blocks of one byte. -/
def twoBlocks : CompressJob [1,2] :=
  .ofPieces [[1],[2]] (by decide) { blockSize := 1, windowSize := 1 } validConfig_one

/-- A buffer in a single block. -/
def oneBlock (d : List UInt8) : CompressJob d :=
  .ofBuffer d { blockSize := 32, windowSize := 32 } ⟨by decide,by decide,by decide⟩

/-- The payload of the first block ends with the token of empty literals; what follows, read from that
token on, is a block with the CRC that stands there. -/
def threePieces : List (List UInt8) := [[97,97,97,97,97,97],[174],
  [10,0,240,222,47,168,101,138,30] ++ (List.range 232).map fun i => UInt8.ofNat (i + 5)]

def threeBlocks : CompressJob threePieces.flatten :=
  .ofPieces threePieces (by decide) { blockSize := 257, windowSize := 1 } ⟨by decide,by decide,by decide⟩

set_option maxRecDepth 100000 in
/-- Each kind of flip does publish other data: the final flag of a block, an offset in a payload, the raw
flag of a block, and the size of a payload. -/
theorem bit_flip_misread : Misread twoBlocks [1] ∧
    Misread (oneBlock [75,18,111,243,51,1,2,3,10,20,30,40,50,4,10,20,30,40,50])
      [75,18,111,243,51,1,2,3,10,20,30,40,50,4,75,18,111,243,51] ∧
    Misread (oneBlock [64,101,74,210,194,4,0]) [101,74,210,194,101,74,210] ∧
    ∃ o, o.length = 263 ∧ Misread threeBlocks o := by
  refine ⟨?_,?_,?_,?_⟩
  · exact @misread_of_flipped _ _ _ 24 1 (by decide) (by decide) (by decide +kernel)
  · exact @misread_of_flipped _ _ _ 52 3 (by decide) (by decide) (by decide +kernel)
  · exact @misread_of_flipped _ _ _ 24 0 (by decide) (by decide) (by decide +kernel)
  · have hlength : (flipped threeBlocks 29 0).map List.length = some 263 := by decide +kernel
    obtain ⟨o,ho,hlen⟩ := Option.map_eq_some_iff.mp hlength
    refine ⟨o,hlen,misread_of_flipped (by decide) (fun hd => ?_) ho⟩
    rw [hd] at hlen
    exact absurd hlen (by decide +kernel)

end Compressor
end EspCompressor
