import EspCompressor.Container
import EspCompressor.RunSteps

/-! `runDecompress` against the decoder of byte strings: from any source that delivers a byte
string, in reads of any length, it gives what `Container.decode` gives for the string. -/
namespace EspCompressor
namespace Compressor

open EscFormat Container

variable {σ κ : Type} {ctx : RunContext σ κ} {k₀ : κ} {heap : Heap}
  {Inv : List UInt8 → σ → Prop}

/-- An open session that has written `out`, with `rest` of `total` bytes still to be read. -/
structure Decoding (ctx : RunContext σ κ) (k₀ : κ) (heap : Heap) (Inv : List UInt8 → σ → Prop)
    (total : ℕ) (out rest : List UInt8) (s : RunState σ κ) : Prop extends
    Running ctx k₀ heap out s where
  source : Inv rest s.source
  position : (meter s.trace).position + rest.length = total
  furthest : (meter s.trace).furthest ≤ (meter s.trace).position

theorem Decoding.kept {total : ℕ} {out out' rest : List UInt8} {s s' : RunState σ κ}
    (h : Decoding ctx k₀ heap Inv total out rest s) (hrun : Running ctx k₀ heap out' s')
    (hkept : SourceKept s s') : Decoding ctx k₀ heap Inv total out' rest s' :=
  ⟨hrun,hkept.source_eq ▸ h.source,hkept.meter_eq ▸ h.position,hkept.meter_eq ▸ h.furthest⟩

/-- The rounds of `readExact`, which never ask for more than is still missing. -/
theorem readLoop_spec (hsource : Delivers ctx.source Inv) {size : ℕ} (start n : ℕ) {out : List UInt8}
    {p : List UInt8 × UInt64} {rest : List UInt8} {s : RunState σ κ}
    (hrun : Running ctx k₀ heap out s) (hinv : Inv rest s.source)
    (hposition : (meter s.trace).position = start + p.1.length)
    (hfurthest : (meter s.trace).furthest ≤ start + size) (hle : p.1.length ≤ size)
    (hn : size < p.1.length + n) :
    Proc.wp (Proc.loop (readRound ctx.source size) n p)
      (fun q s' => ∃ bytes rest', rest = bytes ++ rest' ∧ q.1 = p.1 ++ bytes ∧ q.1.length = size ∧
        q.2 = p.2 + UInt64.ofNat bytes.length ∧ Running ctx k₀ heap out s' ∧ Inv rest' s'.source ∧
        (meter s'.trace).position = start + size ∧ (meter s'.trace).furthest ≤ start + size)
      (fun e _ => e = .corruptData ∧ p.1.length + rest.length < size) (fun _ => False) s := by
  induction n generalizing p rest s with
  | zero => exact absurd hn (by omega)
  | succ n ih =>
    rw [Proc.wp_loop_succ,readRound]
    simp only [Proc.wp_ite,Proc.wp_bind,readSource,Proc.wp_lift,Proc.wp_returnIf,Proc.wp_pure]
    refine ⟨fun hlt => ?_,fun hge => ?_⟩
    · obtain ⟨rest',hrest,hinv'⟩ := hsource.read_inv (size - p.1.length) hinv
      have hread := hsource.read_ok (size - p.1.length) hinv
      have hfits := (ctx.source.read (size - p.1.length) s.source).1.fits
      refine ⟨fun he => absurd hread he,fun _ => ⟨fun hempty => ⟨trivial,?_⟩,fun hdata => ?_⟩⟩
      · have hnil : rest = [] := by
          by_contra hne
          exact hsource.read_nonempty _ hinv (by omega) hne (List.length_eq_zero_iff.mp hempty)
        rw [hnil]
        simpa using hlt
      · set data := (ctx.source.read (size - p.1.length) s.source).1.data
        have hlen : (p.1 ++ data).length = p.1.length + data.length := List.length_append
        refine Proc.wp_mono (ih (p := (p.1 ++ data,p.2 + UInt64.ofNat data.length))
          (hrun.event _ rfl rfl rfl rfl rfl rfl rfl) hinv' ?_ ?_ ?_ ?_) ?_ ?_ fun _ h => h
        · simp only [meter_append_singleton,IoEvent.meter,hposition,hlen]
          omega
        · simp only [meter_append_singleton,IoEvent.meter,hposition]
          omega
        · dsimp only
          omega
        · dsimp only
          omega
        · rintro q s' ⟨bytes,rest'',rfl,hq,hsize,hcounter,hs'⟩
          refine ⟨data ++ bytes,rest'',by rw [hrest,List.append_assoc],?_,hsize,?_,hs'⟩
          · rw [hq,List.append_assoc]
          · rw [hcounter,List.length_append,UInt64.ofNat_add,UInt64.add_assoc]
        · rintro e s' ⟨he,hshort⟩
          refine ⟨he,?_⟩
          dsimp only at hshort
          rw [hrest,List.length_append]
          omega
    · have hsize : p.1.length = size := by omega
      exact ⟨[],rest,by simp,by simp,hsize,by simp,hrun,hinv,hsize ▸ hposition,hfurthest⟩

/-- `readExact` takes the next `size` bytes, or there are fewer. -/
theorem readOrReturn_spec (hsource : Delivers ctx.source Inv) (result : CompressionResult) (size : ℕ)
    {total : ℕ} {processed : UInt64} {out rest : List UInt8} {s : RunState σ κ}
    (h : Decoding ctx k₀ heap Inv total out rest s)
    (hprocessed : processed = UInt64.ofNat (meter s.trace).position) :
    Proc.wp (readOrReturn ctx result size processed)
      (fun p s' => ∃ rest', rest = p.1 ++ rest' ∧ p.1.length = size ∧
        p.2 = UInt64.ofNat (meter s'.trace).position ∧ Decoding ctx k₀ heap Inv total out rest' s')
      (fun r _ => r.error = .corruptData ∧ rest.length < size) (fun _ => False) s := by
  rw [readOrReturn,Proc.wp_mapReturn,readExact]
  refine Proc.wp_mono (readLoop_spec hsource (meter s.trace).position (size + 1)
    (p := ([],processed)) h.toRunning h.source rfl ?_ (Nat.zero_le _) (by simp)) ?_ ?_ fun _ h => h
  · exact h.furthest.trans (Nat.le_add_right _ _)
  · rintro q s' ⟨bytes,rest',rfl,hq,hsize,hcounter,hrun,hinv,hposition,hfurthest⟩
    have hbytes : q.1 = bytes := hq
    have htotal := h.position
    rw [List.length_append,← hbytes] at htotal
    refine ⟨rest',by rw [hbytes],hsize,?_,hrun,hinv,by omega,by omega⟩
    rw [hcounter,hposition,hprocessed,← hbytes,hsize,UInt64.ofNat_add]
  · rintro e s' ⟨rfl,hshort⟩
    exact ⟨rfl,by simpa using hshort⟩

/-- How a step fails: the input is corrupt in the given way, or the run is hindered. -/
def Fails (ctx : RunContext σ κ) (k₀ : κ) (heap : Heap) (corrupt : Prop) (r : CompressionResult) : Prop :=
  r.error ≠ .ok ∧ (r.error = .corruptData ∧ corrupt ∨ ¬Unhindered ctx k₀ heap uint32Max)

theorem Fails.mono {corrupt corrupt' : Prop} {r : CompressionResult} (h : Fails ctx k₀ heap corrupt r)
    (himp : corrupt → corrupt') : Fails ctx k₀ heap corrupt' r :=
  ⟨h.1,h.2.imp_left fun hc => ⟨hc.1,himp hc.2⟩⟩

theorem Fails.corrupt {corrupt : Prop} {r : CompressionResult} (hr : r.error = .corruptData)
    (h : corrupt) : Fails ctx k₀ heap corrupt r := ⟨by simp [hr],.inl ⟨hr,h⟩⟩

/-- The counters agree with what was read and written. -/
structure Counts (v : DecompressVars) (out : List UInt8) (s : RunState σ κ) : Prop where
  error : v.result.error = .ok
  processed : v.processedCompressedInput = UInt64.ofNat (meter s.trace).position
  outputBytes : v.result.outputBytes = UInt64.ofNat out.length

/-- A step that makes no call to the source, in a decoding. -/
theorem Decoding.adds {α : Type} {total : ℕ} {out bytes rest : List UInt8} {s : RunState σ κ}
    {corrupt : Prop} {m : Proc CompressionResult (RunState σ κ) α} {P : α → Prop}
    (h : Decoding ctx k₀ heap Inv total out rest s) (hm : Adds ctx k₀ heap uint32Max bytes m P) :
    Proc.wp m (fun a s' => P a ∧ Decoding ctx k₀ heap Inv total (out ++ bytes) rest s' ∧
      SourceKept s s') (fun r _ => Fails ctx k₀ heap corrupt r) (fun _ => False) s :=
  Proc.wp_mono (hm out s h.toRunning)
    (fun _ _ ⟨ha,hrun,hkept⟩ => ⟨ha,h.kept hrun hkept,hkept⟩)
    (fun _ _ ⟨he,hn⟩ => ⟨he,.inr hn⟩) fun _ h => h

/-- The payload is read into the stored block. -/
theorem readPayload_spec (hsource : Delivers ctx.source Inv) (v : DecompressVars) (storedSize : ℕ)
    {total : ℕ} {out rest : List UInt8} {s : RunState σ κ}
    (h : Decoding ctx k₀ heap Inv total out rest s) (hv : Counts v out s) :
    Proc.wp (readPayload ctx v storedSize)
      (fun v' s' => ∃ payload rest', rest = payload ++ rest' ∧ payload.length = storedSize ∧
        v'.storedBlock.contents = payload ∧ Counts v' out s' ∧
        Decoding ctx k₀ heap Inv total out rest' s')
      (fun r _ => Fails ctx k₀ heap (rest.length < storedSize) r) (fun _ => False) s := by
  rw [readPayload,Proc.wp_bind]
  refine Proc.wp_mono (h.adds (resize_adds v.storedBlock storedSize)) ?_ (fun _ _ h => h) fun _ h => h
  rintro resized s₁ ⟨⟨hsize,hgrant⟩,h₁,hkept⟩
  rw [List.append_nil] at h₁
  simp only [Proc.wp_bind,Proc.wp_returnIf,Proc.wp_ite,Proc.wp_pure]
  refine ⟨fun hno => ⟨by simp,.inr fun hu => hgrant hno hu.ample⟩,fun hyes => ?_⟩
  have hsize : resized.2.size = storedSize := hsize (Bool.eq_true_of_not_eq_false hyes)
  refine ⟨fun _ => ?_,fun hzero => ?_⟩
  · refine Proc.wp_mono (readOrReturn_spec hsource v.result storedSize h₁
      (hkept.meter_eq ▸ hv.processed)) ?_ ?_ fun _ h => h
    · rintro payload s₂ ⟨rest',hrest,hlen,hprocessed,h₂⟩
      exact ⟨payload.1,rest',hrest,hlen,MemoryBuffer.store_contents _ _ (by rw [hlen,hsize]),
        ⟨hv.error,hprocessed,hv.outputBytes⟩,h₂⟩
    · exact fun r _ h => .corrupt h.1 h.2
  · have hzero : storedSize = 0 := not_not.mp hzero
    refine ⟨[],rest,rfl,hzero.symm,?_,⟨hv.error,?_,hv.outputBytes⟩,h₁⟩
    · rw [← List.length_eq_zero_iff,MemoryBuffer.contents_length,hsize,hzero]
    · rw [hkept.meter_eq]
      exact hv.processed

/-- Decoding a payload into a local buffer. -/
theorem decompressBlock_adds (buffer : MemoryBuffer) (payload : List UInt8) (n : ℕ) :
    Adds ctx k₀ heap uint32Max [] (callWith buffer (Codec.decompressLzLiteBlock payload n)) fun r =>
      r.1 = .ok ∧ LzLite.decodeBlock payload n = some r.2.buffer.contents ∨
        r.1 = .corruptData ∧ LzLite.decodeBlock payload n = none ∨
        r.1 = .noMemory ∧ ¬heap.Ample n := by
  refine callWith_adds fun h hsupply => ?_
  have hresult (e : CompressionError) (t : BufferState)
      (hd : Codec.Decoded payload n ⟨buffer,h⟩ e t) : h.SameSupply t.heap ∧
      (e = .ok ∧ LzLite.decodeBlock payload n = some t.buffer.contents ∨
        e = .corruptData ∧ LzLite.decodeBlock payload n = none ∨ e = .noMemory ∧ ¬heap.Ample n) :=
    ⟨hd.1,hd.2.imp_right (Or.imp_right fun hr => ⟨hr.1,fun ha => hr.2 (ha.of_sameSupply hsupply)⟩)⟩
  exact Proc.wp_mono (Codec.decompressLzLiteBlock_spec payload n ⟨buffer,h⟩) hresult hresult
    fun _ h => h

section WriteBlock

variable {v : DecompressVars} {b : Block} {header : EscHeader} {total : ℕ} {out rest : List UInt8}
  {s : RunState σ κ}

theorem writeRawBlock_spec (h : Decoding ctx k₀ heap Inv total out rest s) (hv : Counts v out s)
    (hpayload : v.storedBlock.contents = b.payload)
    (hsize : b.header.storedSize = b.header.originalSize) :
    Proc.wp (writeRawBlock ctx v b.header)
      (fun v' s' => espCompressorCrc32 b.payload = b.header.crc32 ∧ Counts v' (out ++ b.payload) s' ∧
        Decoding ctx k₀ heap Inv total (out ++ b.payload) rest s')
      (fun r _ => Fails ctx k₀ heap (espCompressorCrc32 b.payload ≠ b.header.crc32) r)
      (fun _ => False) s := by
  simp only [writeRawBlock,Proc.wp_bind,Proc.wp_returnIf,hpayload]
  refine ⟨fun hne => absurd hsize.symm hne,fun _ => ⟨fun hcrc => .corrupt rfl hcrc,fun hcrc => ?_⟩⟩
  refine Proc.wp_mono (h.adds (writeOrReturn_adds b.payload v.result)) ?_ (fun _ _ h => h) fun _ h => h
  rintro _ s₁ ⟨-,h₁,hkept⟩
  refine ⟨not_not.mp hcrc,⟨hv.error,hkept.meter_eq ▸ hv.processed,?_⟩,h₁⟩
  have hlen : v.storedBlock.size = b.payload.length := by
    rw [← MemoryBuffer.contents_length,hpayload]
  simp only [hv.outputBytes,hlen,List.length_append,UInt64.ofNat_add]

theorem writeLzBlock_spec (h : Decoding ctx k₀ heap Inv total out rest s) (hv : Counts v out s)
    (hpayload : v.storedBlock.contents = b.payload) :
    Proc.wp (writeLzBlock ctx v b.header)
      (fun v' s' => ∃ data, LzLite.decodeBlock b.payload b.header.originalSize.toNat = some data ∧
        espCompressorCrc32 data = b.header.crc32 ∧ Counts v' (out ++ data) s' ∧
        Decoding ctx k₀ heap Inv total (out ++ data) rest s')
      (fun r _ => Fails ctx k₀ heap
        (∀ data, LzLite.decodeBlock b.payload b.header.originalSize.toNat = some data →
          espCompressorCrc32 data ≠ b.header.crc32) r)
      (fun _ => False) s := by
  rw [writeLzBlock,writeLzBlockBy,Proc.wp_bind,hpayload]
  refine Proc.wp_mono (h.adds (decompressBlock_adds v.outputBlock b.payload _)) ?_
    (fun _ _ h => h) fun _ h => h
  rintro ⟨e,t⟩ s₁ ⟨hresult,h₁,hkept₁⟩
  rw [List.append_nil] at h₁
  simp only [Proc.wp_bind,check,Proc.wp_returnIf]
  rcases hresult with ⟨rfl,hdata⟩ | ⟨rfl,hnone⟩ | ⟨rfl,hrefused⟩
  · refine ⟨fun he => absurd rfl he,fun _ => ⟨fun hcrc => .corrupt rfl ?_,fun hcrc => ?_⟩⟩
    · intro data hsome
      rw [hdata] at hsome
      exact Option.some.inj hsome ▸ hcrc
    · refine Proc.wp_mono (h₁.adds (writeOrReturn_adds t.buffer.contents v.result)) ?_
        (fun _ _ h => h) fun _ h => h
      rintro _ s₂ ⟨-,h₂,hkept₂⟩
      refine ⟨t.buffer.contents,hdata,not_not.mp hcrc,⟨hv.error,?_,?_⟩,h₂⟩
      · rw [(hkept₁.trans hkept₂).meter_eq]
        exact hv.processed
      · simp only [hv.outputBytes,List.length_append,MemoryBuffer.contents_length,UInt64.ofNat_add]
  · refine ⟨fun _ => .corrupt rfl fun data hsome => ?_,fun he => absurd (by simp) he⟩
    rw [hnone] at hsome
    simp at hsome
  · refine ⟨fun _ => ⟨by simp,.inr fun hu => hrefused (hu.ample.mono ?_)⟩,fun he => absurd (by simp) he⟩
    exact Nat.le_of_lt_succ b.header.originalSize.toNat_lt

/-- The data of a block whose payload has been read is checked and written. -/
theorem writeBlock_spec (h : Decoding ctx k₀ heap Inv total out rest s) (hv : Counts v out s)
    (hpayload : v.storedBlock.contents = b.payload)
    (hvalid : validateEscBlockBounds header b.header = true) :
    Proc.wp (writeBlock ctx v b.header)
      (fun v' s' => ∃ data, b.data = some data ∧ espCompressorCrc32 data = b.header.crc32 ∧
        Counts v' (out ++ data) s' ∧ Decoding ctx k₀ heap Inv total (out ++ data) rest s')
      (fun r _ => Fails ctx k₀ heap
        (∀ data, b.data = some data → espCompressorCrc32 data ≠ b.header.crc32) r)
      (fun _ => False) s := by
  obtain ⟨-,-,-,hraw⟩ := (validateEscBlockBounds_iff header b).mp hvalid
  rw [writeBlock,writeBlockBy,Proc.wp_ite]
  refine ⟨fun hb => ?_,fun hb => ?_⟩
  · have hdata : b.data = some b.payload := if_pos hb
    refine Proc.wp_mono (writeRawBlock_spec h hv hpayload (hraw hb)) ?_ ?_ fun _ h => h
    · exact fun v' s' hr => ⟨b.payload,hdata,hr⟩
    · refine fun r s' hr => hr.mono fun hcrc data hsome => ?_
      rw [hdata] at hsome
      exact Option.some.inj hsome ▸ hcrc
  · have hdata : b.data = LzLite.decodeBlock b.payload b.header.originalSize.toNat := if_neg hb
    rw [hdata]
    exact writeLzBlock_spec h hv hpayload

end WriteBlock

/-- One round takes one record off, or there is none to take. -/
theorem decompressRound_spec (hsource : Delivers ctx.source Inv) (header : EscHeader)
    {v : DecompressVars} {total : ℕ} {out rest : List UInt8} {s : RunState σ κ}
    (h : Decoding ctx k₀ heap Inv total out rest s) (hv : Counts v out s) :
    Proc.wp (decompressRound ctx header v)
      (fun c s' => ∃ b data rest' v', takeBlock header rest = some (b,data,rest') ∧
        c = (if b.IsFinal then .inr v' else .inl v') ∧ Counts v' (out ++ data) s' ∧
        Decoding ctx k₀ heap Inv total (out ++ data) rest' s')
      (fun r _ => Fails ctx k₀ heap (takeBlock header rest = none) r) (fun _ => False) s := by
  rw [decompressRound,decompressRoundBy,Proc.wp_bind]
  refine Proc.wp_mono (h.adds (shouldAbortForCancel_adds v.result)) ?_ (fun _ _ h => h) fun _ h => h
  rintro _ s₁ ⟨-,h₁,hkept₁⟩
  rw [List.append_nil] at h₁
  rw [Proc.wp_bind]
  refine Proc.wp_mono (readOrReturn_spec hsource v.result kEscEncodedBlockHeaderSize h₁
    (hkept₁.meter_eq ▸ hv.processed)) ?_ ?_ fun _ h => h
  · rintro ⟨headerBytes,processed⟩ s₂ ⟨rest₁,rfl,hlen,hprocessed,h₂⟩
    obtain ⟨blockHeader,hdecode,rfl⟩ := decodeEscBlockHeader_spec hlen {}
    simp only [hdecode,Proc.wp_bind,check,Proc.wp_returnIf]
    refine ⟨fun he => absurd rfl he,fun _ => ⟨fun hbad => .corrupt rfl ?_,fun hvalid => ?_⟩⟩
    · rw [takeBlock_append,if_pos hbad]
    refine Proc.wp_mono (readPayload_spec hsource
      { v with processedCompressedInput := processed } blockHeader.storedSize.toNat h₂
      ⟨hv.error,hprocessed,hv.outputBytes⟩) ?_ ?_ fun _ h => h
    · rintro v₃ s₃ ⟨payload,rest',rfl,hpayload,hstored,hv₃,h₃⟩
      have htake : takeBlock header (blockHeaderBytes blockHeader ++ (payload ++ rest')) =
          (Block.mk blockHeader payload).data.bind fun data =>
            if espCompressorCrc32 data ≠ blockHeader.crc32 then none
            else some (⟨blockHeader,payload⟩,data,rest') := by
        rw [takeBlock_append,if_neg hvalid,← hpayload,if_neg (by simp),List.take_left,List.drop_left]
      rw [htake]
      refine Proc.wp_mono (writeBlock_spec (b := ⟨blockHeader,payload⟩) h₃ hv₃ hstored
        (Bool.eq_true_of_not_eq_false hvalid)) ?_ ?_ fun _ h => h
      · rintro v₄ s₄ ⟨data,hdata,hcrc,hv₄,h₄⟩
        refine Proc.wp_mono (h₄.adds (emitProgress_adds _ _ false)) ?_ (fun _ _ h => h) fun _ h => h
        rintro progress s₅ ⟨-,h₅,hkept₅⟩
        rw [List.append_nil] at h₅
        refine ⟨⟨blockHeader,payload⟩,data,rest',_,?_,rfl,?_,h₅⟩
        · simp only [hdata,hcrc,Option.bind_some,ne_eq,not_true,if_false]
        · exact ⟨hv₄.error,hkept₅.meter_eq ▸ hv₄.processed,hv₄.outputBytes⟩
      · refine fun r s₄ hr => hr.mono fun hcrc => ?_
        cases hdata : (Block.mk blockHeader payload).data with
        | none => rfl
        | some data => rw [Option.bind_some,if_pos (hcrc data hdata)]
    · refine fun r s₃ hr => hr.mono fun hshort => ?_
      rw [takeBlock_append,if_neg hvalid,if_pos hshort]
  · exact fun r s₂ h => .corrupt h.1 (takeBlock_short h.2)

/-- The rounds take all records off, up to the final one. -/
theorem decompressLoop_spec (hsource : Delivers ctx.source Inv) (header : EscHeader) (n : ℕ)
    {v : DecompressVars} {total : ℕ} {out rest : List UInt8} {s : RunState σ κ}
    (h : Decoding ctx k₀ heap Inv total out rest s) (hv : Counts v out s) :
    Proc.wp (Proc.loop (decompressRound ctx header) n v)
      (fun v' s' => ∃ o rest', decodeBlocks header rest = some (o,rest') ∧
        Counts v' (out ++ o) s' ∧ Decoding ctx k₀ heap Inv total (out ++ o) rest' s')
      (fun r _ => Fails ctx k₀ heap (decodeBlocks header rest = none) r)
      (fun _ => n ≤ rest.length) s := by
  induction n generalizing v out rest s with
  | zero => exact Nat.zero_le _
  | succ n ih =>
    rw [Proc.wp_loop_succ]
    refine Proc.wp_mono (decompressRound_spec hsource header h hv) ?_ ?_ fun _ h => h.elim
    · rintro c s₁ ⟨b,data,rest',v',htake,rfl,hv',h'⟩
      have hlen := takeBlock_length htake
      by_cases hfinal : b.IsFinal
      · rw [if_pos hfinal]
        refine ⟨data,rest',?_,hv',h'⟩
        rw [decodeBlocks_of_taken htake,if_pos hfinal]
      · rw [if_neg hfinal]
        have hrest := decodeBlocks_of_taken htake
        rw [if_neg hfinal] at hrest
        refine Proc.wp_mono (ih h' hv') ?_ ?_ fun _ hpending => by omega
        · rintro v'' s₂ ⟨o,rest'',hdecode,hv'',h''⟩
          rw [List.append_assoc] at hv'' h''
          exact ⟨data ++ o,rest'',by rw [hrest,hdecode]; rfl,hv'',h''⟩
        · exact fun r s₂ hr => hr.mono fun hnone => by rw [hrest,hnone]; rfl
    · exact fun r s₁ hr => hr.mono decodeBlocks_of_refused

/-- A run that has succeeded on `d`. -/
structure Decompressed (d : List UInt8) (r : CompressionResult) (s : RunState σ κ) : Prop where
  error : r.error = .ok
  decoded : ∃ rest, decode d = .ok (written s.trace,rest) ∧
    (meter s.trace).position + rest.length = d.length
  furthest : (meter s.trace).furthest ≤ (meter s.trace).position
  inputBytes : r.inputBytes = UInt64.ofNat (meter s.trace).position
  outputBytes : r.outputBytes = UInt64.ofNat (written s.trace).length

/-- How a run on `d` fails. -/
def Refuses (ctx : RunContext σ κ) (k₀ : κ) (heap : Heap) (d : List UInt8) (r : CompressionResult) : Prop :=
  r.error ≠ .ok ∧ (decode d = .error r.error ∨ ¬Unhindered ctx k₀ heap uint32Max)

/-- The file header is read and checked as the decoder does it. -/
theorem readFileHeader_spec (hsource : Delivers ctx.source Inv) (result : CompressionResult)
    {d : List UInt8} {s : RunState σ κ} (h : Decoding ctx k₀ heap Inv d.length [] d s)
    (hstart : meter s.trace = ⟨0,0⟩) :
    Proc.wp (readFileHeader ctx result)
      (fun p s' => ¬d.length < kEscEncodedHeaderSize ∧
        decodeHeader (d.take kEscEncodedHeaderSize) = .ok p.1 ∧
        p.2 = UInt64.ofNat (meter s'.trace).position ∧
        Decoding ctx k₀ heap Inv d.length [] (d.drop kEscEncodedHeaderSize) s')
      (fun r _ => Refuses ctx k₀ heap d r) (fun _ => False) s := by
  rw [readFileHeader,Proc.wp_bind]
  refine Proc.wp_mono (readOrReturn_spec hsource result kEscEncodedHeaderSize h
    (by rw [hstart]; rfl)) ?_ ?_ fun _ h => h
  · rintro ⟨bytes,processed⟩ s₁ ⟨rest,hd,hlen,hprocessed,h₁⟩
    have htake : d.take kEscEncodedHeaderSize = bytes := by rw [hd,← hlen,List.take_left]
    have hdrop : d.drop kEscEncodedHeaderSize = rest := by rw [hd,← hlen,List.drop_left]
    have hshort : ¬d.length < kEscEncodedHeaderSize := by
      dsimp only at hlen
      rw [hd,List.length_append]
      dsimp only
      omega
    have hrefused (e : CompressionError) (he : e ≠ .ok) (hheader : decodeHeader bytes = .error e) :
        Refuses ctx k₀ heap d { result with error := e } := by
      exact ⟨he,.inl (decode_of_badHeader hshort (htake ▸ hheader))⟩
    rw [htake,hdrop]
    simp only [Proc.wp_bind,check,Proc.wp_returnIf,Proc.wp_pure]
    unfold decodeHeader at hrefused ⊢
    refine ⟨fun he => ?_,fun he => ⟨fun hversion => ?_,fun hversion => ⟨fun halgorithm => ?_,
      fun halgorithm => ⟨fun hsize => ?_,fun hsize => ?_⟩⟩⟩⟩
    · exact hrefused _ he (if_pos he)
    · exact hrefused _ (by simp) ((if_neg he).trans (if_pos hversion))
    · exact hrefused _ (by simp) ((if_neg he).trans ((if_neg hversion).trans (if_pos halgorithm)))
    · exact hrefused _ (by simp) ((if_neg he).trans ((if_neg hversion).trans
        ((if_neg halgorithm).trans (if_pos hsize))))
    · exact ⟨hshort,(if_neg he).trans ((if_neg hversion).trans ((if_neg halgorithm).trans
        (if_neg hsize))),hprocessed,h₁⟩
  · rintro r s₁ ⟨he,hshort⟩
    refine ⟨by simp [he],.inl ?_⟩
    rw [decode,if_pos hshort,he]

theorem startProgress_decodes (hsource : Delivers ctx.source Inv) {total : ℕ} {out rest : List UInt8}
    {s : RunState σ κ} (h : Decoding ctx k₀ heap Inv total out rest s) {R : CompressionResult → RunState σ κ → Prop} :
    Proc.wp (startProgress ctx) (fun _ s' => Decoding ctx k₀ heap Inv total out rest s' ∧
      meter s'.trace = meter s.trace) R (fun _ => False) s := by
  simp only [startProgress,sourceHasKnownSize,sourceTotalSize,Proc.wp_bind,Proc.wp_lift,Proc.wp_pure]
  have hmeter : meter ((s.trace ++ [.hasKnownSize (ctx.source.hasKnownSize s.source).1]) ++
      [.totalSize (ctx.source.totalSize (ctx.source.hasKnownSize s.source).2).1]) = meter s.trace := by
    simp only [meter_append_singleton,IoEvent.meter]
  refine ⟨⟨?_,hsource.totalSize_inv (hsource.hasKnownSize_inv h.source),?_,?_⟩,hmeter⟩
  · have h₁ : Running ctx k₀ heap out { s with
        source := (ctx.source.hasKnownSize s.source).2
        trace := s.trace ++ [.hasKnownSize (ctx.source.hasKnownSize s.source).1] } :=
      h.toRunning.event _ rfl rfl rfl rfl rfl rfl rfl
    exact h₁.event _ rfl rfl rfl rfl rfl rfl rfl
  · exact hmeter ▸ h.position
  · exact hmeter ▸ h.furthest

/-- A session on a source of `d`. -/
theorem decompressSession_spec (hsource : Delivers ctx.source Inv) (result : CompressionResult)
    (hresult : result = makeResult ctx.operation .ok) (n : ℕ) {d : List UInt8} {s : RunState σ κ}
    (h : Decoding ctx k₀ heap Inv d.length [] d s) (hstart : meter s.trace = ⟨0,0⟩) :
    Proc.wp (decompressSession ctx result n) (fun r s' => Decompressed d r s')
      (fun r _ => Refuses ctx k₀ heap d r) (fun _ => n ≤ d.length) s := by
  rw [decompressSession,decompressSessionBy,Proc.wp_bind]
  refine Proc.wp_mono (readFileHeader_spec hsource result h hstart) ?_ (fun _ _ h => h)
    fun _ h => h.elim
  rintro ⟨header,processed⟩ s₁ ⟨hshort,hheader,hprocessed,h₁⟩
  have hdecode := decode_of_header hshort hheader
  have hfails {corrupt : Prop} (hcorrupt : corrupt → decode d = .error .corruptData)
      {r : CompressionResult} (hr : Fails ctx k₀ heap corrupt r) : Refuses ctx k₀ heap d r :=
    ⟨hr.1,hr.2.imp_left fun hc => by rw [hcorrupt hc.2,hc.1]⟩
  rw [Proc.wp_bind]
  refine Proc.wp_mono (startProgress_decodes hsource h₁) ?_ (fun _ _ h => h) fun _ h => h.elim
  rintro progress s₂ ⟨h₂,hmeter₂⟩
  rw [Proc.wp_bind]
  refine Proc.wp_mono (decompressLoop_spec hsource header n h₂ ⟨?_,?_,?_⟩) ?_ ?_ fun s' hpending => ?_
  · rw [hresult]
    rfl
  · rw [hmeter₂]
    exact hprocessed
  · rw [hresult]
    rfl
  · rintro v s₃ ⟨o,rest,hblocks,hv,h₃⟩
    rw [List.nil_append] at hv h₃
    rw [decodeBody_of_some hblocks] at hdecode
    simp only [Proc.wp_bind,Proc.wp_returnIf]
    refine ⟨fun hsize => ⟨by simp,.inl ?_⟩,fun hsize => ?_⟩
    · rw [hdecode,if_pos ⟨fun hu => hu hsize.1,hv.outputBytes ▸ hsize.2⟩]
    have hok : decode d = .ok (o,rest) := by
      rw [hdecode,if_neg]
      exact fun h => hsize ⟨not_not.mp h.1,hv.outputBytes ▸ h.2⟩
    refine Proc.wp_mono (h₃.adds (shouldAbortForCancel_adds v.result)) ?_
      (fun r _ (hr : Fails ctx k₀ heap False r) => hfails False.elim hr) fun _ h => h.elim
    rintro _ s₄ ⟨-,h₄,hkept₄⟩
    rw [List.append_nil] at h₄
    refine Proc.wp_mono (commitSession_spec v.result h₄.toRunning) ?_
      (fun r _ hr => ⟨hr.1,.inr hr.2⟩) fun _ h => h.elim
    rintro r s₅ ⟨rfl,-,-,hwritten,hmeter⟩
    simp only [emitProgress,Proc.wp_lift,Proc.wp_pure]
    have hwritten' (report : CompressionProgress) : written (s₅.trace ++ [.progress report]) = o := by
      rw [written_append,hwritten]
      simp [IoEvent.written]
    have hmeter' (report : CompressionProgress) :
        meter (s₅.trace ++ [.progress report]) = meter s₄.trace := by
      rw [meter_append_singleton,hmeter]
      rfl
    refine ⟨rfl,⟨rest,?_,?_⟩,?_,?_,?_⟩
    · rw [hwritten',hok]
    · rw [hmeter']
      exact h₄.position
    · rw [hmeter']
      exact h₄.furthest
    · rw [hmeter',hkept₄.meter_eq]
      exact hv.processed
    · rw [hwritten']
      exact hv.outputBytes
  · exact fun r _ hr => hfails (fun hnone => hdecode.trans (decodeBody_of_none hnone)) hr
  · rw [List.length_drop] at hpending
    omega

/-- `runDecompress` on a source of `d` gives what `decode d` gives, unless it is hindered. -/
theorem runDecompress_spec (hsource : Delivers ctx.source Inv) {source : σ} {d : List UInt8}
    (hopen : (ctx.source.open' source).1 = .ok) (hinv : Inv d (ctx.source.open' source).2) (n : ℕ) :
    Proc.wp (runDecompress ctx n)
      (fun r s => Decompressed d r s ∨ Refuses ctx k₀ heap d r)
      (fun r s => Decompressed d r s ∨ Refuses ctx k₀ heap d r)
      (fun _ => n ≤ d.length) (.start source k₀ heap) := by
  rw [runDecompress,runDecompressBy,Proc.wp_bind]
  refine Proc.wp_mono (requireTransactional_spec _ rfl) ?_ (fun r _ hr => .inr ⟨hr.1,.inr hr.2⟩)
    fun _ h => h.elim
  rintro _ _ rfl
  rw [Proc.wp_destroying,Proc.wp_bind]
  refine Proc.wp_mono (openSession_spec _) ?_
    (fun r _ hr => .inr ⟨hr.1,.inr (hr.2.resolve_left (not_not.mpr hopen))⟩) fun _ h => h.elim
  rintro _ s ⟨-,hrun,hsrc,hmeter⟩
  have hdecoding : Decoding ctx k₀ heap Inv d.length [] d s :=
    ⟨hrun,hsrc ▸ hinv,by rw [hmeter]; exact Nat.zero_add _,by rw [hmeter]⟩
  refine Proc.wp_mono (decompressSession_spec hsource _ rfl n hdecoding hmeter) ?_
    (fun r _ hr => .inr hr) fun _ h => h
  rintro r s' ⟨herror,hdecoded,hfurthest,hinput,houtput⟩
  refine .inl ⟨herror,?_,?_,?_,?_⟩
  · rwa [destroySession_written,destroySession_meter]
  · rwa [destroySession_meter]
  · rwa [destroySession_meter]
  · rwa [destroySession_written]

end Compressor
end EspCompressor
