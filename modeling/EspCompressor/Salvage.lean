import EspCompressor.CancelLatency
import EspCompressor.Faults

/-! What a decompression puts into its sink, also when it fails: the data of the records that are whole and
sound, and nothing else. -/
namespace EspCompressor
namespace Container

/-- The data of the records at the front, up to the final one or up to the first that is not sound. -/
def salvageBlocks (header : EscHeader) (rest : List UInt8) : List UInt8 :=
  match _ : takeBlock header rest with
  | none => []
  | some (b,data,rest') => if b.IsFinal then data else data ++ salvageBlocks header rest'
  termination_by rest.length
  decreasing_by
    have := takeBlock_length ‹_›
    omega

/-- What can be salvaged from a byte string that ought to be a container. -/
def salvage (d : List UInt8) : List UInt8 :=
  if d.length < kEscEncodedHeaderSize then []
  else match decodeHeader (d.take kEscEncodedHeaderSize) with
    | .error _ => []
    | .ok header => salvageBlocks header (d.drop kEscEncodedHeaderSize)

section Salvage

variable {header : EscHeader} {rest data rest' : List UInt8} {b : Block}

theorem salvageBlocks_of_refused (h : takeBlock header rest = none) : salvageBlocks header rest = [] := by
  rw [salvageBlocks]
  split
  · rfl
  · rename_i hsome
    rw [h] at hsome
    cases hsome

theorem salvageBlocks_of_taken (h : takeBlock header rest = some (b,data,rest')) :
    salvageBlocks header rest = if b.IsFinal then data else data ++ salvageBlocks header rest' := by
  rw [salvageBlocks]
  split
  · rename_i hnone
    rw [h] at hnone
    cases hnone
  · rename_i b₁ data₁ rest₁ hsome
    rw [h] at hsome
    obtain ⟨rfl,rfl,rfl⟩ : b = b₁ ∧ data = data₁ ∧ rest' = rest₁ := by simpa using hsome
    rfl

theorem salvageBlocks_bytes (h : b.WellFormed header data) (rest : List UInt8) :
    salvageBlocks header (b.bytes ++ rest) = if b.IsFinal then data else data ++ salvageBlocks header rest :=
  salvageBlocks_of_taken (takeBlock_eq_some_iff.mpr ⟨h,rfl⟩)

@[simp] theorem salvageBlocks_nil : salvageBlocks header [] = [] := 
  salvageBlocks_of_refused (takeBlock_short (by decide))

/-- What has been salvaged stays, whatever comes after it. -/
theorem salvageBlocks_prefix (header : EscHeader) {rest more : List UInt8} (h : rest <+: more) :
    salvageBlocks header rest <+: salvageBlocks header more := by
  obtain ⟨after,rfl⟩ := h
  induction rest using salvageBlocks.induct header with
  | case1 rest hnone =>
    rw [salvageBlocks_of_refused hnone]
    exact List.nil_prefix
  | case2 rest b data rest' htake hfinal =>
    obtain ⟨hb,rfl⟩ := takeBlock_eq_some_iff.mp htake
    rw [List.append_assoc,salvageBlocks_bytes hb,salvageBlocks_bytes hb,if_pos hfinal,if_pos hfinal]
  | case3 rest b data rest' htake hfinal ih =>
    obtain ⟨hb,rfl⟩ := takeBlock_eq_some_iff.mp htake
    rw [List.append_assoc,salvageBlocks_bytes hb,salvageBlocks_bytes hb,if_neg hfinal,if_neg hfinal]
    exact (List.prefix_append_right_inj data).mpr ih

theorem salvageBlocks_of_decodeBlocks {o : List UInt8} (h : decodeBlocks header rest = some (o,rest')) :
    salvageBlocks header rest = o := by
  obtain ⟨blocks,hblocks,rfl⟩ := decodeBlocks_some h
  clear h
  induction hblocks with
  | last hb hfinal =>
    rw [List.flatMap_cons,List.flatMap_nil,List.append_nil,salvageBlocks_bytes hb,if_pos hfinal]
  | cons hb hfinal _ ih =>
    rw [List.flatMap_cons,List.append_assoc,salvageBlocks_bytes hb,if_neg hfinal,ih]

end Salvage

theorem salvage_of_header {bytes : List UInt8} {header : EscHeader} (hlen : bytes.length = kEscEncodedHeaderSize)
    (h : decodeHeader bytes = .ok header) (body : List UInt8) :
    salvage (bytes ++ body) = salvageBlocks header body := by
  have hshort : ¬(bytes ++ body).length < kEscEncodedHeaderSize := by
    rw [List.length_append]
    omega
  rw [salvage,if_neg hshort,← hlen,List.take_left,List.drop_left,h]

theorem salvage_of_badHeader {d : List UInt8} (h : ∀ header, ¬d.length < kEscEncodedHeaderSize →
    decodeHeader (d.take kEscEncodedHeaderSize) ≠ .ok header) : salvage d = [] := by
  rw [salvage]
  split_ifs with hshort
  · rfl
  · cases hheader : decodeHeader (d.take kEscEncodedHeaderSize) with
    | error e => rfl
    | ok header => exact absurd hheader (h header hshort)

theorem salvage_mono {d d' : List UInt8} (h : d <+: d') : salvage d <+: salvage d' := by
  by_cases hbad : ∀ header, ¬d.length < kEscEncodedHeaderSize →
      decodeHeader (d.take kEscEncodedHeaderSize) ≠ .ok header
  · rw [salvage_of_badHeader hbad]
    exact List.nil_prefix
  · push Not at hbad
    obtain ⟨header,hshort,hheader⟩ := hbad
    have hlen : (d.take kEscEncodedHeaderSize).length = kEscEncodedHeaderSize := by
      rw [List.length_take]
      exact min_eq_left hshort
    obtain ⟨after,rfl⟩ := h
    have hd : d = d.take kEscEncodedHeaderSize ++ d.drop kEscEncodedHeaderSize := (List.take_append_drop _ _).symm
    have hmore : d ++ after = d.take kEscEncodedHeaderSize ++ (d.drop kEscEncodedHeaderSize ++ after) := by
      rw [← List.append_assoc,List.take_append_drop]
    rw [hmore,salvage_of_header hlen hheader]
    nth_rewrite 1 [hd]
    rw [salvage_of_header hlen hheader]
    exact salvageBlocks_prefix header (List.prefix_append _ _)

/-- A container is salvaged whole. -/
theorem salvage_of_decode {d o rest : List UInt8} (h : decode d = .ok (o,rest)) : salvage d = o := by
  by_cases hshort : d.length < kEscEncodedHeaderSize
  · rw [decode,if_pos hshort] at h
    cases h
  · cases hheader : decodeHeader (d.take kEscEncodedHeaderSize) with
    | error e =>
      rw [decode_of_badHeader hshort hheader] at h
      cases h
    | ok header =>
      rw [decode_of_header hshort hheader] at h
      rw [salvage,if_neg hshort,hheader]
      cases hblocks : decodeBlocks header (d.drop kEscEncodedHeaderSize) with
      | none =>
        rw [decodeBody_of_none hblocks] at h
        cases h
      | some r =>
        rw [decodeBody_of_some hblocks] at h
        split_ifs at h
        obtain rfl := Except.ok.inj h
        exact salvageBlocks_of_decodeBlocks hblocks

end Container

theorem IoEvent.EndsSession.delivered_nil {e : IoEvent} (h : e.EndsSession) : e.delivered = [] := by
  cases e <;> first | rfl | exact h.elim

theorem FaultyTrace.delivered_eq {trace before : List IoEvent} {failed : IoEvent} {error : CompressionError}
    (h : FaultyTrace trace before failed error) : delivered trace = delivered (before ++ [failed.cleared]) := by
  obtain ⟨last,rfl,hlast⟩ := h.trace_eq
  have hends : delivered last = [] := List.flatMap_eq_nil_iff.mpr fun e he => (hlast e he).delivered_nil
  have hfailed : delivered [failed] = delivered [failed.cleared] := by cases failed <;> rfl
  rw [← List.singleton_append,delivered_append,delivered_append,delivered_append,hends,hfailed,List.append_nil]

namespace Compressor

open EscFormat Container

variable {σ κ ρ : Type} {ctx : RunContext σ κ}

/-! ### Any source -/

/-- The calls deliver `taken` and write `out`, and nothing is written before all of `taken` is delivered. -/
structure Relays (taken out : List UInt8) (calls : List IoEvent) : Prop where
  delivered_eq : delivered calls = taken
  written_eq : written calls = out
  ordered : ∀ before, before <+: calls → written before = [] ∨ delivered before = taken

/-- The calls between two states. -/
def Carries (taken out : List UInt8) (s s' : RunState σ κ) : Prop :=
  ∃ calls, s'.trace = s.trace ++ calls ∧ Relays taken out calls

/-- The run stops with nothing written since `s`. -/
def Withheld (s s' : RunState σ κ) : Prop := ∃ taken, Carries taken [] s s'

theorem prefix_append_cases {α : Type} {front first second : List α} (h : front <+: first ++ second) :
    front <+: first ∨ ∃ more, more <+: second ∧ front = first ++ more := by
  obtain hfront | ⟨more,rfl⟩ := List.prefix_or_prefix_of_prefix h (List.prefix_append first second)
  · exact .inl hfront
  · exact .inr ⟨more,(List.prefix_append_right_inj first).mp h,rfl⟩

theorem Relays.nothing {taken : List UInt8} {calls before : List IoEvent} (h : Relays taken [] calls)
    (hbefore : before <+: calls) : written before = [] := by
  have hwritten := written_mono hbefore
  rw [h.written_eq] at hwritten
  exact List.prefix_nil.mp hwritten

theorem Relays.append {taken taken' out : List UInt8} {calls calls' : List IoEvent} (h : Relays taken [] calls)
    (h' : Relays taken' out calls') : Relays (taken ++ taken') out (calls ++ calls') := by
  refine ⟨?_,?_,fun before hbefore => ?_⟩
  · rw [delivered_append,h.delivered_eq,h'.delivered_eq]
  · rw [written_append,h.written_eq,h'.written_eq,List.nil_append]
  · obtain hbefore | ⟨more,hmore,rfl⟩ := prefix_append_cases hbefore
    · exact .inl (h.nothing hbefore)
    · rw [written_append,h.written_eq,List.nil_append,delivered_append,h.delivered_eq,List.append_right_inj]
      exact h'.ordered more hmore

theorem Relays.append_still {taken out : List UInt8} {calls calls' : List IoEvent} (h : Relays taken out calls)
    (h' : Relays [] [] calls') : Relays taken out (calls ++ calls') := by
  refine ⟨?_,?_,fun before hbefore => ?_⟩
  · rw [delivered_append,h.delivered_eq,h'.delivered_eq,List.append_nil]
  · rw [written_append,h.written_eq,h'.written_eq,List.append_nil]
  · obtain hbefore | ⟨more,hmore,rfl⟩ := prefix_append_cases hbefore
    · exact h.ordered before hbefore
    · refine .inr ?_
      have hmore' : delivered more = [] := by
        obtain ⟨after,rfl⟩ := hmore
        have hdelivered := h'.delivered_eq
        rw [delivered_append] at hdelivered
        exact (List.append_eq_nil_iff.mp hdelivered).1
      rw [delivered_append,h.delivered_eq,hmore',List.append_nil]

/-- A call that delivers or that writes. -/
theorem Relays.call {taken out : List UInt8} {e : IoEvent} (htaken : e.delivered = taken) (hout : e.written = out) :
    Relays taken out [e] := by
  refine ⟨by rw [delivered_singleton,htaken],by rw [written_cons,written_nil,List.append_nil,hout],fun before hbefore => ?_⟩
  obtain rfl | hnil := List.prefix_concat_iff.mp (show before <+: [] ++ [e] from hbefore)
  · exact .inr (by rw [List.nil_append,delivered_singleton,htaken])
  · exact .inl (by rw [List.prefix_nil.mp hnil,written_nil])

theorem Carries.call {taken out : List UInt8} {s s' : RunState σ κ} {e : IoEvent} (htrace : s'.trace = s.trace ++ [e])
    (htaken : e.delivered = taken) (hout : e.written = out) : Carries taken out s s' :=
  ⟨[e],htrace,.call htaken hout⟩

/-- No call. -/
theorem Carries.quiet {s s' : RunState σ κ} (htrace : s'.trace = s.trace) : Carries [] [] s s' :=
  ⟨[],by rw [htrace,List.append_nil],rfl,rfl,fun before hbefore => .inl (by rw [List.prefix_nil.mp hbefore,written_nil])⟩

theorem Carries.trans {taken taken' out : List UInt8} {s s' s'' : RunState σ κ} (h : Carries taken [] s s')
    (h' : Carries taken' out s' s'') : Carries (taken ++ taken') out s s'' := by
  obtain ⟨calls,htrace,hcalls⟩ := h
  obtain ⟨calls',htrace',hcalls'⟩ := h'
  exact ⟨calls ++ calls',by rw [htrace',htrace,List.append_assoc],hcalls.append hcalls'⟩

theorem Carries.still {taken out : List UInt8} {s s' s'' : RunState σ κ} (h : Carries taken out s s')
    (h' : Carries [] [] s' s'') : Carries taken out s s'' := by
  obtain ⟨calls,htrace,hcalls⟩ := h
  obtain ⟨calls',htrace',hcalls'⟩ := h'
  exact ⟨calls ++ calls',by rw [htrace',htrace,List.append_assoc],hcalls.append_still hcalls'⟩

theorem Carries.delivered_eq {taken out : List UInt8} {s s' : RunState σ κ} (h : Carries taken out s s') :
    delivered s'.trace = delivered s.trace ++ taken := by
  obtain ⟨calls,htrace,hcalls⟩ := h
  rw [htrace,delivered_append,hcalls.delivered_eq]

theorem Carries.written_eq {taken out : List UInt8} {s s' : RunState σ κ} (h : Carries taken out s s') :
    written s'.trace = written s.trace ++ out := by
  obtain ⟨calls,htrace,hcalls⟩ := h
  rw [htrace,written_append,hcalls.written_eq]

theorem Withheld.refl (s : RunState σ κ) : Withheld s s := ⟨[],.quiet rfl⟩

theorem Withheld.written_eq {s s' : RunState σ κ} (h : Withheld s s') : written s'.trace = written s.trace := by
  obtain ⟨taken,hcarries⟩ := h
  rw [hcarries.written_eq,List.append_nil]

theorem Carries.withheld {taken : List UInt8} {s s' s'' : RunState σ κ} (h : Carries taken [] s s')
    (h' : Withheld s' s'') : Withheld s s'' := by
  obtain ⟨taken',hmore⟩ := h'
  exact ⟨_,h.trans hmore⟩

theorem shouldAbortForCancel_carries (r : CompressionResult) (s : RunState σ κ) :
    Proc.wp (shouldAbortForCancel ctx r) (fun _ s' => Carries [] [] s s') (fun _ s' => Withheld s s')
      (fun _ => False) s := by
  simp only [shouldAbortForCancel,Proc.wp_bind,loadCancel,Proc.wp_lift,Proc.wp_returnIf]
  have hload : Carries [] [] s { s with
      loads := s.loads + 1, trace := s.trace ++ [.cancelLoad (ctx.cancelRequested s.loads)] } := .call rfl rfl rfl
  exact ⟨fun _ => ⟨[],hload⟩,fun _ => hload⟩

theorem readLoop_carries {source : CompressionSource σ} {size : ℕ} (n : ℕ) (p : List UInt8 × UInt64)
    {s : RunState σ κ} (hp : p.1.length ≤ size) (hn : size < p.1.length + n) :
    Proc.wp (Proc.loop (readRound source size) n p)
      (fun q s' => q.1.length = size ∧ ∃ bytes, q.1 = p.1 ++ bytes ∧ Carries bytes [] s s')
      (fun _ s' => Withheld s s') (fun _ => False) s := by
  induction n generalizing p s with
  | zero => omega
  | succ n ih =>
    rw [Proc.wp_loop_succ]
    simp only [readRound,Proc.wp_ite,Proc.wp_bind,readSource,Proc.wp_lift,Proc.wp_returnIf,Proc.wp_pure]
    refine ⟨fun hmore => ?_,fun hfull => ?_⟩
    · generalize source.read (size - p.1.length) s.source = r
      obtain ⟨⟨err,data,hfits⟩,source'⟩ := r
      have hread : Carries data [] s { s with
          source := source', trace := s.trace ++ [.read (size - p.1.length) err data] } := .call rfl rfl rfl
      refine ⟨fun _ => ⟨data,hread⟩,fun _ => ⟨fun _ => ⟨data,hread⟩,fun hsome => ?_⟩⟩
      have hlength : (p.1 ++ data).length = p.1.length + data.length := List.length_append
      refine Proc.wp_mono (ih (p.1 ++ data,p.2 + UInt64.ofNat data.length) ?_ ?_) (fun q s' h' => ?_)
        (fun _ _ h' => hread.withheld h') fun _ h' => h'
      · dsimp only at hlength ⊢
        omega
      · dsimp only at hlength hsome ⊢
        omega
      · obtain ⟨hsize,bytes,hbytes,hcarries⟩ := h'
        exact ⟨hsize,data ++ bytes,by rw [hbytes,List.append_assoc],hread.trans hcarries⟩
    · exact ⟨by omega,[],(List.append_nil _).symm,.quiet rfl⟩

theorem readOrReturn_carries (r : CompressionResult) (size : ℕ) (processed : UInt64) (s : RunState σ κ) :
    Proc.wp (readOrReturn ctx r size processed) (fun p s' => p.1.length = size ∧ Carries p.1 [] s s')
      (fun _ s' => Withheld s s') (fun _ => False) s := by
  rw [readOrReturn,Proc.wp_mapReturn,readExact]
  refine Proc.wp_mono (readLoop_carries (size + 1) ([],processed) (Nat.zero_le _) (by simp)) (fun q s' h => ?_)
    (fun _ _ h => h) fun _ h => h
  obtain ⟨hsize,bytes,hbytes,hcarries⟩ := h
  refine ⟨hsize,?_⟩
  rw [show q.1 = bytes from hbytes]
  exact hcarries

theorem readPayload_carries (v : DecompressVars) (storedSize : ℕ) (s : RunState σ κ) :
    Proc.wp (readPayload ctx v storedSize)
      (fun v' s' => v'.result = v.result ∧ v'.storedBlock.contents.length = storedSize ∧
        Carries v'.storedBlock.contents [] s s')
      (fun _ s' => Withheld s s') (fun _ => False) s := by
  simp only [readPayload,Proc.wp_bind,onBuffer,Proc.wp_lift,Proc.wp_returnIf,Proc.wp_ite,Proc.wp_pure]
  obtain ⟨-,hsize,-⟩ := MemoryBuffer.resize_spec storedSize ⟨v.storedBlock,s.heap⟩
  generalize MemoryBuffer.resize storedSize ⟨v.storedBlock,s.heap⟩ = r at hsize ⊢
  obtain ⟨done,buffer,heap⟩ := r
  have hheap : Carries [] [] s { s with heap := heap } := .quiet rfl
  refine ⟨fun _ => ⟨[],hheap⟩,fun hdone => ?_⟩
  obtain ⟨hsize,-⟩ := hsize (Bool.eq_true_of_not_eq_false hdone)
  refine ⟨fun _ => ?_,fun hzero => ?_⟩
  · refine Proc.wp_mono (readOrReturn_carries v.result storedSize _ _) (fun p s' h => ?_)
      (fun _ _ h => hheap.withheld h) fun _ h => h
    obtain ⟨hlen,hcarries⟩ := h
    have hstored : (buffer.store 0 p.1).contents = p.1 := MemoryBuffer.store_contents _ _ (by rw [hlen,hsize])
    dsimp only
    rw [hstored]
    exact ⟨trivial,hlen,hheap.trans hcarries⟩
  · have hnil : buffer.contents = [] := by
      rw [← List.length_eq_zero_iff,MemoryBuffer.contents_length,hsize]
      exact not_not.mp hzero
    rw [MemoryBuffer.contents_length,hnil]
    exact ⟨trivial,hsize,hheap⟩

theorem emitProgress_carries {R : CompressionResult → RunState σ κ → Prop} (progress : CompressionProgress)
    (r : CompressionResult) (done : Bool) (s : RunState σ κ) :
    Proc.wp (emitProgress progress r done) (fun _ s' => Carries [] [] s s') R (fun _ => False) s :=
  Carries.call rfl rfl rfl

theorem startProgress_carries {R : CompressionResult → RunState σ κ → Prop} (s : RunState σ κ) :
    Proc.wp (startProgress ctx) (fun _ s' => Carries [] [] s s') R (fun _ => False) s := by
  simp only [startProgress,sourceHasKnownSize,sourceTotalSize,Proc.wp_bind,Proc.wp_lift,Proc.wp_pure]
  have hknown : Carries [] [] s { s with
      source := (ctx.source.hasKnownSize s.source).2
      trace := s.trace ++ [.hasKnownSize (ctx.source.hasKnownSize s.source).1] } := .call rfl rfl rfl
  exact hknown.trans (.call rfl rfl rfl)

theorem commitSession_carries (r : CompressionResult) (s : RunState σ κ) :
    Proc.wp (commitSession ctx r) (fun _ s' => Carries [] [] s s') (fun _ s' => Withheld s s') (fun _ => False) s := by
  simp only [commitSession,commitSink,check,Proc.wp_bind,Proc.wp_lift,Proc.wp_returnIf,Proc.wp_modify,Proc.wp_pure]
  exact ⟨fun _ => ⟨[],.call rfl rfl rfl⟩,fun _ => .call rfl rfl rfl⟩

theorem writeOrReturn_carries (r : CompressionResult) (bytes : List UInt8) (s : RunState σ κ) :
    Proc.wp (writeOrReturn ctx.sink r bytes) (fun _ s' => Carries [] bytes s s') (fun _ s' => Withheld s s')
      (fun _ => False) s := by
  simp only [writeOrReturn,writeSink,check,Proc.wp_bind,Proc.wp_lift,Proc.wp_returnIf]
  generalize ctx.sink.write bytes s.sink = w
  obtain ⟨e,sink'⟩ := w
  refine ⟨fun hfailed => ⟨[],.call rfl rfl ?_⟩,fun hok => .call rfl rfl ?_⟩
  · exact IoEvent.written_of_fault hfailed
  · rw [not_not.mp hok]
    rfl

/-- Decoding a payload into a local buffer. -/
theorem decodePayload_carries {R : CompressionResult → RunState σ κ → Prop} (buffer : MemoryBuffer) (payload : List UInt8)
    (n : ℕ) (s : RunState σ κ) :
    Proc.wp (callWith buffer (Codec.decompressLzLiteBlock payload n))
      (fun r s' => Carries [] [] s s' ∧ (r.1 = .ok → LzLite.decodeBlock payload n = some r.2.buffer.contents))
      R (fun _ => False) s := by
  rw [callWith,Proc.wp_callOn]
  have hresult : ∀ (e : CompressionError) (t : BufferState), Codec.Decoded payload n ⟨buffer,s.heap⟩ e t →
      Carries [] [] s { s with heap := t.heap } ∧ (e = .ok → LzLite.decodeBlock payload n = some t.buffer.contents) := by
    rintro e t ⟨-,⟨-,hdata⟩ | ⟨rfl,-⟩ | ⟨rfl,-⟩⟩
    · exact ⟨.quiet rfl,fun _ => hdata⟩
    · exact ⟨.quiet rfl,by simp⟩
    · exact ⟨.quiet rfl,by simp⟩
  exact Proc.wp_mono (Codec.decompressLzLiteBlock_spec payload n ⟨buffer,s.heap⟩) hresult hresult fun _ h => h

theorem writeBlock_carries (v : DecompressVars) (b : Block) (hpayload : v.storedBlock.contents = b.payload)
    (s : RunState σ κ) :
    Proc.wp (writeBlock ctx v b.header)
      (fun v' s' => ∃ data, b.data = some data ∧ espCompressorCrc32 data = b.header.crc32 ∧
        v'.result.outputBytes = v.result.outputBytes + UInt64.ofNat data.length ∧ Carries [] data s s')
      (fun _ s' => Withheld s s') (fun _ => False) s := by
  rw [writeBlock,writeBlockBy,Proc.wp_ite]
  refine ⟨fun hraw => ?_,fun hraw => ?_⟩
  · simp only [writeRawBlock,Proc.wp_bind,Proc.wp_returnIf,Proc.wp_pure,hpayload]
    refine ⟨fun _ => .refl s,fun _ => ⟨fun _ => .refl s,fun hcrc => ?_⟩⟩
    exact Proc.wp_mono (writeOrReturn_carries v.result b.payload s)
      (fun _ _ h => ⟨b.payload,if_pos hraw,not_not.mp hcrc,by rw [← hpayload,MemoryBuffer.contents_length],h⟩)
      (fun _ _ h => h) fun _ h => h
  · have hdata : b.data = LzLite.decodeBlock b.payload b.header.originalSize.toNat := if_neg hraw
    rw [writeLzBlockBy,Proc.wp_bind,hpayload,hdata]
    refine Proc.wp_mono (decodePayload_carries v.outputBlock b.payload _ s) (fun r s₁ h₁ => ?_) (fun _ _ h => h)
      fun _ h => h
    obtain ⟨hcarries,hdecoded⟩ := h₁
    simp only [check,Proc.wp_bind,Proc.wp_returnIf,Proc.wp_pure]
    refine ⟨fun _ => ⟨[],hcarries⟩,fun hok => ⟨fun _ => ⟨[],hcarries⟩,fun hcrc => ?_⟩⟩
    exact Proc.wp_mono (writeOrReturn_carries v.result r.2.buffer.contents s₁)
      (fun _ _ h => ⟨_,hdecoded (not_not.mp hok),not_not.mp hcrc,by rw [MemoryBuffer.contents_length],hcarries.trans h⟩)
      (fun _ _ h => hcarries.withheld h) fun _ h => h

/-- One round writes the data of one sound record, which it has been delivered whole, or it writes nothing. -/
theorem decompressRound_carries (header : EscHeader) (v : DecompressVars) (s : RunState σ κ) :
    Proc.wp (decompressRound ctx header v)
      (fun c s' => ∃ (b : Block) (data : List UInt8) (v' : DecompressVars), b.WellFormed header data ∧
        v'.result.outputBytes = v.result.outputBytes + UInt64.ofNat data.length ∧ Carries b.bytes data s s' ∧
        c = (if b.IsFinal then .inr v' else .inl v'))
      (fun _ s' => Withheld s s') (fun _ => False) s := by
  rw [decompressRound,decompressRoundBy,Proc.wp_bind]
  refine Proc.wp_mono (shouldAbortForCancel_carries v.result s) (fun _ s₁ h₁ => ?_) (fun _ _ h => h) fun _ h => h
  rw [Proc.wp_bind]
  refine Proc.wp_mono (readOrReturn_carries v.result kEscEncodedBlockHeaderSize _ s₁) (fun p s₂ h₂ => ?_)
    (fun _ _ h => h₁.withheld h) fun _ h => h
  obtain ⟨bytes,processed⟩ := p
  obtain ⟨hlen,h₂⟩ := h₂
  obtain ⟨blockHeader,hdecode,rfl⟩ := decodeEscBlockHeader_spec hlen {}
  have hread := h₁.trans h₂
  simp only [hdecode,Proc.wp_bind,check,Proc.wp_returnIf]
  refine ⟨fun _ => ⟨_,hread⟩,fun _ => ⟨fun _ => ⟨_,hread⟩,fun hvalid => ?_⟩⟩
  refine Proc.wp_mono (readPayload_carries { v with processedCompressedInput := processed } blockHeader.storedSize.toNat s₂)
    (fun v₃ s₃ h₃ => ?_) (fun _ _ h => hread.withheld h) fun _ h => h
  obtain ⟨hresult,hstored,h₃⟩ := h₃
  let b : Block := ⟨blockHeader,v₃.storedBlock.contents⟩
  have hpayload := hread.trans h₃
  refine Proc.wp_mono (writeBlock_carries v₃ b rfl s₃) (fun v₄ s₄ h₄ => ?_) (fun _ _ h => hpayload.withheld h)
    fun _ h => h
  obtain ⟨data,hdata,hcrc,houtput,h₄⟩ := h₄
  obtain ⟨hblock,hle,hpos,hraw⟩ := (validateEscBlockBounds_iff header b).mp (Bool.eq_true_of_not_eq_false hvalid)
  refine Proc.wp_mono (emitProgress_carries _ _ false s₄) (fun progress s₅ h₅ => ?_) (fun _ _ h => h) fun _ h => h
  rw [hresult] at houtput
  refine ⟨b,data,_,⟨hblock,hle,hpos,hraw,hstored,hdata,hcrc⟩,?_,?_,rfl⟩
  · exact houtput
  have hwhole := (hpayload.trans h₄).still h₅
  rw [List.append_nil] at hwhole
  exact hwhole

/-- At every moment, what has been written is data of sound records that have been delivered by then. -/
def Vouched (trace : List IoEvent) : Prop := ∀ before, before <+: trace → written before <+: salvage (delivered before)

theorem salvage_delivered_mono {trace more : List IoEvent} (h : trace <+: more) :
    salvage (delivered trace) <+: salvage (delivered more) := by
  obtain ⟨after,rfl⟩ := h
  rw [delivered_append]
  exact salvage_mono (List.prefix_append _ _)

theorem Vouched.nil : Vouched [] := fun before hbefore => by
  rw [List.prefix_nil.mp hbefore]
  exact List.nil_prefix

theorem Vouched.append {trace calls : List IoEvent} {taken : List UInt8} (h : Vouched trace) (hcalls : Relays taken [] calls) :
    Vouched (trace ++ calls) := by
  intro before hbefore
  obtain hbefore | ⟨more,hmore,rfl⟩ := prefix_append_cases hbefore
  · exact h before hbefore
  · rw [written_append,hcalls.nothing hmore,List.append_nil]
    exact (h trace (List.prefix_refl _)).trans (salvage_delivered_mono (List.prefix_append _ _))

theorem Withheld.vouched {s s' : RunState σ κ} (h : Withheld s s') (hs : Vouched s.trace) : Vouched s'.trace := by
  obtain ⟨taken,calls,htrace,hcalls⟩ := h
  rw [htrace]
  exact hs.append hcalls

/-- After the file header, whose bytes are given: the records delivered so far have been written. -/
structure Between (header : EscHeader) (bytes : List UInt8) (s : RunState σ κ) : Prop where
  length_eq : bytes.length = kEscEncodedHeaderSize
  header_eq : decodeHeader bytes = .ok header
  vouched : Vouched s.trace
  records : ∃ taken, delivered s.trace = bytes ++ taken ∧
    (∀ more, salvageBlocks header (taken ++ more) = written s.trace ++ salvageBlocks header more) ∧
    ∀ more, decodeBlocks header (taken ++ more) = (decodeBlocks header more).map fun r => (written s.trace ++ r.1,r.2)

/-- After the final record: all of them have been delivered, and written. -/
structure Whole (header : EscHeader) (bytes : List UInt8) (s : RunState σ κ) : Prop where
  length_eq : bytes.length = kEscEncodedHeaderSize
  header_eq : decodeHeader bytes = .ok header
  vouched : Vouched s.trace
  records : ∃ taken, delivered s.trace = bytes ++ taken ∧ decodeBlocks header taken = some (written s.trace,[])

theorem Between.quiet {header : EscHeader} {bytes : List UInt8} {s s' : RunState σ κ} (h : Between header bytes s)
    (hcarries : Carries [] [] s s') : Between header bytes s' := by
  have hvouched := Withheld.vouched ⟨[],hcarries⟩ h.vouched
  have hdelivered := hcarries.delivered_eq
  have hwritten := hcarries.written_eq
  rw [List.append_nil] at hdelivered hwritten
  have hrecords := h.records
  rw [← hdelivered,← hwritten] at hrecords
  exact ⟨h.length_eq,h.header_eq,hvouched,hrecords⟩

/-- What has been written is right also while the next record comes in. -/
theorem Between.vouched_more {header : EscHeader} {bytes data : List UInt8} {s s' : RunState σ κ} {b : Block}
    (h : Between header bytes s) (hb : b.WellFormed header data) (hcarries : Carries b.bytes data s s') :
    Vouched s'.trace := by
  obtain ⟨taken,hdelivered,hsalvage,-⟩ := h.records
  obtain ⟨calls,htrace,hcalls⟩ := hcarries
  rw [htrace]
  intro before hbefore
  obtain hbefore | ⟨more,hmore,rfl⟩ := prefix_append_cases hbefore
  · exact h.vouched before hbefore
  · rw [written_append]
    obtain hnothing | hall := hcalls.ordered more hmore
    · rw [hnothing,List.append_nil]
      exact (h.vouched s.trace (List.prefix_refl _)).trans (salvage_delivered_mono (List.prefix_append _ _))
    · have hsalvaged : salvageBlocks header (taken ++ b.bytes) = written s.trace ++ data := by
        have hlast := salvageBlocks_bytes hb []
        rw [List.append_nil,salvageBlocks_nil,List.append_nil,ite_self] at hlast
        rw [hsalvage,hlast]
      rw [delivered_append,hall,hdelivered,List.append_assoc,salvage_of_header h.length_eq h.header_eq,hsalvaged]
      have hmore' := written_mono hmore
      rw [hcalls.written_eq] at hmore'
      exact (List.prefix_append_right_inj _).mpr hmore'

/-- One record more. -/
theorem Between.more {header : EscHeader} {bytes data : List UInt8} {s s' : RunState σ κ} {b : Block}
    (h : Between header bytes s) (hb : b.WellFormed header data) (hcarries : Carries b.bytes data s s') :
    if b.IsFinal then Whole header bytes s' else Between header bytes s' := by
  have hvouched := h.vouched_more hb hcarries
  obtain ⟨taken,hdelivered,hsalvage,hdecode⟩ := h.records
  have hdelivered' : delivered s'.trace = bytes ++ (taken ++ b.bytes) := by
    rw [hcarries.delivered_eq,hdelivered,List.append_assoc]
  have htake : ∀ more, takeBlock header (b.bytes ++ more) = some (b,data,more) := fun more =>
    takeBlock_eq_some_iff.mpr ⟨hb,rfl⟩
  split_ifs with hfinal
  · refine ⟨h.length_eq,h.header_eq,hvouched,taken ++ b.bytes,hdelivered',?_⟩
    have hlast := htake []
    rw [List.append_nil] at hlast
    rw [hdecode,decodeBlocks_of_taken hlast,if_pos hfinal,hcarries.written_eq]
    rfl
  · refine ⟨h.length_eq,h.header_eq,hvouched,taken ++ b.bytes,hdelivered',fun more => ?_,fun more => ?_⟩
    · rw [List.append_assoc,hsalvage,salvageBlocks_bytes hb,if_neg hfinal,hcarries.written_eq,List.append_assoc]
    · rw [List.append_assoc,hdecode,decodeBlocks_of_taken (htake more),if_neg hfinal,Option.map_map,hcarries.written_eq]
      simp [Function.comp_def]

theorem decompressLoop_vouched {header : EscHeader} {bytes : List UInt8} (n : ℕ) (v : DecompressVars)
    {s : RunState σ κ} (h : Between header bytes s) (hv : v.result.outputBytes = UInt64.ofNat (written s.trace).length) :
    Proc.wp (Proc.loop (decompressRound ctx header) n v)
      (fun v' s' => Whole header bytes s' ∧ v'.result.outputBytes = UInt64.ofNat (written s'.trace).length)
      (fun _ s' => Vouched s'.trace) (fun s' => Vouched s'.trace) s := by
  refine Proc.wp_loop
    (I := fun v s => Between header bytes s ∧ v.result.outputBytes = UInt64.ofNat (written s.trace).length)
    (fun v s h => ?_) (fun _ _ h => h.1.vouched) n v ⟨h,hv⟩
  obtain ⟨hbetween,hv⟩ := h
  refine Proc.wp_mono (decompressRound_carries header v s) (fun c s' hround => ?_)
    (fun _ _ hstopped => hstopped.vouched hbetween.vouched) fun _ hno => hno.elim
  obtain ⟨b,data,v',hb,houtput,hcarries,rfl⟩ := hround
  have hmore := hbetween.more hb hcarries
  have hv' : v'.result.outputBytes = UInt64.ofNat (written s'.trace).length := by
    rw [houtput,hv,hcarries.written_eq,List.length_append,UInt64.ofNat_add]
  by_cases hfinal : b.IsFinal
  · rw [if_pos hfinal] at hmore ⊢
    exact ⟨hmore,hv'⟩
  · rw [if_neg hfinal] at hmore ⊢
    exact ⟨hmore,hv'⟩

/-- All that has been delivered is one container, and all of its data has been written. -/
def DecodesAll (trace : List IoEvent) : Prop := decode (delivered trace) = .ok (written trace,[])

theorem DecodesAll.quiet {s s' : RunState σ κ} (h : DecodesAll s.trace) (hcarries : Carries [] [] s s') :
    DecodesAll s'.trace := by
  have hdelivered := hcarries.delivered_eq
  have hwritten := hcarries.written_eq
  rw [List.append_nil] at hdelivered hwritten
  rw [DecodesAll,hdelivered,hwritten]
  exact h

/-- The check of the size makes it a container. -/
theorem Whole.decodesAll {header : EscHeader} {bytes : List UInt8} {s : RunState σ κ} {v : DecompressVars}
    (h : Whole header bytes s) (hv : v.result.outputBytes = UInt64.ofNat (written s.trace).length)
    (hsize : ¬(header.flags &&& kEscHeaderFlagUnknownOriginalSize = 0 ∧ v.result.outputBytes ≠ header.originalSize)) :
    DecodesAll s.trace := by
  obtain ⟨taken,hdelivered,hblocks⟩ := h.records
  have hshort : ¬(bytes ++ taken).length < kEscEncodedHeaderSize := by
    rw [List.length_append,h.length_eq]
    omega
  have hheader : decodeHeader ((bytes ++ taken).take kEscEncodedHeaderSize) = .ok header := by
    rw [← h.length_eq,List.take_left]
    exact h.header_eq
  rw [DecodesAll,hdelivered,decode_of_header hshort hheader,← h.length_eq,List.drop_left,decodeBody_of_some hblocks,if_neg]
  rintro ⟨hknown,hne⟩
  refine hsize ⟨not_not.mp hknown,?_⟩
  rw [hv]
  exact hne

/-- The file header, read from any source. -/
theorem readFileHeader_carries (r : CompressionResult) (s : RunState σ κ) :
    Proc.wp (readFileHeader ctx r)
      (fun p s' => ∃ bytes, bytes.length = kEscEncodedHeaderSize ∧ decodeHeader bytes = .ok p.1 ∧ Carries bytes [] s s')
      (fun _ s' => Withheld s s') (fun _ => False) s := by
  rw [readFileHeader,Proc.wp_bind]
  refine Proc.wp_mono (readOrReturn_carries r kEscEncodedHeaderSize 0 s) (fun p s' h => ?_) (fun _ _ h => h) fun _ h => h
  obtain ⟨hlen,hcarries⟩ := h
  simp only [Proc.wp_bind,check,Proc.wp_returnIf,Proc.wp_pure]
  refine ⟨fun _ => ⟨_,hcarries⟩,fun he => ⟨fun _ => ⟨_,hcarries⟩,fun hversion => ⟨fun _ => ⟨_,hcarries⟩,
    fun halgorithm => ⟨fun _ => ⟨_,hcarries⟩,fun hsize => ⟨p.1,hlen,?_,hcarries⟩⟩⟩⟩⟩
  unfold decodeHeader
  rw [if_neg he,if_neg hversion,if_neg halgorithm,if_neg hsize]

theorem decompressSession_vouched (ctx : RunContext σ κ) (r : CompressionResult) (hr : r.outputBytes = 0) (n : ℕ) {s : RunState σ κ}
    (hstart : Vouched s.trace) (hdelivered : delivered s.trace = []) (hwritten : written s.trace = []) :
    Proc.wp (decompressSession ctx r n) (fun _ s' => Vouched s'.trace ∧ DecodesAll s'.trace)
      (fun _ s' => Vouched s'.trace) (fun s' => Vouched s'.trace) s := by
  rw [decompressSession,decompressSessionBy,Proc.wp_bind]
  refine Proc.wp_mono (readFileHeader_carries r s) (fun p s₁ h₁ => ?_) (fun _ _ h => h.vouched hstart) fun _ h => h.elim
  obtain ⟨bytes,hlen,hheader,hcarries⟩ := h₁
  have hnothing : written s₁.trace = [] := by rw [hcarries.written_eq,hwritten,List.append_nil]
  have hbetween : Between p.1 bytes s₁ := by
    refine ⟨hlen,hheader,Withheld.vouched ⟨bytes,hcarries⟩ hstart,[],?_,fun more => ?_,fun more => ?_⟩
    · rw [hcarries.delivered_eq,hdelivered,List.nil_append,List.append_nil]
    · rw [hnothing]
      rfl
    · rw [hnothing]
      exact (congrFun Option.map_id _).symm
  rw [Proc.wp_bind]
  refine Proc.wp_mono (startProgress_carries s₁) (fun progress s₁' h₁' => ?_) (fun _ _ h => h) fun _ h => h.elim
  rw [Proc.wp_bind]
  refine Proc.wp_mono (decompressLoop_vouched n _ (hbetween.quiet h₁') ?_) (fun v s₂ h₂ => ?_) (fun _ _ h => h) fun _ h => h
  · rw [h₁'.written_eq,hnothing]
    exact hr
  obtain ⟨hwhole,hv⟩ := h₂
  rw [Proc.wp_bind,Proc.wp_returnIf]
  refine ⟨fun _ => hwhole.vouched,fun hsize => ?_⟩
  rw [Proc.wp_bind]
  refine Proc.wp_mono (shouldAbortForCancel_carries v.result s₂) (fun _ s₃ h₃ => ?_)
    (fun _ _ h => h.vouched hwhole.vouched) fun _ h => h.elim
  rw [Proc.wp_bind]
  refine Proc.wp_mono (commitSession_carries v.result s₃) (fun r s₄ h₄ => ?_)
    (fun _ _ h => (h₃.withheld h).vouched hwhole.vouched) fun _ h => h.elim
  rw [Proc.wp_bind]
  refine Proc.wp_mono (emitProgress_carries _ _ true s₄) (fun _ s₅ h₅ => ?_) (fun _ _ h => h) fun _ h => h.elim
  have hlast := (h₃.still h₄).still h₅
  exact ⟨Withheld.vouched ⟨[],hlast⟩ hwhole.vouched,(hwhole.decodesAll hv hsize).quiet hlast⟩

theorem destroySession_carries (s : RunState σ κ) : Carries [] [] s (destroySession ctx s) := by
  obtain ⟨last,htrace,hlast⟩ := destroySession_ends ctx s
  have hwritten : ∀ before, before <+: last → written before = [] := fun before hbefore =>
    List.flatMap_eq_nil_iff.mpr fun e he => (hlast e (hbefore.subset he)).written_nil
  exact ⟨last,htrace,List.flatMap_eq_nil_iff.mpr fun e he => (hlast e he).delivered_nil,hwritten last (List.prefix_refl _),
    fun before hbefore => .inl (hwritten before hbefore)⟩

theorem openSession_carries (r : CompressionResult) (source : σ) (k₀ : κ) (heap : Heap) :
    Proc.wp (openSession ctx r) (fun _ s => Opened s ∧ Carries [] [] (.start source k₀ heap) s)
      (fun r s => r.error ≠ .ok ∧ Withheld (.start source k₀ heap) s) (fun _ => False) (.start source k₀ heap) := by
  simp only [openSession,openSource,openSink,check,Proc.wp_bind,Proc.wp_lift,Proc.wp_returnIf,Proc.wp_modify]
  have hsource : Carries [] [] (.start source k₀ heap) { RunState.start source k₀ heap with
      source := (ctx.source.open' source).2
      trace := [.sourceOpen (ctx.source.open' source).1] } := .call rfl rfl rfl
  have hsink : Carries [] [] (.start source k₀ heap) { RunState.start source k₀ heap with
      source := (ctx.source.open' source).2
      sink := (ctx.sink.open' k₀).2
      trace := [.sourceOpen (ctx.source.open' source).1,.sinkOpen (ctx.sink.open' k₀).1] } :=
    hsource.trans (.call rfl rfl rfl)
  refine ⟨fun he => ⟨he,[],hsource⟩,fun hok => ⟨fun he => ⟨he,[],hsink⟩,fun hok' => ⟨⟨rfl,rfl,[],?_,by simp⟩,?_⟩⟩⟩
  · change [IoEvent.sourceOpen (ctx.source.open' source).1,.sinkOpen (ctx.sink.open' k₀).1] = opens ++ []
    rw [show (ctx.source.open' source).1 = .ok from not_not.mp hok,
      show (ctx.sink.open' k₀).1 = .ok from not_not.mp hok']
    rfl
  · exact hsink.trans (.quiet rfl)

/-- What every decompression does, however it ends. -/
theorem runDecompress_vouched (ctx : RunContext σ κ) (n : ℕ) (source : σ) (k₀ : κ) (heap : Heap) :
    Proc.wp (runDecompress ctx n)
      (fun r s' => Vouched s'.trace ∧ (r.error = .ok → DecodesAll s'.trace))
      (fun r s' => Vouched s'.trace ∧ (r.error = .ok → DecodesAll s'.trace))
      (fun s' => Vouched s'.trace) (.start source k₀ heap) := by
  have hnone : Vouched (RunState.start source k₀ heap).trace := .nil
  have hdestroy : ∀ {s : RunState σ κ}, Vouched s.trace → Vouched (destroySession ctx s).trace := fun hs =>
    Withheld.vouched ⟨[],destroySession_carries _⟩ hs
  simp only [runDecompress,runDecompressBy,requireTransactional,Proc.wp_bind,Proc.wp_get,Proc.wp_returnIf,Proc.wp_destroying]
  refine ⟨fun _ => ⟨hnone,by simp⟩,fun _ => ?_⟩
  refine Proc.wp_mono (openSession_carries _ _ _ _) (fun _ s₁ h₁ => ?_)
    (fun r _ h => ⟨hdestroy (h.2.vouched hnone),fun hok => absurd hok h.1⟩) fun _ h => h.elim
  obtain ⟨hopened,hcarries⟩ := h₁
  have hsession := decompressSession_vouched ctx (makeResult ctx.operation .ok) rfl n
    (Withheld.vouched ⟨[],hcarries⟩ hnone) hcarries.delivered_eq hcarries.written_eq
  -- An early return is one with an error.
  have hreturns := ((protocol ctx).decompressSessionBy Codec.decompressLzLiteBlock (makeResult ctx.operation .ok) n).wp_self ⟨rfl,hopened⟩
    (fun _ _ _ hno => hno) (Proc.wp_mono hsession (fun _ _ _ => trivial) (fun _ _ _ => trivial) fun _ _ => trivial)
  refine Proc.wp_mono (Proc.wp_and hsession hreturns) (fun r s' h' => ?_) (fun r s' h' => ?_) fun s' h' => h'.1
  · obtain ⟨⟨hvouched,hall⟩,-⟩ := h'
    exact ⟨hdestroy hvouched,fun _ => hall.quiet (destroySession_carries s')⟩
  · obtain ⟨hvouched,-,hleaves⟩ := h'
    exact ⟨hdestroy hvouched,fun hok => absurd hok hleaves.error_ne⟩

/-- The same of the trace that is left behind. -/
theorem exec_vouched (ctx : RunContext σ κ) (fuel : ℕ) (source : σ) (k₀ : κ) (heap : Heap) :
    let run := Proc.exec (runDecompress ctx fuel) (.start source k₀ heap)
    Vouched run.2.trace ∧ ∀ r, run.1 = some r → r.error = .ok → DecodesAll run.2.trace := by
  intro run
  obtain ⟨r,hr,hvouched,hall⟩ | ⟨hnone,hvouched⟩ := Proc.exec_cases (runDecompress_vouched ctx fuel source k₀ heap)
  · refine ⟨hvouched,fun r' hr' hok => hall ?_⟩
    obtain rfl : r = r' := Option.some.inj (hr.symm.trans hr')
    exact hok
  · refine ⟨hvouched,fun r' hr' => ?_⟩
    rw [hr'] at hnone
    cases hnone

/-! ### Sources that deliver a byte string -/

section Delivered

variable {k₀ : κ} {heap : Heap} {Inv : List UInt8 → σ → Prop}

/-- A decoding that has written what could be salvaged of the records before `rest`. -/
def Salvaging (ctx : RunContext σ κ) (k₀ : κ) (heap : Heap) (Inv : List UInt8 → σ → Prop) (total : ℕ)
    (header : EscHeader) (body : List UInt8) (v : DecompressVars) (s : RunState σ κ) : Prop :=
  ∃ out rest, Decoding ctx k₀ heap Inv total out rest s ∧ Counts v out s ∧
    salvageBlocks header body = out ++ salvageBlocks header rest

theorem decompressLoop_salvages (hsource : Delivers ctx.source Inv) (hu : Unhindered ctx k₀ heap uint32Max)
    {header : EscHeader} {total : ℕ} {body : List UInt8} (n : ℕ) (v : DecompressVars) {s : RunState σ κ}
    (h : Salvaging ctx k₀ heap Inv total header body v s) :
    Proc.wp (Proc.loop (decompressRound ctx header) n v) (fun _ s' => written s'.trace = salvageBlocks header body)
      (fun _ s' => written s'.trace = salvageBlocks header body) (fun _ => True) s := by
  refine Proc.wp_loop (I := Salvaging ctx k₀ heap Inv total header body) (fun v s h => ?_) (fun _ _ _ => trivial) n v h
  obtain ⟨out,rest,hdecoding,hcounts,hbody⟩ := h
  refine Proc.wp_mono (Proc.wp_and (decompressRound_spec hsource header hdecoding hcounts)
    (decompressRound_carries header v s)) (fun c s' hround => ?_) (fun r s' hround => ?_) fun _ hno => hno.1.elim
  · obtain ⟨⟨b,data,rest',v',htake,rfl,hcounts',hdecoding'⟩,-⟩ := hround
    rw [salvageBlocks_of_taken htake] at hbody
    by_cases hfinal : b.IsFinal
    · rw [if_pos hfinal] at hbody ⊢
      exact hdecoding'.output.trans hbody.symm
    · rw [if_neg hfinal] at hbody ⊢
      exact ⟨out ++ data,rest',hdecoding',hcounts',by rw [hbody,List.append_assoc]⟩
  · obtain ⟨⟨-,hwhy⟩,taken,hcarries⟩ := hround
    obtain ⟨-,hnone⟩ := hwhy.resolve_right (not_not.mpr hu)
    rw [hcarries.written_eq,hdecoding.output,hbody,salvageBlocks_of_refused hnone]

/-- A file header that is refused is not one that the decoder accepts. -/
theorem readFileHeader_refuses (hsource : Delivers ctx.source Inv) (r : CompressionResult) {d : List UInt8}
    {s : RunState σ κ} (h : Decoding ctx k₀ heap Inv d.length [] d s) (hstart : meter s.trace = ⟨0,0⟩) :
    Proc.wp (readFileHeader ctx r) (fun _ _ => True)
      (fun _ _ => ∀ header, ¬d.length < kEscEncodedHeaderSize → decodeHeader (d.take kEscEncodedHeaderSize) ≠ .ok header)
      (fun _ => False) s := by
  rw [readFileHeader,Proc.wp_bind]
  refine Proc.wp_mono (readOrReturn_spec hsource r kEscEncodedHeaderSize h (by rw [hstart]; rfl))
    (fun p s₁ h₁ => ?_) (fun _ _ h₁ _ hlong => absurd h₁.2 hlong) fun _ hno => hno
  obtain ⟨rest,rfl,hlen,-,-⟩ := h₁
  rw [← hlen,List.take_left]
  simp only [Proc.wp_bind,check,Proc.wp_returnIf,Proc.wp_pure]
  unfold decodeHeader
  refine ⟨fun he => ?_,fun he => ⟨fun hversion => ?_,fun hversion => ⟨fun halgorithm => ?_,fun halgorithm =>
    ⟨fun hsize => ?_,fun _ => trivial⟩⟩⟩⟩
  · simp only [if_pos he]
    exact fun _ _ => by simp
  · simp only [if_neg he,if_pos hversion]
    exact fun _ _ => by simp
  · simp only [if_neg he,if_neg hversion,if_pos halgorithm]
    exact fun _ _ => by simp
  · simp only [if_neg he,if_neg hversion,if_neg halgorithm,if_pos hsize]
    exact fun _ _ => by simp

theorem decompressSession_salvages (hsource : Delivers ctx.source Inv) (hu : Unhindered ctx k₀ heap uint32Max)
    (n : ℕ) {d : List UInt8} {s : RunState σ κ} (h : Decoding ctx k₀ heap Inv d.length [] d s)
    (hstart : meter s.trace = ⟨0,0⟩) :
    Proc.wp (decompressSession ctx (makeResult ctx.operation .ok) n) (fun _ s' => written s'.trace = salvage d)
      (fun _ s' => written s'.trace = salvage d) (fun _ => True) s := by
  rw [decompressSession,decompressSessionBy,Proc.wp_bind]
  have hheader := Proc.wp_and (readFileHeader_spec hsource (makeResult ctx.operation .ok) h hstart)
    (Proc.wp_and (readFileHeader_refuses hsource (makeResult ctx.operation .ok) h hstart) (readFileHeader_carries _ s))
  refine Proc.wp_mono hheader (fun p s₁ h₁ => ?_) (fun r s₁ h₁ => ?_) fun _ hno => hno.1.elim
  swap
  · obtain ⟨-,hbad,taken,hcarries⟩ := h₁
    rw [hcarries.written_eq,h.output,salvage_of_badHeader hbad]
    rfl
  obtain ⟨⟨hshort,hok,hprocessed,h₁⟩,-⟩ := h₁
  have hsalvage : salvage d = salvageBlocks p.1 (d.drop kEscEncodedHeaderSize) := by rw [salvage,if_neg hshort,hok]
  rw [hsalvage,Proc.wp_bind]
  refine Proc.wp_mono (startProgress_decodes hsource h₁) (fun progress s₂ h₂ => ?_) (fun _ _ hr => hr) fun _ hno => hno.elim
  obtain ⟨h₂,hmeter₂⟩ := h₂
  rw [Proc.wp_bind]
  refine Proc.wp_mono (decompressLoop_salvages hsource hu n _ ⟨[],_,h₂,⟨rfl,?_,rfl⟩,rfl⟩) (fun v s₃ h₃ => ?_)
    (fun _ _ hr => hr) fun _ _ => trivial
  · rw [hmeter₂]
    exact hprocessed
  rw [Proc.wp_bind,Proc.wp_returnIf]
  refine ⟨fun _ => h₃,fun _ => ?_⟩
  rw [Proc.wp_bind]
  refine Proc.wp_mono (shouldAbortForCancel_carries v.result s₃) (fun _ s₄ h₄ => ?_)
    (fun _ _ hstopped => hstopped.written_eq.trans h₃) fun _ hno => hno.elim
  rw [Proc.wp_bind]
  refine Proc.wp_mono (commitSession_carries v.result s₄) (fun r s₅ h₅ => ?_)
    (fun _ _ hstopped => (h₄.withheld hstopped).written_eq.trans h₃) fun _ hno => hno.elim
  simp only [emitProgress,Proc.wp_bind,Proc.wp_lift,Proc.wp_pure,written_append,written_cons,written_nil,IoEvent.written,
    List.append_nil]
  exact (Withheld.written_eq ⟨_,h₄.trans h₅⟩).trans h₃

theorem runDecompress_salvages (hsource : Delivers ctx.source Inv) (hu : Unhindered ctx k₀ heap uint32Max) {source : σ}
    {d : List UInt8} (hopen : (ctx.source.open' source).1 = .ok) (hinv : Inv d (ctx.source.open' source).2) (n : ℕ) :
    Proc.wp (runDecompress ctx n) (fun _ s => written s.trace = salvage d) (fun _ s => written s.trace = salvage d)
      (fun _ => True) (.start source k₀ heap) := by
  rw [runDecompress,runDecompressBy,Proc.wp_bind]
  refine Proc.wp_mono (requireTransactional_spec _ rfl) ?_ (fun r _ hr => absurd hu hr.2) fun _ hno => hno.elim
  rintro _ _ rfl
  rw [Proc.wp_destroying,Proc.wp_bind]
  refine Proc.wp_mono (openSession_spec _) ?_
    (fun r _ hr => absurd hu (hr.2.resolve_left (not_not.mpr hopen))) fun _ hno => hno.elim
  rintro _ s ⟨-,hrun,hsrc,hmeter⟩
  have hdecoding : Decoding ctx k₀ heap Inv d.length [] d s :=
    ⟨hrun,hsrc ▸ hinv,by rw [hmeter]; exact Nat.zero_add _,by rw [hmeter]⟩
  refine Proc.wp_mono (decompressSession_salvages hsource hu n hdecoding hmeter) (fun _ s' h' => ?_) (fun _ s' h' => ?_)
    fun _ h' => h'
  · rwa [destroySession_written]
  · rwa [destroySession_written]

end Delivered

/-! ### What comes of a decompression -/

/-- A decompression that nothing hinders writes what can be salvaged. -/
theorem DecompressJob.salvages {d : List UInt8} (job : DecompressJob d) {r : CompressionResult}
    {s : RunState job.σ job.κ} (hrun : job.run = (some r,s)) : written s.trace = salvage d :=
  Proc.exec_of_wp (runDecompress_salvages job.delivers job.unhindered job.open_ok job.opened job.fuel) hrun

/-- A decompression of `d`, into any sink and under any cancel flag, with memory for the run itself. -/
structure DecompressAttempt (d : List UInt8) extends DecompressRun d where
  operation_eq : ctx.operation = .decompress
  admitted : ctx.sink.isTransactional k₀ = true ∨ ctx.options.allowPartialOutput = true
  ample : heap.Ample uint32Max
  fuel_gt : d.length < fuel

namespace DecompressAttempt

variable {d : List UInt8}

/-- The same decompression without faults. -/
def faultless (job : DecompressAttempt d) : DecompressJob d where
  σ := job.σ
  κ := job.κ
  ctx := job.ctx.faultless
  source := job.source
  k₀ := job.k₀
  heap := job.heap
  fuel := job.fuel
  Inv := job.Inv
  delivers := job.delivers
  open_ok := job.open_ok
  opened := job.opened
  unhindered := ⟨job.admitted,job.ctx.sink.faultless_accepts job.k₀,job.ample,fun _ => rfl⟩
  fuel_gt := job.fuel_gt

theorem run_eq (job : DecompressAttempt d) :
    job.run = jobRun job.ctx job.fuel job.source job.k₀ job.heap ∧
      job.faultless.run = jobRun job.ctx.faultless job.fuel job.source job.k₀ job.heap := by
  unfold jobRun runSyncJob runSyncJobBy
  rw [job.operation_eq]
  exact ⟨rfl,rfl⟩

end DecompressAttempt

/-- On any source, into any sink, with any memory and under any cancel flag: at every moment of a decompression
nothing has been written but the data of the records, whole and with a matching checksum, at the front of what has
been delivered by then, whatever else is delivered later; and when it returns `Ok`, all that has been delivered is one
container, whose data it has published. -/
theorem sound_records_leave (ctx : RunContext σ κ) (fuel : ℕ) (source : σ) (k₀ : κ) (heap : Heap) :
    let run := Proc.exec (runDecompress ctx fuel) (.start source k₀ heap)
    (∀ before, before <+: run.2.trace → ∀ d, delivered before <+: d → written before <+: salvage d) ∧
      ∀ r, run.1 = some r → r.error = .ok →
        ∃ o, published run.2.trace = some o ∧ decode (delivered run.2.trace) = .ok (o,[]) := by
  intro run
  have hvouched := exec_vouched ctx fuel source k₀ heap
  refine ⟨fun before hbefore d hd => (hvouched.1 before hbefore).trans (salvage_mono hd),fun r hr hok => ?_⟩
  have hends := Proc.exec_of_wp (runDecompress_ends ctx fuel source heap) (Prod.ext hr rfl : run = (some r,run.2))
  exact ⟨written run.2.trace,by rw [hends.published_eq,if_pos hok],hvouched.2 r hr hok⟩

/-- Whatever the sink and the cancel flag do, a decompression of `d` returns: with the error and the output that `d`
decides, or with the error of the first fault; what it has written can be salvaged of `d`. -/
theorem DecompressAttempt.verdict {d : List UInt8} (job : DecompressAttempt d) :
    ∃ r s, job.run = (some r,s) ∧ Verdict (outcome d) (salvage d) r s.trace := by
  obtain ⟨r,t,hrun,houtcome,-⟩ := job.faultless.returns
  have hwritten := job.faultless.salvages hrun
  rw [job.run_eq.2] at hrun
  rw [job.run_eq.1,← houtcome,← hwritten]
  exact verdict_of_faultless hrun

end Compressor
end EspCompressor
