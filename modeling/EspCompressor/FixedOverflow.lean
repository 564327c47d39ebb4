import EspCompressor.BlockWrites
import EspCompressor.MemorySinks

/-! Decompression into a buffer of fixed size, against the same decompression into a sink without
bounds. -/
namespace EspCompressor

/-- A sink without bounds. -/
def unboundedSink : CompressionSink (List UInt8) where
  open' _ := (.ok,[])
  write bytes k := (.ok,k ++ bytes)
  commit _ := (.ok,[])
  abort _ := []
  close k := k
  bytesWritten k := UInt64.ofNat k.length
  isTransactional _ := true

theorem unboundedSink_accepts (k₀ : List UInt8) : Accepts unboundedSink k₀ := ⟨rfl,fun _ _ => rfl,fun _ => rfl⟩

/-- An open `FixedBufferSink` that has staged the given bytes. -/
structure FixedBufferSink.Holds (k₀ : FixedBufferSink) (bytes : List UInt8) (k : FixedBufferSink) : Prop where
  isOpen : k.isOpen = true
  contents : k.staging.contents = bytes
  fits : bytes.length ≤ k₀.capacity
  capacity : k.capacity = k₀.capacity
  buffer : k.buffer = k₀.buffer
  supply : k₀.heap.SameSupply k.heap

theorem FixedBufferSink.Holds.size_eq {k₀ k : FixedBufferSink} {bytes : List UInt8} (h : Holds k₀ bytes k) :
    k.staging.size = bytes.length := by
  rw [← MemoryBuffer.contents_length,h.contents]

namespace Compressor

variable {σ : Type} {ctx : RunContext σ FixedBufferSink} {k₀ : FixedBufferSink}

/-- Both sessions are open and have written the same. -/
structure SameOutput (k₀ : FixedBufferSink) (s : RunState σ FixedBufferSink) (t : RunState σ (List UInt8)) :
    Prop where
  source_eq : s.source = t.source
  heap_eq : s.heap = t.heap
  loads_eq : s.loads = t.loads
  holds : FixedBufferSink.Holds k₀ (written t.trace) s.sink
  sink_eq : t.sink = written t.trace

/-- Both sessions have committed. -/
structure BothCommitted (k₀ : FixedBufferSink) (s : RunState σ FixedBufferSink)
    (t : RunState σ (List UInt8)) : Prop where
  staging : s.sink.staging.size = 0
  sink_eq : t.sink = []
  fits : (written t.trace).length ≤ k₀.capacity

/-- The write that the buffer has refused, and the sink without bounds has taken. -/
def Refused (k₀ : FixedBufferSink) (r : CompressionResult) (t : RunState σ (List UInt8)) : Prop :=
  ∃ before bytes, t.trace = before ++ [.write bytes .ok] ∧ (written before).length ≤ k₀.capacity ∧
    (r.error = .outputOverflow ∧ k₀.capacity < (written before).length + bytes.length ∨
      ¬k₀.heap.Ample ((written before).length + bytes.length))

abbrev fixedExits (σ : Type) (k₀ : FixedBufferSink) :
    Proc.Exits CompressionResult (RunState σ FixedBufferSink) (RunState σ (List UInt8)) :=
  sessionExits (SameOutput k₀) (fun r _ _ => r.error ≠ .ok) fun r _ t => Refused k₀ r t

/-- Calls that leave both sinks alone. -/
theorem SameOutput.frame {s s' : RunState σ FixedBufferSink} {t t' : RunState σ (List UInt8)}
    (h : SameOutput k₀ s t) (hsource : s'.source = t'.source) (hheap : s'.heap = t'.heap)
    (hloads : s'.loads = t'.loads) (hs : s'.sink = s.sink) (ht : t'.sink = t.sink)
    (hwritten : written t'.trace = written t.trace) : SameOutput k₀ s' t' := by
  refine ⟨hsource,hheap,hloads,?_,?_⟩
  · rw [hs,hwritten]
    exact h.holds
  · rw [ht,hwritten]
    exact h.sink_eq

theorem IoEvent.Asks.written_nil {e : IoEvent} (h : e.Asks) : e.written = [] := by
  cases e <;> first | rfl | exact h.elim

/-- A write is taken by both sinks, or it stops the run into the buffer. -/
theorem writeOrReturn_lockstep (r : CompressionResult) (bytes : List UInt8) :
    Proc.Lockstep (fixedExits σ k₀) (SameOutput k₀) (writeOrReturn FixedBufferSink.sink r bytes)
      (writeOrReturn unboundedSink r bytes) fun _ => SameOutput k₀ := by
  refine ⟨fun t => List.prefix_append _ _,fun s t h => ?_⟩
  let t' : RunState σ (List UInt8) :=
    { t with sink := t.sink ++ bytes, trace := t.trace ++ [.write bytes .ok] }
  have htaken : writeOrReturn unboundedSink r bytes t = (.done (),t') := rfl
  have hwritten : written t'.trace = written t.trace ++ bytes := by simp [t',IoEvent.written]
  rw [htaken]
  have hcases := FixedBufferSink.write_cases h.holds.isOpen
    (by rw [h.holds.size_eq,h.holds.capacity]; exact h.holds.fits) bytes
  rw [h.holds.size_eq,h.holds.capacity] at hcases
  rcases hcases with ⟨hok,hcontents,hfits,hopen,hbuffer,hcapacity,hsupply⟩ | ⟨hfailed,hwhy⟩
  · have hdone : writeOrReturn FixedBufferSink.sink r bytes s = (.done (),{ s with
        sink := (FixedBufferSink.sink.write bytes s.sink).2
        trace := s.trace ++ [.write bytes (FixedBufferSink.sink.write bytes s.sink).1] }) := by
      simp [writeOrReturn,writeSink,check,Proc.bind_apply,Proc.lift,Proc.returnIf,hok]
      rfl
    rw [hdone]
    refine .done ⟨h.source_eq,h.heap_eq,h.loads_eq,⟨hopen,?_,?_,?_,?_,?_⟩,?_⟩
    · rw [hcontents,h.holds.contents,hwritten]
    · rw [hwritten,List.length_append]
      exact hfits
    · exact hcapacity
    · exact hbuffer.trans h.holds.buffer
    · exact h.holds.supply.trans hsupply
    · rw [hwritten,← h.sink_eq]
  · have hstop : writeOrReturn FixedBufferSink.sink r bytes s = (.returned { r with
        error := (FixedBufferSink.sink.write bytes s.sink).1 },{ s with
        sink := (FixedBufferSink.sink.write bytes s.sink).2
        trace := s.trace ++ [.write bytes (FixedBufferSink.sink.write bytes s.sink).1] }) := by
      simp [writeOrReturn,writeSink,check,Proc.bind_apply,Proc.lift,Proc.returnIf,hfailed]
      rfl
    rw [hstop]
    refine .stopped (t := t') ⟨t.trace,bytes,rfl,h.holds.fits,?_⟩ (List.prefix_refl _)
    refine hwhy.imp_right fun hno hample => hno ?_
    exact hample.of_sameSupply h.holds.supply

/-- Both commits work when the buffer is there. -/
theorem commitSession_lockstep (hbuffer : k₀.buffer.isSome) (hsink : ctx.sink = FixedBufferSink.sink)
    (r : CompressionResult) :
    Proc.Lockstep (fixedExits σ k₀) (SameOutput k₀) (commitSession ctx r)
      (commitSession (ctx.withSink unboundedSink ctx.cancelRequested) r)
      fun r' s t => r'.error = .ok ∧ BothCommitted k₀ s t := by
  refine commitSession_alike r (fun _ _ h => h) fun s t h => ?_
  rw [hsink]
  rcases FixedBufferSink.commit_cases s.sink with ⟨-,-,hopen | hnull | hlong⟩ | ⟨hok,-,-,hstaging,-⟩
  · rw [h.holds.isOpen] at hopen
    simp at hopen
  · rw [h.holds.buffer] at hnull
    simp [hnull] at hbuffer
  · have hfits := h.holds.fits
    rw [h.holds.size_eq,h.holds.capacity] at hlong
    omega
  · refine ⟨hok,fun _ => ⟨?_,rfl,?_⟩,fun hfailed => absurd rfl hfailed⟩
    · dsimp only
      rw [hstaging]
      rfl
    · have hfits := h.holds.fits
      simpa [IoEvent.written] using hfits

/-- What the calls of both runs do. -/
theorem sameOutput (hbuffer : k₀.buffer.isSome) (hsink : ctx.sink = FixedBufferSink.sink) :
    Coupled ctx unboundedSink ctx.cancelRequested (SameOutput k₀) (SameOutput k₀) (BothCommitted k₀)
      (fun r _ _ => r.error ≠ .ok) fun r _ t => Refused k₀ r t where
  source_eq h := h.source_eq
  heap_eq h := h.heap_eq
  bytesWritten_eq {s t} h := by
    have hsize : s.sink.staging.size = t.sink.length := by
      rcases h with h | h
      · rw [h.holds.size_eq,h.sink_eq]
      · rw [h.staging,h.sink_eq]
        rfl
    rw [hsink]
    exact congrArg UInt64.ofNat hsize
  returns _ _ hr := hr
  asks h source e he := h.frame rfl h.heap_eq h.loads_eq rfl rfl (by
    simp [RunState.asked,IoEvent.Asks.written_nil he])
  readFails _ _ _ _ _ _ _ hr := hr
  allocates h heap := h.frame h.source_eq rfl h.loads_eq rfl rfl rfl
  cancels r := by
    refine Proc.Lockstep.bind (Q := fun _ => SameOutput k₀) (.lift (fun _ => List.prefix_append _ _) ?_)
      fun _ => (Proc.Lockstep.returnIf fun _ _ _ _ => by simp [sessionExits]).mono (fun _ _ h => h) fun _ _ _ h => h.1
    intro s t h
    have hloads := h.loads_eq
    rw [hloads]
    exact ⟨rfl,h.frame h.source_eq h.heap_eq rfl rfl rfl (by simp [IoEvent.written])⟩
  checked h := h
  writes r bytes := by
    rw [hsink]
    exact writeOrReturn_lockstep r bytes
  commits := commitSession_lockstep hbuffer hsink
  reports h report := ⟨h.staging,h.sink_eq,by simpa [RunState.asked,IoEvent.written] using h.fits⟩

/-- The starts of both runs. -/
structure BothStart (k₀ : FixedBufferSink) (s : RunState σ FixedBufferSink) (t : RunState σ (List UInt8)) :
    Prop where
  source_eq : s.source = t.source
  heap_eq : s.heap = t.heap
  loads_eq : s.loads = t.loads
  sink_eq : s.sink = k₀
  written_eq : written t.trace = []

theorem openSession_fixed (hsink : ctx.sink = FixedBufferSink.sink) (r : CompressionResult) :
    Proc.Lockstep (fixedExits σ k₀) (BothStart k₀) (openSession ctx r)
      (openSession (ctx.withSink unboundedSink ctx.cancelRequested) r) fun _ => SameOutput k₀ := by
  have hcheck : ∀ (e : CompressionError) (I : RunState σ FixedBufferSink → RunState σ (List UInt8) → Prop),
      Proc.Lockstep (fixedExits σ k₀) I (check r e) (check r e) fun _ => I := fun e I =>
    (Proc.Lockstep.returnIf fun he _ _ _ => he).mono (fun _ _ h => h) fun _ _ _ h => h.1
  refine Proc.Lockstep.bind (Q := fun _ => BothStart k₀) (.lift (fun _ => List.prefix_append _ _) ?_)
    fun e => Proc.Lockstep.bind (hcheck e _) fun _ =>
    Proc.Lockstep.bind (Q := fun _ => SameOutput k₀) (.lift (fun _ => List.prefix_append _ _) ?_)
    fun e => Proc.Lockstep.bind (hcheck e _) fun _ => .modify (fun _ => List.prefix_refl _) fun _ _ h =>
    h.frame h.source_eq h.heap_eq h.loads_eq rfl rfl rfl
  · intro s t h
    have hsource := h.source_eq
    rw [hsource]
    exact ⟨rfl,rfl,h.heap_eq,h.loads_eq,h.sink_eq,by simp [IoEvent.written,h.written_eq]⟩
  · intro s t h
    have hk := h.sink_eq
    rw [hsink,hk]
    refine ⟨rfl,h.source_eq,h.heap_eq,h.loads_eq,?_,?_⟩
    · simp only [written_append,h.written_eq]
      exact ⟨rfl,MemoryBuffer.contents_clear _,Nat.zero_le _,rfl,rfl,.refl _⟩
    · simp only [written_append,h.written_eq]
      rfl

/-- The run into the buffer goes as the one without bounds, or a write is refused. -/
theorem runSyncJob_fixed (hbuffer : k₀.buffer.isSome) (hsink : ctx.sink = FixedBufferSink.sink) (fuel : ℕ) :
    Proc.Lockstep (sessionExits (SameOutput k₀)
        (fun r _ t => r.error = .ok → (written t.trace).length ≤ k₀.capacity) fun r _ t => Refused k₀ r t)
      (BothStart k₀) (runSyncJob ctx fuel)
      (runSyncJob (ctx.withSink unboundedSink ctx.cancelRequested) fuel)
      fun r _ t => r.error = .ok → (written t.trace).length ≤ k₀.capacity := by
  refine (sameOutput hbuffer hsink).runSyncJob ?_ (fun _ _ _ r hr hok => ?_) (openSession_fixed hsink)
    (fun _ _ _ hr hok => absurd hok hr) (fun r s t h _ => ?_) (fun _ _ _ hrefused => hrefused) fuel
  · intro s t _
    rw [hsink]
    rfl
  · rw [hr] at hok
    simp at hok
  · rw [destroySession_written]
    exact h.2.fits

end Compressor

open Compressor Container

/-- A decompression of `d` into a buffer, by a call that nobody cancels: there is a buffer, and memory
for what the run itself needs. -/
structure FixedBufferJob (d : List UInt8) where
  σ : Type
  ctx : RunContext σ FixedBufferSink
  source : σ
  k₀ : FixedBufferSink
  heap : Heap
  fuel : ℕ
  Inv : List UInt8 → σ → Prop
  operation_eq : ctx.operation = .decompress
  sink_eq : ctx.sink = FixedBufferSink.sink
  delivers : Delivers ctx.source Inv
  open_ok : (ctx.source.open' source).1 = .ok
  opened : Inv d (ctx.source.open' source).2
  nonnull : k₀.buffer.isSome
  uncancelled : ∀ n, ctx.cancelRequested n = false
  ample : heap.Ample uint32Max
  fuel_gt : d.length < fuel

namespace FixedBufferJob

variable {d : List UInt8}

def run (job : FixedBufferJob d) : Option CompressionResult × RunState job.σ FixedBufferSink :=
  Proc.exec (runSyncJob job.ctx job.fuel) (.start job.source job.k₀ job.heap)

/-- The same decompression into a sink without bounds. -/
def unbounded (job : FixedBufferJob d) : DecompressJob d where
  σ := job.σ
  κ := List UInt8
  ctx := job.ctx.withSink unboundedSink job.ctx.cancelRequested
  source := job.source
  k₀ := []
  heap := job.heap
  fuel := job.fuel
  Inv := job.Inv
  delivers := job.delivers
  open_ok := job.open_ok
  opened := job.opened
  unhindered := ⟨.inl rfl,unboundedSink_accepts [],job.ample,job.uncancelled⟩
  fuel_gt := job.fuel_gt

/-- Memory for the bytes that the staging buffer has to take, until one write does not fit any more. -/
def StagingAmple (job : FixedBufferJob d) (n : ℕ) : Prop :=
  ∀ header, decodeHeader (d.take kEscEncodedHeaderSize) = .ok header →
    job.k₀.heap.Ample (min n (job.k₀.capacity + header.blockSize.toNat))

/-- A write that was refused though there was memory did not fit. -/
theorem refused_overflow (job : FixedBufferJob d) {o : List UInt8} (hample : job.StagingAmple o.length)
    {r : CompressionResult} {t t' : RunState job.σ (List UInt8)} (hrefused : Refused job.k₀ r t)
    (hlater : t.trace <+: t'.trace) (ho : written t'.trace = o)
    (hwrites : ∃ header, decodeHeader (d.take kEscEncodedHeaderSize) = .ok header ∧
      WritesAtMost header.blockSize.toNat t'.trace) :
    r.error = .outputOverflow ∧ job.k₀.capacity < o.length := by
  obtain ⟨before,bytes,htrace,hfits,hwhy⟩ := hrefused
  obtain ⟨after,hafter⟩ := hlater
  obtain ⟨header,hheader,hwrites⟩ := hwrites
  have hbytes : bytes.length ≤ header.blockSize.toNat := by
    refine hwrites bytes ?_
    rw [← hafter,htrace]
    simp
  have hlen : (written before).length + bytes.length ≤ o.length := by
    rw [← ho,← hafter,htrace,written_append,written_append,List.length_append,List.length_append]
    simp [IoEvent.written]
  rcases hwhy with ⟨herror,hover⟩ | hno
  · exact ⟨herror,by omega⟩
  · exact absurd ((hample header hheader).mono (le_min hlen (by omega))) hno

/-- Whether the data fits into the buffer decides what the job returns. -/
theorem returns (job : FixedBufferJob d) {o rest : List UInt8} (h : decode d = .ok (o,rest))
    (hample : job.StagingAmple o.length) :
    ∃ r s, job.run = (some r,s) ∧ (o.length ≤ job.k₀.capacity → r.error = .ok) ∧
      (job.k₀.capacity < o.length → r.error = .outputOverflow) := by
  obtain ⟨r',t',hrun,hok,hpublished,-⟩ := job.unbounded.returns_ok h
  have hwrites := Proc.exec_of_wp (@runDecompress_writes _ _ job.unbounded.ctx [] job.heap job.Inv
    job.delivers job.source d job.opened job.fuel) hrun hok
  have ho : written t'.trace = o := by
    have hends := Proc.exec_of_wp (runDecompress_ends job.unbounded.ctx job.fuel job.source job.heap) hrun
    rw [hends.published_eq,if_pos hok] at hpublished
    exact Option.some.inj hpublished
  have hreference : runSyncJob (job.ctx.withSink unboundedSink job.ctx.cancelRequested) job.fuel =
      runDecompress job.unbounded.ctx job.fuel := by
    unfold runSyncJob runSyncJobBy
    rw [show (job.ctx.withSink unboundedSink job.ctx.cancelRequested).operation = .decompress from
      job.operation_eq]
    rfl
  have hlockstep := runSyncJob_fixed job.nonnull job.sink_eq job.fuel
  rw [hreference] at hlockstep
  have hstart : BothStart job.k₀ (.start job.source job.k₀ job.heap) (.start job.source [] job.heap) :=
    ⟨rfl,rfl,rfl,rfl,rfl⟩
  rcases hlockstep.exec_of_returned hstart hrun with ⟨s,hsame,hfits⟩ | ⟨r,s,t,hstopped,hrefused,hlater⟩
  · have hfits : o.length ≤ job.k₀.capacity := by
      rw [← ho]
      exact hfits.elim (fun h => h hok) fun h => h hok
    exact ⟨r',s,hsame,fun _ => hok,fun hlong => absurd hfits (not_le.mpr hlong)⟩
  · obtain ⟨herror,hlong⟩ := job.refused_overflow hample hrefused hlater ho hwrites
    exact ⟨r,s,hstopped,fun hfits => absurd hlong (not_lt.mpr hfits),fun _ => herror⟩

/-- A buffer that is too short by one byte. -/
def tooShort : FixedBufferJob (longContainer 1) where
  σ := BufferSource
  ctx := { operation := .decompress, source := BufferSource.source, sink := FixedBufferSink.sink }
  source := ⟨longContainer 1,0,false⟩
  k₀ := ⟨some [],0,.new,false,.unlimited,by simp⟩
  heap := .unlimited
  fuel := (longContainer 1).length + 1
  Inv := BufferSource.Remains (longContainer 1)
  operation_eq := rfl
  sink_eq := rfl
  delivers := (BufferSource.honest _).toDelivers
  open_ok := rfl
  opened := BufferSource.remains_open _
  nonnull := rfl
  uncancelled _ := rfl
  ample := Heap.unlimited_ample _
  fuel_gt := Nat.lt_succ_self _

end FixedBufferJob

/-- Jobs into the sinks in memory are transactional, any number of them on one sink: only a job that
returns `Ok` changes the destination, and it leaves there what it wrote. A decompression with enough
memory returns `Ok` when its data fits into the buffer, and `OutputOverflow` when it does not. -/
theorem memory_sinks_transactional :
    (∀ {k k' : DynamicBufferSink} {records : List JobRecord}, Jobs DynamicBufferSink.sink k records k' →
      k'.out = records.foldl JobRecord.vector k.out) ∧
    (∀ {k k' : FixedBufferSink} {records : List JobRecord}, Jobs FixedBufferSink.sink k records k' →
      k'.buffer = records.foldl JobRecord.fill k.buffer ∧
        ∀ record ∈ records, record.error = .ok → record.bytes.length ≤ k.capacity) ∧
    ∀ {d o rest : List UInt8} (job : FixedBufferJob d), decode d = .ok (o,rest) →
      job.StagingAmple o.length → ∃ r s, job.run = (some r,s) ∧
        (o.length ≤ job.k₀.capacity → r.error = .ok) ∧
        (job.k₀.capacity < o.length → r.error = .outputOverflow) :=
  ⟨DynamicBufferSink.jobs,FixedBufferSink.jobs,fun job h hample => job.returns h hample⟩

theorem memory_sinks_transactional_too_short : ∃ r s, FixedBufferJob.tooShort.run = (some r,s) ∧
    r.error = .outputOverflow := by
  have hlen : (chunkData (List.replicate 1 ([0],false))).length = 1 := rfl
  obtain ⟨r,s,hrun,-,hover⟩ := memory_sinks_transactional.2.2 FixedBufferJob.tooShort
    (decode_longContainer 1) fun _ _ => Heap.unlimited_ample _
  exact ⟨r,s,hrun,hover (by rw [hlen]; exact Nat.zero_lt_one)⟩

end EspCompressor
