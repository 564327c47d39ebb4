import EspCompressor.FileSink
import EspCompressor.RoundTrip

/-! The counters of the two results against the bytes that went in and came out, for the
built-in sinks. -/
namespace EspCompressor

namespace FileSink

variable {φ : Type} (fs : FileSystem φ)

@[simp] theorem ask_written {α : Type} (f : φ → α × φ) (k : FileSink φ) :
    (ask f k).2.written = k.written := rfl

@[simp] theorem cleanup_written (path : Path) (k : FileSink φ) :
    (cleanup fs path k).written = k.written := by
  unfold cleanup
  dsimp only
  split_ifs <;> rfl

theorem publish_written (hadDestination : Bool) (k : FileSink φ) :
    (publish fs hadDestination k).2.written = k.written := by
  unfold publish cleanupTemp cleanupBackup
  dsimp only
  split_ifs <;> simp

/-- The total outlives the commit. -/
theorem commit_written (k : FileSink φ) : (commit fs k).2.written = k.written := by
  unfold commit cleanupBackup
  dsimp only
  split_ifs
  · rfl
  · simp [closeFile]
  · rw [publish_written]
    simp [closeFile]
  · rw [publish_written]
    rfl

theorem openTemp_written {k : FileSink φ} (h : (openTemp fs k).1 = .ok) :
    (openTemp fs k).2.written = 0 := by
  unfold openTemp at h ⊢
  dsimp only at h ⊢
  split_ifs at h ⊢
  rfl

theorem open'_written {k : FileSink φ} (h : (open' fs k).1 = .ok) : (open' fs k).2.written = 0 := by
  unfold open' at h ⊢
  dsimp only at h ⊢
  split_ifs at h ⊢
  · exact openTemp_written fs h
  · exact openTemp_written fs h

theorem write_written {bytes : List UInt8} {k : FileSink φ} (h : (write fs bytes k).1 = .ok) :
    (write fs bytes k).2.written = k.written + UInt64.ofNat bytes.length := by
  unfold write at h ⊢
  dsimp only at h ⊢
  split_ifs at h ⊢ with hclosed hempty hall
  · rw [hempty]
    exact (UInt64.add_zero _).symm
  · rw [not_not.mp hall]
    rfl

theorem staged_written {k₀ k : FileSink φ} {bytes : List UInt8} (h : Staged (sink fs) k₀ bytes k) :
    k.written = UInt64.ofNat bytes.length := by
  induction h with
  | opened hok => exact open'_written fs hok
  | @wrote bytes k more _ hok ih =>
    rw [List.length_append,UInt64.ofNat_add,← ih]
    exact write_written fs hok

end FileSink

/-- Which of the built-in sinks a sink is. -/
inductive BuiltinSink : {κ : Type} → CompressionSink κ → Type 1
  | dynamic : BuiltinSink DynamicBufferSink.sink
  | fixed : BuiltinSink FixedBufferSink.sink
  | file {φ : Type} (fs : FileSystem φ) : BuiltinSink (FileSink.sink fs)
  | print : BuiltinSink PrintSink.sink

/-- The sink counts in a total of its own, not by the size of its staging buffer. -/
def BuiltinSink.KeepsTotal {κ : Type} {sink : CompressionSink κ} : BuiltinSink sink → Prop
  | dynamic => False
  | fixed => False
  | file _ => True
  | print => True

/-- Until it commits a sink counts what was written. -/
theorem BuiltinSink.bytesWritten_staged {κ : Type} {sink : CompressionSink κ} (b : BuiltinSink sink)
    {k₀ k : κ} {bytes : List UInt8} (h : Staged sink k₀ bytes k) :
    sink.bytesWritten k = UInt64.ofNat bytes.length := by
  cases b with
  | dynamic =>
    obtain ⟨-,hcontents,-⟩ := DynamicBufferSink.staged h
    rw [← hcontents,MemoryBuffer.contents_length]
    rfl
  | fixed =>
    obtain ⟨-,hcontents,-⟩ := FixedBufferSink.staged h
    rw [← hcontents,MemoryBuffer.contents_length]
    rfl
  | file fs => exact FileSink.staged_written fs h
  | print => exact (PrintSink.staged h).2.2

/-- What a sink counts once it has committed: all bytes, or those that are still staged. -/
theorem BuiltinSink.bytesWritten_commit {κ : Type} {sink : CompressionSink κ} (b : BuiltinSink sink)
    {k₀ k : κ} {bytes : List UInt8} (h : Staged sink k₀ bytes k) (hok : (sink.commit k).1 = .ok) :
    (b.KeepsTotal → sink.bytesWritten (sink.commit k).2 = UInt64.ofNat bytes.length) ∧
    (¬b.KeepsTotal → sink.bytesWritten (sink.commit k).2 = 0) := by
  cases b with
  | dynamic =>
    refine ⟨False.elim,fun _ => ?_⟩
    simp only [DynamicBufferSink.sink,(DynamicBufferSink.staged h).1,Bool.true_eq_false,if_false]
    split_ifs <;> rfl
  | fixed =>
    refine ⟨False.elim,fun _ => ?_⟩
    simp only [FixedBufferSink.sink,(FixedBufferSink.staged h).1,Bool.true_eq_false,if_false] at hok ⊢
    split at hok
    · exact absurd hok (by simp)
    · split_ifs at hok ⊢
      rfl
  | file fs =>
    refine ⟨fun _ => ?_,fun hno => absurd trivial hno⟩
    exact (FileSink.commit_written fs k).trans (FileSink.staged_written fs h)
  | print => exact ⟨fun _ => (PrintSink.staged h).2.2,fun hno => absurd trivial hno⟩

namespace Compressor

open Container

/-- The counters of `r`, which compressed `d` into `c`, and of every decompression of `c`, are the
lengths of `d` and of `c`. -/
structure Accounted (d c : List UInt8) (r : CompressionResult) : Prop where
  inputBytes : r.inputBytes.toNat = d.length
  outputBytes : r.outputBytes.toNat = c.length
  decompressed : ∀ (job : DecompressRun c) (r' : CompressionResult) (s' : RunState job.σ job.κ),
    job.run = (some r',s') → r'.error = .ok →
    r'.inputBytes.toNat = c.length ∧ r'.outputBytes.toNat = d.length

/-- What a decompression of a container counts. -/
theorem DecompressRun.counts {c d : List UInt8} (job : DecompressRun c) (h : decode c = .ok (d,[]))
    {r : CompressionResult} {s : RunState job.σ job.κ} (hrun : job.run = (some r,s))
    (hok : r.error = .ok) :
    r.inputBytes = UInt64.ofNat c.length ∧ r.outputBytes = UInt64.ofNat d.length := by
  have hdone := job.result hrun hok
  obtain ⟨rest,hdecode,hposition⟩ := hdone.decoded
  rw [h] at hdecode
  obtain ⟨hwritten,rfl⟩ := Prod.mk.inj (Except.ok.inj hdecode)
  have hconsumed : (meter s.trace).position = c.length := hposition
  exact ⟨by rw [hdone.inputBytes,hconsumed],by rw [hdone.outputBytes,hwritten]⟩

/-- The counters are right exactly if the sink keeps a total of its own, and both lengths fit
into a counter. -/
theorem accounted_iff {d : List UInt8} (job : CompressRun d) (b : BuiltinSink job.ctx.sink)
    {r : CompressionResult} {s : RunState job.σ job.κ} (hrun : job.run = (some r,s))
    (hok : r.error = .ok) : ∃ c, job.container = some c ∧ published s.trace = some c ∧
      (Accounted d c r ↔ b.KeepsTotal ∧ d.length < 2 ^ 64 ∧ c.length < 2 ^ 64) := by
  obtain ⟨c,hcontainer,hpublished,hdecode,hinput,k,hstaged,hcommit,houtput⟩ := job.result hrun hok
  obtain ⟨htotal,hreleased⟩ := b.bytesWritten_commit hstaged hcommit
  refine ⟨c,hcontainer,hpublished,fun h => ?_,fun ⟨hkeeps,hd,hc⟩ => ⟨?_,?_,fun job' r' s' hrun' hok' => ?_⟩⟩
  · have hd : d.length < 2 ^ 64 := h.inputBytes ▸ r.inputBytes.toNat_lt
    have hc : c.length < 2 ^ 64 := h.outputBytes ▸ r.outputBytes.toNat_lt
    refine ⟨?_,hd,hc⟩
    by_contra hno
    -- the commit has released the staging buffer
    have hzero := h.outputBytes
    rw [houtput,hreleased hno] at hzero
    obtain ⟨header,blocks,hc,-⟩ := decode_ok_iff.mp hdecode
    have hlength := encode_length_ge header blocks
    rw [← List.append_nil (encode header blocks),← hc,← hzero] at hlength
    exact absurd hlength (by decide)
  · rw [hinput,UInt64.toNat_ofNat_of_lt' hd]
  · rw [houtput,htotal hkeeps,UInt64.toNat_ofNat_of_lt' hc]
  · obtain ⟨hin,hout⟩ := job'.counts hdecode hrun' hok'
    rw [hin,hout,UInt64.toNat_ofNat_of_lt' hc,UInt64.toNat_ofNat_of_lt' hd]
    exact ⟨rfl,rfl⟩

/-- An encoded block and a raw one, compressed into a print device. -/
def printRun : CompressRun mixedData where
  σ := BufferSource
  κ := PrintSink
  ctx :=
    { config := { blockSize := 16, windowSize := 16 }
      operation := .compress
      options := { allowPartialOutput := true }
      source := BufferSource.source
      sink := PrintSink.sink }
  source := ⟨mixedData,0,false⟩
  k₀ := { print := ⟨[],fun _ => 1000,0⟩ }
  heap := .unlimited
  fuel := 3
  known := true
  Inv := BufferSource.Remains mixedData
  honest := BufferSource.honest mixedData
  opened := BufferSource.remains_open mixedData

theorem accounted_iff_print : ∃ r s, printRun.run = (some r,s) ∧ r.error = .ok ∧
    printRun.container = some mixedContainer ∧ published s.trace = some mixedContainer ∧
    r.inputBytes = 19 ∧ r.outputBytes = 58 ∧ Accounted mixedData mixedContainer r := by
  have hresult : printRun.run.1.map (fun r => (r.error,r.inputBytes,r.outputBytes)) = some (.ok,19,58) := by
    decide +kernel
  rcases hrun : printRun.run with ⟨o,s⟩
  rw [hrun] at hresult
  obtain ⟨r,rfl,hr⟩ := Option.map_eq_some_iff.mp hresult
  obtain ⟨hok,hinput,houtput⟩ : r.error = .ok ∧ r.inputBytes = 19 ∧ r.outputBytes = 58 := by simpa using hr
  obtain ⟨c,hcontainer,hpublished,hiff⟩ := @accounted_iff mixedData printRun .print r s hrun hok
  have hmixed : printRun.container = some mixedContainer := by decide +kernel
  obtain rfl : c = mixedContainer := Option.some.inj (hcontainer.symm.trans hmixed)
  exact ⟨r,s,rfl,hok,hmixed,hpublished,hinput,houtput,hiff.mpr ⟨trivial,by decide,by decide⟩⟩

/-- A `DynamicBufferSink` has published a container, and counts nothing. -/
theorem published_uncounted : ∃ r s c,
    (CompressJob.ofBuffer [] { blockSize := 1, windowSize := 1 } validConfig_one).run = (some r,s) ∧
    r.error = .ok ∧ published s.trace = some c ∧ r.outputBytes.toNat = 0 ∧ 24 ≤ c.length := by
  let job := CompressJob.ofBuffer [] { blockSize := 1, windowSize := 1 } validConfig_one
  obtain ⟨r,s,hrun,hok⟩ := job.returns
  obtain ⟨c,hcontainer,hpublished,-,-,k,hstaged,hcommit,houtput⟩ := job.result hrun hok
  refine ⟨r,s,c,hrun,hok,hpublished,?_,?_⟩
  · rw [houtput]
    exact congrArg UInt64.toNat ((BuiltinSink.dynamic.bytesWritten_commit hstaged hcommit).2 not_false)
  · rw [CompressRun.container,Option.map_eq_some_iff] at hcontainer
    obtain ⟨t,-,rfl⟩ := hcontainer
    exact encode_length_ge _ _

end Compressor
end EspCompressor
