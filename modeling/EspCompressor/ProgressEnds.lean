import EspCompressor.ProgressRuns

/-! The reports of whole runs, and which runs report well. -/
namespace EspCompressor
namespace Compressor
namespace HonestRun

open Container

variable {d : List UInt8} {job : HonestRun d}

/-! ### Sessions -/

/-- How a run that has returned ends: `count` tells what its last report counts as output. -/
def Ending (job : HonestRun d) (count : List UInt8 → UInt64 → Prop) (r : CompressionResult)
    (s : job.State) : Prop :=
  (Failed r ∧ Informed d.length s.trace) ∨
    (r.error = .ok ∧ ∃ last, Concluded d.length s.trace last ∧ count (written s.trace) last.producedOutputBytes)

theorem destroySession_informed {s : job.State} (h : Informed d.length s.trace) :
    Informed d.length (destroySession job.ctx s).trace := by
  unfold destroySession
  dsimp only
  split_ifs
  · rw [List.append_assoc]
    exact h.append (by simp [IoEvent.report])
  · exact h.append (by simp [IoEvent.report])

theorem Closing.ends {count : List UInt8 → UInt64 → Prop} {r : CompressionResult} {s : job.State}
    (h : job.Closing count r s) : job.Ending count r (destroySession job.ctx s) := by
  obtain ⟨before,last,htrace,hinformed,hdone,htells,hcount⟩ := h.trace_eq
  have hend : (destroySession job.ctx s).trace =
      before ++ [.commit .ok,.progress last,.sinkClose,.sourceClose] := by
    simp [destroySession,h.committed,htrace]
  refine .inr ⟨h.error,last,⟨⟨before,hend,hinformed,htells⟩,hdone⟩,?_⟩
  rw [hend]
  simpa [IoEvent.written] using hcount

/-- A session around a body that closes. -/
theorem session_reports {count : List UInt8 → UInt64 → Prop}
    {m : Proc CompressionResult job.State CompressionResult}
    (hm : ∀ s, job.Live s → s.consumed = 0 → s.produced = 0 → Proc.wp m (job.Closing count)
      (fun r s' => Failed r ∧ Informed d.length s'.trace) (fun s' => Informed d.length s'.trace) s)
    (result : CompressionResult) :
    Proc.wp (Proc.destroying (destroySession job.ctx) (do openSession job.ctx result; m))
      (job.Ending count) (job.Ending count) (fun s => Informed d.length s.trace)
      (.start job.source job.k₀ job.heap) := by
  have hquiet (t : List IoEvent) (ht : ∀ e ∈ t, e.report = none) : Informed d.length t :=
    (Informed.nil d.length).append ht
  simp only [Proc.wp_destroying,openSession,openSource,openSink,Proc.wp_bind,Proc.wp_lift,check,
    Proc.wp_returnIf,Proc.wp_modify]
  refine ⟨fun he => ?_,fun _ => ⟨fun he => ?_,fun he => ?_⟩⟩
  · exact .inl ⟨he,destroySession_informed (hquiet _ (by simp [RunState.start,IoEvent.report]))⟩
  · exact .inl ⟨he,destroySession_informed (hquiet _ (by simp [RunState.start,IoEvent.report]))⟩
  · have hok : (job.ctx.sink.open' job.k₀).1 = .ok := not_not.mp he
    refine Proc.wp_mono (hm _ ⟨⟨rfl,rfl,?_,rfl,?_⟩,⟨d,job.opened,?_⟩,?_⟩ ?_ ?_) (fun r s h => h.ends)
      (fun r s h => .inl ⟨h.1,destroySession_informed h.2⟩) fun _ h => h
    · simp [RunState.start,sinkOpened,hok]
    · simpa [RunState.start,IoEvent.written] using Staged.opened hok
    · simp [RunState.consumed,RunState.start,meter,IoEvent.meter]
    · exact hquiet _ (by simp [RunState.start,IoEvent.report])
    · simp [RunState.consumed,RunState.start,meter,IoEvent.meter]
    · simp [RunState.produced,RunState.start,IoEvent.written]

/-! ### Whole runs -/

/-- What the last report of the job counts as output. -/
def Counts (job : HonestRun d) (bytes : List UInt8) (n : UInt64) : Prop :=
  match job.ctx.operation with
  | .compress => job.CountsCommitted bytes n
  | .decompress => CountsWritten bytes n

theorem runSyncJob_reports (hcounts : job.SinkCounts) :
    Proc.wp (runSyncJob job.ctx job.fuel) (job.Ending job.Counts) (job.Ending job.Counts)
      (fun s => Informed d.length s.trace) (.start job.source job.k₀ job.heap) := by
  have hrefused (e : CompressionError) (he : e ≠ .ok) (result : CompressionResult) :
      job.Ending job.Counts { result with error := e } (.start job.source job.k₀ job.heap) :=
    .inl ⟨he,Informed.nil _⟩
  unfold runSyncJob runSyncJobBy
  cases hoperation : job.ctx.operation with
  | compress =>
    simp only [runCompress,requireTransactional,Proc.wp_bind,Proc.wp_returnIf,Proc.wp_get]
    refine ⟨fun _ => hrefused _ (by simp) _,fun _ => ⟨fun _ => hrefused _ (by simp) _,fun _ => ?_⟩⟩
    have hcount : job.Counts = job.CountsCommitted := by
      funext bytes n
      simp only [Counts,hoperation]
    rw [hcount]
    exact session_reports (fun s hs hstart _ => compressSession_closing hcounts rfl _ hs hstart) _
  | decompress =>
    simp only [runDecompressBy,requireTransactional,Proc.wp_bind,Proc.wp_returnIf,Proc.wp_get]
    refine ⟨fun _ => hrefused _ (by simp) _,fun _ => ?_⟩
    have hcount : job.Counts = CountsWritten := by
      funext bytes n
      simp only [Counts,hoperation]
    rw [hcount]
    exact session_reports (fun s hs hstart hproduced => decompressSession_closing rfl _ hs hstart hproduced) _

/-- The job returns `Ok`. -/
def Succeeds (job : HonestRun d) : Prop := job.run.1.map (·.error) = some .ok

theorem run_informed (hcounts : job.SinkCounts) (h : ¬job.Succeeds) : Informed d.length job.run.2.trace := by
  rcases Proc.exec_cases (runSyncJob_reports hcounts) with ⟨r,hreturned,hfailed | ⟨hok,-⟩⟩ | ⟨-,hstuck⟩
  · exact hfailed.2
  · refine absurd ?_ h
    rw [Succeeds,run,hreturned,Option.map_some,hok]
  · exact hstuck

theorem run_concluded (hcounts : job.SinkCounts) (h : job.Succeeds) : ∃ last,
    Concluded d.length job.run.2.trace last ∧
      job.Counts (written job.run.2.trace) last.producedOutputBytes := by
  rcases Proc.exec_cases (runSyncJob_reports hcounts) with ⟨r,hreturned,hfailed | ⟨-,hends⟩⟩ | ⟨hstuck,-⟩
  · rw [Succeeds,run,hreturned] at h
    exact absurd (Option.some.inj h) hfailed.1
  · exact hends
  · rw [Succeeds,run,hstuck] at h
    simp at h

/-- A compression that returns `Ok` has written a container. -/
theorem container_written (hoperation : job.ctx.operation = .compress) (h : job.Succeeds) :
    24 ≤ (written job.run.2.trace).length := by
  obtain ⟨r,hreturned,hok⟩ := Option.map_eq_some_iff.mp h
  have hrun : job.toCompressRun.run = (some r,job.run.2) := by
    have hsync : runSyncJob job.ctx job.fuel = runCompress job.ctx job.fuel := by
      rw [runSyncJob,runSyncJobBy,hoperation]
    rw [CompressRun.run,← hsync]
    exact Prod.ext hreturned rfl
  obtain ⟨c,-,hpublished,hdecode,-⟩ := job.toCompressRun.result hrun hok
  obtain ⟨-,hwritten⟩ := compressed_of_exec hrun hok
  obtain ⟨header,blocks,hc,-⟩ := decode_ok_iff.mp hdecode
  rw [hpublished,Option.some.injEq] at hwritten
  rw [← hwritten,hc,List.append_nil]
  exact encode_length_ge header blocks

/-- The last report counts what was written, unless a compression has committed into a sink whose
count the commit resets. -/
theorem last_counts_iff (b : BuiltinSink job.ctx.sink) (h : job.Succeeds) {n : UInt64}
    (hcount : job.Counts (written job.run.2.trace) n) (hfits : Fits job.run.2.trace) :
    n = UInt64.ofNat (written job.run.2.trace).length ↔
      job.ctx.operation = .decompress ∨ b.KeepsTotal := by
  unfold Counts at hcount
  cases hoperation : job.ctx.operation with
  | decompress =>
    rw [hoperation] at hcount
    exact ⟨fun _ => .inl rfl,fun _ => hcount⟩
  | compress =>
    rw [hoperation] at hcount
    obtain ⟨k,hstaged,hcommit,rfl⟩ := hcount
    obtain ⟨htotal,hreleased⟩ := b.bytesWritten_commit hstaged hcommit
    by_cases hkeeps : b.KeepsTotal
    · exact ⟨fun _ => .inr hkeeps,fun _ => htotal hkeeps⟩
    have hlength := container_written hoperation h
    rw [hreleased hkeeps]
    constructor
    · intro hzero
      -- the container would be empty
      have hnat := congrArg UInt64.toNat hzero
      rw [UInt64.toNat_ofNat_of_lt' hfits.2,UInt64.toNat_zero] at hnat
      omega
    · intro hor
      exact absurd (hor.resolve_left (by simp)) hkeeps

/-- A run that does not return `Ok` reports well, and one that does reports well exactly if it is a
decompression or its sink keeps a total of its own, as long as the counters do not overflow. -/
theorem progress_reported (job : HonestRun d) (b : BuiltinSink job.ctx.sink) :
    (¬job.Succeeds → Fits job.run.2.trace → ReportsWell job.run.2.trace false) ∧
    (job.Succeeds → (ReportsWell job.run.2.trace true ↔
      (job.ctx.operation = .decompress ∨ b.KeepsTotal) ∧ Fits job.run.2.trace)) := by
  have hcounts : job.SinkCounts := b.bytesWritten_staged
  refine ⟨fun h hfits => (run_informed hcounts h).reportsWell hfits,fun h => ?_⟩
  obtain ⟨last,hconcluded,hcount⟩ := run_concluded hcounts h
  rw [hconcluded.reportsWell_iff]
  constructor
  · rintro ⟨hfits,hlast⟩
    exact ⟨(last_counts_iff b h hcount hfits).mp hlast,hfits⟩
  · rintro ⟨hkind,hfits⟩
    exact ⟨hfits,(last_counts_iff b h hcount hfits).mpr hkind⟩

/-- Three bytes in blocks of two, compressed into a print device. -/
def printed (cancelRequested : ℕ → Bool) : HonestRun [1,2,3] where
  σ := BufferSource
  κ := PrintSink
  ctx :=
    { config := { blockSize := 2, windowSize := 1 }
      options := { allowPartialOutput := true }
      operation := .compress
      source := BufferSource.source
      sink := PrintSink.sink
      cancelRequested }
  source := ⟨[1,2,3],0,false⟩
  k₀ := { print := ⟨[],fun _ => 1000,0⟩ }
  heap := .unlimited
  fuel := 4
  known := true
  Inv := BufferSource.Remains [1,2,3]
  honest := BufferSource.honest [1,2,3]
  opened := BufferSource.remains_open [1,2,3]
  size _ := by decide

/-- One run that returns `Ok`, and one that is cancelled after its first report. -/
theorem progress_reported_printed : ReportsWell (printed fun _ => false).run.2.trace true ∧
    ReportsWell (printed fun n => decide (n = 1)).run.2.trace false ∧
    (reports (printed fun n => decide (n = 1)).run.2.trace).length = 1 := by
  refine ⟨?_,?_,by decide +kernel⟩
  · refine ((progress_reported (printed _) .print).2 ?_).mpr ⟨.inr trivial,?_⟩
    · unfold Succeeds
      decide +kernel
    · exact ⟨by decide +kernel,by decide +kernel⟩
  · refine (progress_reported (printed _) .print).1 ?_ ⟨by decide +kernel,by decide +kernel⟩
    unfold Succeeds
    decide +kernel

/-- Three bytes in blocks of two, compressed into a vector. -/
def buffered : HonestRun [1,2,3] where
  σ := BufferSource
  κ := DynamicBufferSink
  ctx :=
    { config := { blockSize := 2, windowSize := 1 }
      operation := .compress
      source := BufferSource.source
      sink := DynamicBufferSink.sink }
  source := ⟨[1,2,3],0,false⟩
  k₀ := ⟨[],.new,false,.unlimited⟩
  heap := .unlimited
  fuel := 4
  known := true
  Inv := BufferSource.Remains [1,2,3]
  honest := BufferSource.honest [1,2,3]
  opened := BufferSource.remains_open [1,2,3]
  size _ := by decide

/-- The last report counts no output: the commit has released the staging buffer. -/
theorem last_report_empty : buffered.Succeeds ∧ Fits buffered.run.2.trace ∧
    ((reports buffered.run.2.trace).map fun p => (p.producedOutputBytes.toNat,p.done)) =
      [(39,false),(53,false),(0,true)] ∧
    (published buffered.run.2.trace).map List.length = some 53 ∧
    ¬ReportsWell buffered.run.2.trace true := by
  refine ⟨?_,⟨?_,?_⟩,?_,?_,fun h => ?_⟩
  · unfold Succeeds
    decide +kernel
  · decide +kernel
  · decide +kernel
  · decide +kernel
  · decide +kernel
  · have hmonotone := h.monotone
    revert hmonotone
    decide +kernel

end HonestRun
end Compressor
end EspCompressor
