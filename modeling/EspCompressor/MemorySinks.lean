import EspCompressor.BuiltinIo

/-! What jobs leave in the sinks that work in memory, one after the other on the same sink. -/
namespace EspCompressor

open Compressor (runSyncJob runSyncJob_ends)

/-- A job that has returned: its error, and the bytes that were written during it. -/
structure JobRecord where
  error : CompressionError
  bytes : List UInt8

/-- One job into a sink in the state `k`, from any source, with any settings, heap and cancel flag. -/
inductive Job {κ : Type} (sink : CompressionSink κ) (k : κ) : JobRecord → κ → Prop
  | returned {σ : Type} {ctx : RunContext σ κ} {fuel : ℕ} {source : σ} {heap : Heap}
      {r : CompressionResult} {s : RunState σ κ} : ctx.sink = sink →
      Proc.exec (runSyncJob ctx fuel) (.start source k heap) = (some r,s) →
      Job sink k ⟨r.error,written s.trace⟩ s.sink

/-- Jobs into one sink, one after the other. -/
inductive Jobs {κ : Type} (sink : CompressionSink κ) : κ → List JobRecord → κ → Prop
  | nil (k : κ) : Jobs sink k [] k
  | cons {k k' k'' : κ} {record : JobRecord} {records : List JobRecord} : Job sink k record k' →
      Jobs sink k' records k'' → Jobs sink k (record :: records) k''

/-- What a job leaves in a vector that held `out`. -/
def JobRecord.vector (out : List UInt8) (record : JobRecord) : List UInt8 :=
  if record.error = .ok then record.bytes else out

/-- What a job leaves in a buffer: its bytes go to the front, and what follows them stays. -/
def JobRecord.fill (buffer : Option (List UInt8)) (record : JobRecord) : Option (List UInt8) :=
  if record.error = .ok then buffer.map fun b => record.bytes ++ b.drop record.bytes.length else buffer

/-- A job ends its session in one of the ways of `SinkEnding`. -/
theorem Job.ending {κ : Type} {sink : CompressionSink κ} {k k' : κ} {record : JobRecord}
    (h : Job sink k record k') : ∃ opened cs, SinkEnding sink k opened cs record.bytes record.error k' := by
  cases h with
  | @returned _ ctx fuel source heap _ _ hsink hrun =>
    have hends := Proc.exec_of_wp (runSyncJob_ends ctx fuel source heap) hrun
    unfold Compressor.EndsSession at hends
    rw [hsink] at hends
    exact ⟨_,_,hends⟩

/-! ### The vector -/

theorem DynamicBufferSink.commit_out {k : DynamicBufferSink} (h : k.isOpen = true) :
    (sink.commit k).2.out = k.staging.contents := by
  by_cases hempty : k.staging.size = 0
  · have hnil : k.staging.contents = [] := by simp [← List.length_eq_zero_iff,hempty]
    simp [sink,h,hempty,hnil]
  · simp [sink,h,hempty]

theorem DynamicBufferSink.job {k k' : DynamicBufferSink} {record : JobRecord}
    (h : Job sink k record k') : k'.out = record.vector k.out := by
  obtain ⟨opened,cs,hending⟩ := h.ending
  by_cases hok : record.error = .ok
  · rw [JobRecord.vector,if_pos hok]
    rw [hok] at hending
    generalize record.bytes = bytes at hending ⊢
    cases hending with
    | rejected he => exact absurd rfl he
    | sourceFailed he => exact absurd rfl he
    | openFailed he _ => exact absurd rfl he
    | aborted he _ => exact absurd rfl he
    | committed hstaged _ =>
      obtain ⟨hopen,hcontents,-,-⟩ := staged hstaged
      exact (commit_out hopen).trans hcontents
  · rw [JobRecord.vector,if_neg hok]
    exact transactional k hending hok

/-- After any number of jobs on one sink, its vector holds what they left one after the other. -/
theorem DynamicBufferSink.jobs {k k' : DynamicBufferSink} {records : List JobRecord}
    (h : Jobs sink k records k') : k'.out = records.foldl JobRecord.vector k.out := by
  induction h with
  | nil k => rfl
  | cons hjob _ ih => rw [ih,List.foldl_cons,job hjob]

/-! ### The buffer -/

/-- A commit that fails changes nothing; one that succeeds fills the buffer. -/
theorem FixedBufferSink.commit_cases (k : FixedBufferSink) :
    ((sink.commit k).1 ≠ .ok ∧ (sink.commit k).2 = k ∧
      (k.isOpen = false ∨ k.buffer = none ∨ k.capacity < k.staging.size)) ∨
    (sink.commit k).1 = .ok ∧ k.staging.size ≤ k.capacity ∧ (sink.commit k).2.capacity = k.capacity ∧
      (sink.commit k).2.staging = k.staging.release ∧
      (sink.commit k).2.buffer = k.buffer.map fun b => k.staging.contents ++ b.drop k.staging.size := by
  simp only [sink]
  split_ifs with hopen hfits
  · exact .inl ⟨by simp,rfl,.inl hopen⟩
  · split
    · rename_i hnull
      exact .inl ⟨by simp,rfl,.inr (.inl hnull)⟩
    · exact .inl ⟨by simp,rfl,.inr (.inr hfits)⟩
  · split
    · rename_i hnull
      exact .inl ⟨by simp,rfl,.inr (.inl hnull)⟩
    · rename_i b hb
      have hfilled : (k.buffer.map fun b => k.staging.contents ++ b.drop k.staging.size) =
          some (k.staging.contents ++ b.drop k.staging.size) := by
        rw [hb]
        rfl
      exact .inr ⟨rfl,not_lt.mp hfits,rfl,rfl,hfilled.symm⟩

theorem MemoryBuffer.append_fits {bytes : List UInt8} {s : BufferState} (h : (append bytes s).1 = true) :
    bytes.length = 0 ∨ s.heap.overflows s.buffer.size bytes.length = false := by
  by_cases hempty : bytes.length = 0
  · exact .inl hempty
  · refine .inr (Bool.eq_false_of_not_eq_true fun hover => ?_)
    simp [append,hempty,hover] at h

theorem Heap.wrap_of_fits {h : Heap} {a b : ℕ} (hfits : h.overflows a b = false) : h.wrap (a + b) = a + b := by
  unfold overflows at hfits
  unfold wrap
  cases hbits : h.sizeBits with
  | none => rfl
  | some w =>
    rw [hbits] at hfits
    exact Nat.mod_eq_of_lt (not_le.mp (of_decide_eq_false hfits))

/-- A write into an open sink is staged, or it is refused: it does not fit, or memory runs out. -/
theorem FixedBufferSink.write_cases {k : FixedBufferSink} (hopen : k.isOpen = true)
    (hfits : k.staging.size ≤ k.capacity) (bytes : List UInt8) :
    ((sink.write bytes k).1 = .ok ∧ (sink.write bytes k).2.staging.contents = k.staging.contents ++ bytes ∧
      k.staging.size + bytes.length ≤ k.capacity ∧ (sink.write bytes k).2.isOpen = true ∧
      (sink.write bytes k).2.buffer = k.buffer ∧ (sink.write bytes k).2.capacity = k.capacity ∧
      k.heap.SameSupply (sink.write bytes k).2.heap) ∨
    (sink.write bytes k).1 ≠ .ok ∧
      ((sink.write bytes k).1 = .outputOverflow ∧ k.capacity < k.staging.size + bytes.length ∨
        ¬k.heap.Ample (k.staging.size + bytes.length)) := by
  obtain ⟨hsupply,htrue,-,hample⟩ := MemoryBuffer.append_spec bytes ⟨k.staging,k.heap⟩
  have hfitting := @MemoryBuffer.append_fits bytes ⟨k.staging,k.heap⟩
  simp only [sink,hopen,Bool.true_eq_false,if_false]
  split_ifs with hover happend
  · refine .inr ⟨by simp,?_⟩
    by_cases hroom : k.heap.Ample (k.staging.size + bytes.length)
    · rw [hroom.wrap_eq le_rfl] at hover
      exact .inl ⟨rfl,hover⟩
    · exact .inr hroom
  · refine .inl ⟨rfl,htrue happend,?_,rfl,rfl,rfl,hsupply⟩
    rcases hfitting happend with hempty | hnowrap
    · rw [hempty]
      exact hfits
    · rw [Heap.wrap_of_fits hnowrap] at hover
      exact not_lt.mp hover
  · exact .inr ⟨by simp,.inr fun hroom => happend (hample hroom)⟩

/-- A `FixedBufferSink` changes its buffer only when it commits. -/
theorem FixedBufferSink.transactional (k₀ : FixedBufferSink) :
    Transactional sink k₀ fun k => (k.buffer,k.capacity) := by
  intro opened cs bytes e k h he
  cases h with
  | rejected _ => rfl
  | sourceFailed _ => rfl
  | openFailed _ _ => rfl
  | aborted _ hunfinished =>
    cases hunfinished with
    | staged hstaged =>
      obtain ⟨-,-,hbuffer,hcapacity⟩ := staged hstaged
      exact Prod.ext hbuffer hcapacity
    | @writeFailed _ k more hstaged _ =>
      obtain ⟨-,-,hbuffer,hcapacity⟩ := staged hstaged
      have hwrite : (sink.write more k).2.buffer = k.buffer ∧ (sink.write more k).2.capacity = k.capacity := by
        simp only [sink]
        split_ifs <;> exact ⟨rfl,rfl⟩
      exact Prod.ext (hwrite.1.trans hbuffer) (hwrite.2.trans hcapacity)
    | @commitFailed _ k hstaged hcommit =>
      obtain ⟨-,-,hbuffer,hcapacity⟩ := staged hstaged
      rcases commit_cases k with ⟨-,hsame,-⟩ | ⟨hok,-⟩
      · rw [hsame]
        exact Prod.ext hbuffer hcapacity
      · exact absurd hok hcommit
  | committed _ _ => exact absurd rfl he

theorem FixedBufferSink.job {k k' : FixedBufferSink} {record : JobRecord} (h : Job sink k record k') :
    k'.buffer = record.fill k.buffer ∧ k'.capacity = k.capacity ∧
      (record.error = .ok → record.bytes.length ≤ k.capacity) := by
  obtain ⟨opened,cs,hending⟩ := h.ending
  by_cases hok : record.error = .ok
  · rw [JobRecord.fill,if_pos hok]
    rw [hok] at hending
    generalize record.bytes = bytes at hending ⊢
    cases hending with
    | rejected he => exact absurd rfl he
    | sourceFailed he => exact absurd rfl he
    | openFailed he _ => exact absurd rfl he
    | aborted he _ => exact absurd rfl he
    | @committed _ k₁ hstaged hcommit =>
      obtain ⟨-,rfl,hbuffer,hcapacity⟩ := staged hstaged
      rcases commit_cases k₁ with ⟨hfailed,-⟩ | ⟨-,hfits,hkept,-,hfilled⟩
      · exact absurd hcommit hfailed
      · rw [MemoryBuffer.contents_length,← hbuffer,← hcapacity]
        exact ⟨hfilled,hkept,fun _ => hfits⟩
  · rw [JobRecord.fill,if_neg hok]
    have hkept := transactional k hending hok
    exact ⟨congrArg Prod.fst hkept,congrArg Prod.snd hkept,fun h => absurd h hok⟩

/-- After any number of jobs on one sink, its buffer holds what they left one after the other. -/
theorem FixedBufferSink.jobs {k k' : FixedBufferSink} {records : List JobRecord} (h : Jobs sink k records k') :
    k'.buffer = records.foldl JobRecord.fill k.buffer ∧
      ∀ record ∈ records, record.error = .ok → record.bytes.length ≤ k.capacity := by
  induction h with
  | nil k => exact ⟨rfl,by simp⟩
  | cons hjob _ ih =>
    obtain ⟨hbuffer,hcapacity,hfits⟩ := job hjob
    refine ⟨by rw [ih.1,List.foldl_cons,hbuffer],fun record hmem => ?_⟩
    rcases List.mem_cons.mp hmem with rfl | hmem
    · exact hfits
    · rw [← hcapacity]
      exact ih.2 record hmem

end EspCompressor
