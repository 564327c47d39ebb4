import EspCompressor.Amplification
import EspCompressor.PassThrough
import EspCompressor.SizedRuns
import EspCompressor.Truthful

/-! What holds of decompressions with the `size_t` of their heap: it must hold the sums of the lengths that
what is delivered can announce. -/
namespace EspCompressor
namespace Compressor

open Container

variable {σ κ : Type}

/-! ### What is accepted -/

/-- A byte string is accepted exactly if it starts with a container of the grammar, and nothing
but the byte string decides the error and the output. -/
theorem decompress_accepts_iff {d : List UInt8} (job : DecompressJob d) (hsums : job.heap.HoldsSums d.length) :
    ∃ r s, job.sizedRun = (some r,s) ∧ (r.error,published s.trace) = outcome d ∧
      ∀ o, o.length < 2 ^ 64 →
        (r.error = .ok ∧ published s.trace = some o ↔ ∃ c rest, d = c ++ rest ∧ IsContainer c o) := by
  rw [job.sizedRun_eq hsums]
  exact job.accepts_iff

/-- The container is accepted, and cut short by one byte it is not. -/
theorem mixedContainer_accepted :
    (∃ r s, (DecompressJob.ofBuffer32 mixedContainer).sizedRun = (some r,s) ∧ r.error = .ok ∧
      published s.trace = some mixedData) ∧
    ∃ r s, (DecompressJob.ofBuffer32 (mixedContainer.take 57)).sizedRun = (some r,s) ∧ r.error = .corruptData ∧
      published s.trace = none ∧ ∀ o, o.length < 2 ^ 64 → ¬IsContainer (mixedContainer.take 57) o := by
  have hsums : (Heap.granting 32).HoldsSums 58 := Heap.granting_holdsSums (by decide)
  constructor
  · obtain ⟨r,s,hrun,-,hiff⟩ :=
      decompress_accepts_iff (DecompressJob.ofBuffer32 mixedContainer) (hsums.mono mixedContainer_length.le)
    exact ⟨r,s,hrun,(hiff mixedData (by decide)).mpr
      ⟨_,[],(List.append_nil _).symm,mixedContainer_isContainer⟩⟩
  · obtain ⟨r,s,hrun,houtcome,hiff⟩ := decompress_accepts_iff (DecompressJob.ofBuffer32 (mixedContainer.take 57))
      (hsums.mono (List.length_take_le' _ _))
    have hcut : outcome (mixedContainer.take 57) = (.corruptData,none) := by decide +kernel
    obtain ⟨herror,hnone⟩ := Prod.mk.inj (houtcome.trans hcut)
    refine ⟨r,s,hrun,herror,hnone,fun o ho hcontainer => ?_⟩
    obtain ⟨hok,-⟩ := (hiff o ho).mpr ⟨_,[],(List.append_nil _).symm,hcontainer⟩
    rw [herror] at hok
    exact absurd hok (by decide)

/-! ### What leaves -/

theorem receiver_delivers (d : List UInt8) : Delivers BufferSource.source (BufferSource.Remains d) :=
  (BufferSource.honest d).toDelivers
theorem receiver_opened (d : List UInt8) : BufferSource.Remains d d (BufferSource.source.open' ⟨d,0,false⟩).2 :=
  BufferSource.remains_open d

theorem receiver_open (d : List UInt8) : (BufferSource.source.open' ⟨d,0,false⟩).1 = .ok := rfl

/-- A decompression onto a device that cuts its `n`-th write, where `size_t` has 32 bits. -/
def receiverRun (d : List UInt8) (n : ℕ) : DecompressRun d where
  σ := BufferSource
  κ := PrintSink
  ctx :=
    { operation := .decompress
      options := { allowPartialOutput := true }
      source := BufferSource.source
      sink := PrintSink.sink }
  source := ⟨d,0,false⟩
  k₀ := cutDevice n
  heap := .granting 32
  fuel := d.length + 1
  Inv := BufferSource.Remains d
  delivers := receiver_delivers d
  open_ok := receiver_open d
  opened := receiver_opened d

theorem receiverRun_operation (d : List UInt8) (n : ℕ) : (receiverRun d n).ctx.operation = .decompress := rfl
theorem receiverRun_allowed (d : List UInt8) (n : ℕ) : (receiverRun d n).ctx.options.allowPartialOutput = true := rfl
theorem receiverRun_ample (d : List UInt8) (n : ℕ) : (receiverRun d n).heap.Ample uint32Max :=
  Heap.granting_ample_uint32Max
theorem receiverRun_fuel (d : List UInt8) (n : ℕ) : d.length < (receiverRun d n).fuel := Nat.lt_succ_self _

def receiver (d : List UInt8) (n : ℕ) : DecompressAttempt d :=
  ⟨receiverRun d n,receiverRun_operation d n,.inr (receiverRun_allowed d n),receiverRun_ample d n,
    receiverRun_fuel d n⟩

/-- The sums of as many bytes as `mixedContainer` has fit. -/
theorem receiver_holdsSums (d : List UInt8) (n : ℕ) {got : List UInt8} (h : got <+: mixedContainer) :
    (receiver d n).heap.HoldsSums got.length := by
  have hsums : (Heap.granting 32).HoldsSums 58 := Heap.granting_holdsSums (by decide)
  exact hsums.mono (h.length_le.trans mixedContainer_length.le)

/-- All of a container cut short is delivered, it is refused, and its first block leaves. -/
theorem receiver_cut : delivered (receiver (mixedContainer.take 57) 9).sizedRun.2.trace = mixedContainer.take 57 ∧
    (receiver (mixedContainer.take 57) 9).sizedRun.1.map CompressionResult.error = some .corruptData ∧
    written (receiver (mixedContainer.take 57) 9).sizedRun.2.trace = List.replicate 16 97 := by
  decide +kernel

/-- All of a container is delivered, and accepted. -/
theorem receiver_whole : delivered (receiver mixedContainer 9).sizedRun.2.trace = mixedContainer ∧
    (receiver mixedContainer 9).sizedRun.1.map CompressionResult.error = some .ok := by
  decide +kernel

/-- On any source, into any sink and under any cancel flag: at every moment of a decompression nothing has been
written but the data of the records, whole and with a matching checksum, at the front of what has been delivered by
then, whatever else is delivered later; and when it returns `Ok`, all that has been delivered is one container, whose
data it has published. -/
theorem only_sound_records_leave (ctx : RunContext σ κ) (fuel : ℕ) (source : σ) (k₀ : κ) (heap : Heap) :
    let run := sizedDecompress ctx fuel source k₀ heap
    heap.HoldsSums (delivered run.2.trace).length →
    (∀ before, before <+: run.2.trace → ∀ d, delivered before <+: d → written before <+: salvage d) ∧
      ∀ r, run.1 = some r → r.error = .ok →
        ∃ o, published run.2.trace = some o ∧ decode (delivered run.2.trace) = .ok (o,[]) := by
  intro run hsums
  have hrun : run = Proc.exec (runDecompress ctx fuel) (.start source k₀ heap) := sizedDecompress_eq (.inl hsums)
  rw [hrun]
  exact sound_records_leave ctx fuel source k₀ heap

/-- Of a container cut short by one byte the first block has been written, of a whole one all. -/
theorem only_sound_records_leave_cut :
    (delivered (receiver (mixedContainer.take 57) 9).sizedRun.2.trace = mixedContainer.take 57 ∧
      written (receiver (mixedContainer.take 57) 9).sizedRun.2.trace = List.replicate 16 97 ∧
      List.replicate 16 97 <+: salvage (mixedContainer.take 57)) ∧
    ∃ r, (receiver mixedContainer 9).sizedRun.1 = some r ∧ r.error = .ok ∧
      published (receiver mixedContainer 9).sizedRun.2.trace = some mixedData := by
  have hruns {d : List UInt8} {n : ℕ} (hd : delivered (receiver d n).sizedRun.2.trace <+: mixedContainer) :
      written (receiver d n).sizedRun.2.trace <+: salvage (delivered (receiver d n).sizedRun.2.trace) ∧
      ∀ r, (receiver d n).sizedRun.1 = some r → r.error = .ok →
        ∃ o, published (receiver d n).sizedRun.2.trace = some o ∧
          decode (delivered (receiver d n).sizedRun.2.trace) = .ok (o,[]) := by
    obtain ⟨hsound,hexact⟩ := only_sound_records_leave (receiver d n).ctx (receiver d n).fuel (receiver d n).source
      (receiver d n).k₀ (receiver d n).heap (receiver_holdsSums d n hd)
    exact ⟨hsound _ (List.prefix_refl _) _ (List.prefix_refl _),hexact⟩
  constructor
  · obtain ⟨hdelivered,-,hwritten⟩ := receiver_cut
    obtain ⟨hfront,-⟩ := hruns (by rw [hdelivered]; exact List.take_prefix 57 mixedContainer)
    rw [hdelivered,hwritten] at hfront
    exact ⟨hdelivered,hwritten,hfront⟩
  · obtain ⟨hdelivered,hok⟩ := receiver_whole
    obtain ⟨r,hr,herror⟩ := Option.map_eq_some_iff.mp hok
    obtain ⟨-,hexact⟩ := hruns (by rw [hdelivered])
    obtain ⟨o,hpublished,hdecode⟩ := hexact r hr herror
    rw [hdelivered,decode_mixedContainer] at hdecode
    obtain ⟨rfl,-⟩ := Prod.mk.inj (Except.ok.inj hdecode)
    exact ⟨r,hr,herror,hpublished⟩

/-- Whatever the sink and the cancel flag do, a decompression of `d` returns: with the error and the output that `d`
decides, or with the error of the first fault. Also when it fails it writes what can be salvaged of `d`, up to the
first fault; that is all of the output when `d` is a container, and the front of it when `d` is one cut short. -/
theorem decompress_despite_faults {d : List UInt8} (job : DecompressAttempt d)
    (hsums : job.heap.HoldsSums d.length) :
    (∃ r s, job.sizedRun = (some r,s) ∧ Verdict (outcome d) (salvage d) r s.trace) ∧
      (∀ o rest, decode d = .ok (o,rest) → salvage d = o) ∧
      ∀ c o rest, decode c = .ok (o,rest) → d <+: c → salvage d <+: o := by
  rw [job.sizedRun_eq hsums]
  exact ⟨job.verdict,fun o rest h => salvage_of_decode h,fun c o rest h hd => salvage_of_decode h ▸ salvage_mono hd⟩

/-- A container whole, cut short by one byte, and onto a device that cuts the second block. -/
theorem decompress_despite_faults_cut :
    (∃ r s, (receiver mixedContainer 9).sizedRun = (some r,s) ∧ r.error = .ok ∧
      published s.trace = some mixedData) ∧
    (∃ r s, (receiver (mixedContainer.take 57) 9).sizedRun = (some r,s) ∧ r.error = .corruptData ∧
      published s.trace = none ∧ written s.trace = List.replicate 16 97) ∧
    ∃ r s, (receiver mixedContainer 1).sizedRun = (some r,s) ∧ r.error = .writeFailed ∧ published s.trace = none ∧
      written s.trace <+: mixedData := by
  have houtcome : outcome mixedContainer = (.ok,some mixedData) := outcome_of_ok decode_mixedContainer
  refine ⟨?_,?_,?_⟩
  · obtain ⟨⟨r,s,hrun,hverdict⟩,-⟩ := decompress_despite_faults (receiver mixedContainer 9)
      (receiver_holdsSums mixedContainer 9 (List.prefix_refl _))
    obtain ⟨-,hok⟩ := receiver_whole
    rw [hrun] at hok
    obtain ⟨-,hall,-⟩ | ⟨hfaulty,-,-⟩ := hverdict
    · rw [houtcome] at hall
      exact ⟨r,s,hrun,(Prod.mk.inj hall).1,(Prod.mk.inj hall).2⟩
    · exact absurd (Option.some.inj hok) hfaulty.error_ne
  · obtain ⟨⟨r,s,hrun,hverdict⟩,-⟩ := decompress_despite_faults (receiver (mixedContainer.take 57) 9)
      (receiver_holdsSums _ 9 (List.take_prefix 57 mixedContainer))
    obtain ⟨-,hfailed,hsalvage⟩ := receiver_cut
    have hcut : outcome (mixedContainer.take 57) = (.corruptData,none) := by decide +kernel
    rw [hrun] at hfailed hsalvage
    obtain ⟨-,hall,-⟩ | ⟨-,hnone,-⟩ := hverdict
    · rw [hcut] at hall
      exact ⟨r,s,hrun,(Prod.mk.inj hall).1,(Prod.mk.inj hall).2,hsalvage⟩
    · exact ⟨r,s,hrun,Option.some.inj hfailed,hnone,hsalvage⟩
  · obtain ⟨⟨r,s,hrun,hverdict⟩,hsalvage,-⟩ := decompress_despite_faults (receiver mixedContainer 1)
      (receiver_holdsSums mixedContainer 1 (List.prefix_refl _))
    have hfailed : (receiver mixedContainer 1).sizedRun.1.map CompressionResult.error = some .writeFailed := by
      decide +kernel
    rw [hrun] at hfailed
    have herror : r.error = .writeFailed := Option.some.inj hfailed
    obtain ⟨-,hall,-⟩ | ⟨-,hnone,hfront⟩ := hverdict
    · rw [houtcome,herror] at hall
      exact absurd (Prod.mk.inj hall).1 (by decide)
    · rw [hsalvage _ _ decode_mixedContainer] at hfront
      exact ⟨r,s,hrun,herror,hnone,hfront⟩

/-! ### What a commit means -/

/-- The result and the final state with the `size_t` of the heap. -/
def TruthfulJob.sizedRun {d : List UInt8} (job : TruthfulJob d) : Option CompressionResult × RunState job.σ job.κ :=
  Proc.exec (runSyncJobBy (Codec.decompressLzLiteBlockOn job.heap) job.ctx job.fuel) (.start job.source job.k₀ job.heap)

/-- The decoder has no part in a compression. -/
theorem TruthfulJob.sizedRun_eq {d : List UInt8} (job : TruthfulJob d)
    (hsums : job.ctx.operation = .decompress → job.heap.HoldsSums d.length) : job.sizedRun = job.run := by
  obtain ⟨⟨rest,hd⟩,-⟩ := job.given
  unfold run jobRun runSyncJob at hd
  unfold sizedRun run jobRun runSyncJob
  cases hoperation : job.ctx.operation with
  | compress =>
    unfold runSyncJobBy
    rw [hoperation]
  | decompress =>
    unfold runSyncJobBy at hd ⊢
    rw [hoperation] at hd ⊢
    refine sizedDecompress_eq (.inr ((hsums hoperation).mono ?_))
    have hfront : delivered (Proc.exec (runDecompress job.ctx job.fuel) (.start job.source job.k₀ job.heap)).2.trace <+:
        d := ⟨rest,hd.symm⟩
    exact hfront.length_le

/-- No sink is asked to commit a part: whatever the source, the sink and the cancel flag do, when a commit is made,
whether or not it succeeds, all has been written; a job that returns `Ok` has made one, which succeeded. -/
theorem commit_means_complete {d : List UInt8} (job : TruthfulJob d)
    (hsums : job.ctx.operation = .decompress → job.heap.HoldsSums d.length) :
    (∀ e, IoEvent.commit e ∈ job.sizedRun.2.trace → job.Complete job.sizedRun.2.trace) ∧
      ∀ r, job.sizedRun.1 = some r → (r.error = .ok ↔ IoEvent.commit .ok ∈ job.sizedRun.2.trace) := by
  rw [job.sizedRun_eq hsums]
  refine ⟨fun e he => job.complete (commits_ne_nil_iff.mpr ⟨e,he⟩),fun r hr => ?_⟩
  obtain ⟨r',hr',⟨-,herror,hnone⟩ | ⟨-,hobeys⟩⟩ | ⟨hnone,-⟩ :=
    Proc.exec_cases (job_conforms job.ctx job.fuel job.source job.k₀ job.heap)
  · obtain rfl : r' = r := Option.some.inj (hr'.symm.trans hr)
    rw [herror,show job.run.2.trace = [] from hnone]
    simp
  · obtain rfl : r' = r := Option.some.inj (hr'.symm.trans hr)
    exact hobeys.ok_iff
  · exact absurd (hr.symm.trans hnone) (by simp)

/-- A job on a `BufferSource`, onto a device that cuts its `n`-th write. -/
def deviceJob (operation : CompressionOperation) (d : List UInt8) (n : ℕ) : TruthfulJob d where
  σ := BufferSource
  κ := PrintSink
  ctx :=
    { config := { blockSize := 16, windowSize := 16 }
      operation
      options := { allowPartialOutput := true }
      source := BufferSource.source
      sink := PrintSink.sink }
  source := ⟨d,0,false⟩
  k₀ := cutDevice n
  heap := .granting 32
  fuel := d.length + 1
  known := true
  Inv := BufferSource.Remains d
  truthful := (BufferSource.honest d).truthful
  opened := fun _ => BufferSource.remains_open d

/-- Two commits, and a compression that makes none. -/
theorem commit_means_complete_device :
    (IoEvent.commit .ok ∈ (deviceJob .compress mixedData 9).sizedRun.2.trace ∧
      decode (written (deviceJob .compress mixedData 9).sizedRun.2.trace) = .ok (mixedData,[])) ∧
    (IoEvent.commit .ok ∈ (deviceJob .decompress (mixedContainer ++ [7]) 9).sizedRun.2.trace ∧
      written (deviceJob .decompress (mixedContainer ++ [7]) 9).sizedRun.2.trace = mixedData) ∧
    ∃ r, (deviceJob .compress mixedData 2).sizedRun.1 = some r ∧ r.error = .writeFailed ∧
      IoEvent.commit .ok ∉ (deviceJob .compress mixedData 2).sizedRun.2.trace := by
  have hsums : (Heap.granting 32).HoldsSums 59 := Heap.granting_holdsSums (by decide)
  refine ⟨?_,?_,?_⟩
  · have hcommit : IoEvent.commit .ok ∈ (deviceJob .compress mixedData 9).sizedRun.2.trace := by decide +kernel
    obtain ⟨hcomplete,-⟩ := commit_means_complete (deviceJob .compress mixedData 9) (fun hno => nomatch hno)
    exact ⟨hcommit,hcomplete _ hcommit⟩
  · have hcommit : IoEvent.commit .ok ∈ (deviceJob .decompress (mixedContainer ++ [7]) 9).sizedRun.2.trace := by
      decide +kernel
    obtain ⟨hcomplete,-⟩ := commit_means_complete (deviceJob .decompress (mixedContainer ++ [7]) 9)
      fun _ => hsums.mono (by decide)
    obtain ⟨rest,-,hdecode⟩ := hcomplete _ hcommit
    have hmore : decode (mixedContainer ++ [7]) = .ok (mixedData,[7]) :=
      decode_append ((congrArg decode (List.append_nil _)).trans decode_mixedContainer) [7]
    rw [hmore] at hdecode
    exact ⟨hcommit,(Prod.mk.inj (Except.ok.inj hdecode)).1.symm⟩
  · have hfailed : (deviceJob .compress mixedData 2).sizedRun.1.map CompressionResult.error = some .writeFailed := by
      decide +kernel
    obtain ⟨r,hr,herror⟩ := Option.map_eq_some_iff.mp hfailed
    obtain ⟨-,hiff⟩ := commit_means_complete (deviceJob .compress mixedData 2) (fun hno => nomatch hno)
    refine ⟨r,hr,herror,fun hcommit => ?_⟩
    have hok := (hiff r hr).mpr hcommit
    rw [herror] at hok
    exact absurd hok (by decide)

/-! ### How much leaves -/

/-- At every moment of a decompression, of any source and into any sink, no more than 255 bytes have been written for
one delivered beyond the first 37; and `k + 42` bytes can make every decompression that nothing hinders publish
`19 + 255 * k`, also with the `size_t` of its heap, where it holds the sums of the decoder. -/
theorem amplification_bounded (ctx : RunContext σ κ) (fuel : ℕ) (source : σ) (k₀ : κ) (heap : Heap) :
    (heap.HoldsSums (delivered (sizedDecompress ctx fuel source k₀ heap).2.trace).length →
      ∀ before, before <+: (sizedDecompress ctx fuel source k₀ heap).2.trace →
        (written before).length ≤ 255 * ((delivered before).length - 37)) ∧
    ∀ k, 19 + 255 * k ≤ uint32Max → ∃ c, c.length = k + 42 ∧ ∀ job : DecompressJob c, ∃ r s o,
      job.run = (some r,s) ∧ (job.heap.HoldsSums c.length → job.sizedRun = (some r,s)) ∧
        r.error = .ok ∧ published s.trace = some o ∧ o.length = 19 + 255 * k := by
  refine ⟨fun hsums before hbefore => ?_,fun k hk => ?_⟩
  · rw [sizedDecompress_eq (.inl hsums)] at hbefore
    obtain ⟨hvouched,-⟩ := exec_vouched ctx fuel source k₀ heap
    exact (hvouched before hbefore).length_le.trans (salvage_length_le _)
  · obtain ⟨c,o,hc,ho,hdecode⟩ := exists_repeated hk
    refine ⟨c,hc,fun job => ?_⟩
    obtain ⟨r,s,hrun,hok,hpublished,-⟩ := job.returns_ok hdecode
    exact ⟨r,s,o,hrun,fun hsums => (job.sizedRun_eq hsums).trans hrun,hok,hpublished,ho⟩

/-- The 57 bytes of a container cut short give 16, and there is one of 1042 bytes that gives 255019. -/
theorem amplification_bounded_cut :
    ((written (receiver (mixedContainer.take 57) 9).sizedRun.2.trace).length = 16 ∧
      (written (receiver (mixedContainer.take 57) 9).sizedRun.2.trace).length ≤ 255 * (57 - 37)) ∧
    ∃ c, c.length = 1042 ∧ ∃ r s o, (DecompressJob.ofBuffer32 c).sizedRun = (some r,s) ∧ r.error = .ok ∧
      published s.trace = some o ∧ o.length = 255019 := by
  have hruns {d : List UInt8} {n : ℕ} (hd : delivered (receiver d n).sizedRun.2.trace <+: mixedContainer) :
      (written (receiver d n).sizedRun.2.trace).length ≤
        255 * ((delivered (receiver d n).sizedRun.2.trace).length - 37) := by
    obtain ⟨hbounded,-⟩ := amplification_bounded (receiver d n).ctx (receiver d n).fuel (receiver d n).source
      (receiver d n).k₀ (receiver d n).heap
    exact hbounded (receiver_holdsSums d n hd) _ (List.prefix_refl _)
  obtain ⟨hdelivered,-,hwritten⟩ := receiver_cut
  have hall := hruns (by rw [hdelivered]; exact List.take_prefix 57 mixedContainer)
  have hcut : (mixedContainer.take 57).length = 57 := by decide +kernel
  rw [hdelivered,hcut] at hall
  have hlength : (written (receiver (mixedContainer.take 57) 9).sizedRun.2.trace).length = 16 := by
    rw [hwritten,List.length_replicate]
  obtain ⟨-,hnearly⟩ := amplification_bounded (receiver [] 9).ctx 0 (receiver [] 9).source
    (receiver [] 9).k₀ .unlimited
  obtain ⟨c,hc,hexpands⟩ := hnearly 1000 (by decide)
  obtain ⟨r,s,o,-,hsized,hpublishes⟩ := hexpands (.ofBuffer32 c)
  exact ⟨⟨hlength,hall⟩,c,hc,r,s,o,hsized (Heap.granting_holdsSums (by rw [hc]; decide)),hpublishes⟩

/-! ### From one device to another -/

/-- A compression through a sink that hands on at once, and a decompression at the other end. Whatever the sink does and
whenever the compression is cancelled, what it sends is the front of one container of `d`. Whatever a decompression
into such a sink gets from any source, it sends no more than the data of the sound records in it; and when it gets what
was sent, or the front of it, it sends the front of `d`, and `Ok` means that the container was sent whole, has arrived
whole and all of `d` has been sent on. -/
theorem relay {d : List UInt8} (job : CompressAttempt d) {received : job.κ → List UInt8}
    (h : HandsOn job.ctx.sink received) :
    ∃ c r s sent, decode c = .ok (d,[]) ∧ job.run = (some r,s) ∧ received s.sink = received job.k₀ ++ sent ∧
      sent <+: c ∧ (r.error = .ok → sent = c) ∧
      ∀ {σ κ : Type} {ctx : RunContext σ κ} {received' : κ → List UInt8}, ctx.operation = .decompress →
        HandsOn ctx.sink received' → ∀ fuel source k₀ heap,
        let run := sizedDecompress ctx fuel source k₀ heap
        heap.HoldsSums (delivered run.2.trace).length →
        ∃ got, received' run.2.sink = received' k₀ ++ got ∧ got <+: salvage (delivered run.2.trace) ∧
          (delivered run.2.trace <+: sent → got <+: d ∧
            ∀ r', run.1 = some r' → r'.error = .ok → delivered run.2.trace = c ∧ sent = c ∧ got = d) := by
  obtain ⟨c,r,t,-,hdecode,hfaultless,-,-,hwritten⟩ := job.faultless_returns
  obtain ⟨calls,sent,hcalls,-,hsent,hreceived,hall⟩ := jobRun_handsOn h job.fuel job.source job.k₀ job.heap
  rw [job.run_eq.2] at hfaultless
  obtain ⟨r,s,hrun,hverdict⟩ := verdict_of_faultless hfaultless
  rw [hfaultless] at hcalls
  rw [hrun] at hreceived hall
  have hfront : sent <+: c := hwritten ▸ hsent.trans (written_mono hcalls)
  refine ⟨c,r,s,sent,hdecode,job.run_eq.1.trans hrun,hreceived,hfront,fun hok => ?_,?_⟩
  · rw [hall r rfl hok,← hwritten]
    cases hverdict with
    | undisturbed _ _ hsame => exact hsame
    | faulted hfaulty _ _ => exact absurd hok hfaulty.error_ne
  intro σ κ ctx received' hoperation h' fuel source k₀ heap run hsums
  have hsame : run = jobRun ctx fuel source k₀ heap := by
    rw [jobRun,runSyncJob,runSyncJobBy,hoperation]
    exact sizedDecompress_eq (.inl hsums)
  rw [hsame]
  obtain ⟨got,hgot,hsound,hdecodes⟩ := decompress_handsOn hoperation h' fuel source k₀ heap
  refine ⟨got,hgot,hsound,fun harrived => ⟨?_,fun r' hr' hok => ?_⟩⟩
  · rw [← salvage_of_decode hdecode]
    exact hsound.trans (salvage_mono (harrived.trans hfront))
  · obtain ⟨hall,hsame⟩ := eq_of_decode hdecode (hdecodes r' hr' hok) (harrived.trans hfront)
    have hlength : c.length ≤ sent.length := by
      rw [← hall]
      exact harrived.length_le
    exact ⟨hall,hfront.eq_of_length_le hlength,hsame⟩

/-- With its last payload cut, a container arrives as its first 57 bytes, of which the first block is sent on; sent
whole, it arrives whole. -/
theorem relay_cut :
    (∃ r s, (cutAttempt 4).run = (some r,s) ∧ r.error = .writeFailed ∧
      s.sink.print.received = mixedContainer.take 57 ∧
      (receiver (mixedContainer.take 57) 9).sizedRun.2.sink.print.received = List.replicate 16 97 ∧
      List.replicate 16 97 <+: mixedData) ∧
    ∃ r s, (cutAttempt 9).run = (some r,s) ∧ r.error = .ok ∧ s.sink.print.received = mixedContainer ∧
      (receiver mixedContainer 9).sizedRun.2.sink.print.received = mixedData := by
  have hruns (n : ℕ) {d : List UInt8} (hd : delivered (receiver d 9).sizedRun.2.trace <+: mixedContainer) :
      ∃ r s, (cutAttempt n).run = (some r,s) ∧ (delivered (receiver d 9).sizedRun.2.trace <+: s.sink.print.received →
        (receiver d 9).sizedRun.2.sink.print.received <+: mixedData ∧
        ∀ r', (receiver d 9).sizedRun.1 = some r' → r'.error = .ok →
          (receiver d 9).sizedRun.2.sink.print.received = mixedData) := by
    obtain ⟨c,r,s,sent,-,hrun,hreceived,-,-,hrelayed⟩ := relay (cutAttempt n) PrintSink.handsOn
    obtain ⟨got,hgot,-,harrives⟩ := hrelayed (receiver d 9).operation_eq PrintSink.handsOn (receiver d 9).fuel
      (receiver d 9).source (receiver d 9).k₀ (receiver d 9).heap (receiver_holdsSums d 9 hd)
    obtain rfl : s.sink.print.received = sent := hreceived
    refine ⟨r,s,hrun,fun harrived => ?_⟩
    obtain ⟨hfront,hall⟩ := harrives harrived
    rw [show (receiver d 9).sizedRun.2.sink.print.received = got from hgot]
    exact ⟨hfront,fun r' hr' hok => (hall r' hr' hok).2.2⟩
  constructor
  · obtain ⟨hdelivered,-,-⟩ := receiver_cut
    obtain ⟨r,s,hrun,harrives⟩ := hruns 4 (by rw [hdelivered]; exact List.take_prefix 57 mixedContainer)
    have hfailed : (cutAttempt 4).run.1.map CompressionResult.error = some .writeFailed := by decide +kernel
    have hsent : (cutAttempt 4).run.2.sink.print.received = mixedContainer.take 57 := by decide +kernel
    have hgot : (receiver (mixedContainer.take 57) 9).sizedRun.2.sink.print.received = List.replicate 16 97 := by
      decide +kernel
    rw [hrun] at hfailed hsent
    obtain ⟨hfront,-⟩ := harrives (by rw [hdelivered,hsent])
    exact ⟨r,s,hrun,Option.some.inj hfailed,hsent,hgot,hgot ▸ hfront⟩
  · obtain ⟨hdelivered,hdone⟩ := receiver_whole
    obtain ⟨r,s,hrun,harrives⟩ := hruns 9 (by rw [hdelivered])
    have hok : (cutAttempt 9).run.1.map CompressionResult.error = some .ok := by decide +kernel
    have hsent : (cutAttempt 9).run.2.sink.print.received = mixedContainer := by decide +kernel
    rw [hrun] at hok hsent
    obtain ⟨r',hr',hok'⟩ := Option.map_eq_some_iff.mp hdone
    obtain ⟨-,hall⟩ := harrives (by rw [hdelivered,hsent])
    exact ⟨r,s,hrun,Option.some.inj hok,hsent,hall r' hr' hok'⟩

end Compressor
end EspCompressor
