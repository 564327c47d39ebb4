import EspCompressor.BuiltinIo
import EspCompressor.DecompressRun

/-! Which byte strings `runDecompress` accepts, and what it makes of their prefixes and
extensions. -/
namespace EspCompressor
namespace Compressor

open Container

/-- The error and the output that a byte string decides. -/
def outcome (d : List UInt8) : CompressionError × Option (List UInt8) :=
  match decode d with
  | .ok r => (.ok,some r.1)
  | .error e => (e,none)

theorem outcome_of_ok {d : List UInt8} {r : List UInt8 × List UInt8} (h : decode d = .ok r) :
    outcome d = (.ok,some r.1) := by rw [outcome,h]

theorem outcome_of_error {d : List UInt8} {e : CompressionError} (h : decode d = .error e) :
    outcome d = (e,none) := by rw [outcome,h]

/-- A decompression from a source that delivers `d`, in reads of any length. -/
structure DecompressRun (d : List UInt8) where
  σ : Type
  κ : Type
  ctx : RunContext σ κ
  source : σ
  k₀ : κ
  heap : Heap
  fuel : ℕ
  Inv : List UInt8 → σ → Prop
  delivers : Delivers ctx.source Inv
  open_ok : (ctx.source.open' source).1 = .ok
  opened : Inv d (ctx.source.open' source).2

/-- The result of the run and its final state. -/
def DecompressRun.run {d : List UInt8} (job : DecompressRun d) :
    Option CompressionResult × RunState job.σ job.κ :=
  Proc.exec (runDecompress job.ctx job.fuel) (.start job.source job.k₀ job.heap)

theorem DecompressRun.result {d : List UInt8} (job : DecompressRun d) {r : CompressionResult}
    {s : RunState job.σ job.κ} (hrun : job.run = (some r,s)) (hok : r.error = .ok) :
    Decompressed d r s := by
  have hspec := @runDecompress_spec _ _ job.ctx job.k₀ job.heap job.Inv job.delivers job.source d
    job.open_ok job.opened job.fuel
  rcases Proc.exec_cases hspec with ⟨r',hreturned,hresult⟩ | ⟨hreturned,-⟩
  · rw [show (Proc.exec _ _).1 = some r from congrArg Prod.fst hrun] at hreturned
    obtain rfl := Option.some.inj hreturned
    rw [show (Proc.exec _ _).2 = s from congrArg Prod.snd hrun] at hresult
    exact hresult.resolve_right fun hrefused => hrefused.1 hok
  · rw [show (Proc.exec _ _).1 = some r from congrArg Prod.fst hrun] at hreturned
    simp at hreturned

/-- A run with enough rounds returns: it fails and publishes nothing, or it publishes what
it decoded. -/
theorem DecompressRun.returns {d : List UInt8} (job : DecompressRun d) (hfuel : d.length < job.fuel) :
    ∃ r s, job.run = (some r,s) ∧ (r.error ≠ .ok ∧ published s.trace = none ∨
      r.error = .ok ∧ published s.trace = some (written s.trace) ∧ Decompressed d r s) := by
  have hspec := @runDecompress_spec _ _ job.ctx job.k₀ job.heap job.Inv job.delivers job.source d
    job.open_ok job.opened job.fuel
  rcases Proc.exec_cases hspec with ⟨r,hreturned,hresult⟩ | ⟨-,hpending⟩
  swap
  · exact absurd hfuel (not_lt.mpr hpending)
  have hrun : job.run = (some r,job.run.2) := Prod.ext hreturned rfl
  have hends := Proc.exec_of_wp (runDecompress_ends job.ctx job.fuel job.source job.heap) hrun
  refine ⟨r,job.run.2,hrun,?_⟩
  rcases hresult with hdone | ⟨he,-⟩
  · exact .inr ⟨hdone.error,by rw [hends.published_eq,if_pos hdone.error],hdone⟩
  · exact .inl ⟨he,by rw [hends.published_eq,if_neg he]⟩

/-- A decompression of `d` that nothing hinders: the sink accepts writes, there is enough memory
and no cancellation. -/
structure DecompressJob (d : List UInt8) extends DecompressRun d where
  unhindered : Unhindered ctx k₀ heap uint32Max
  fuel_gt : d.length < fuel

namespace DecompressJob

variable {d : List UInt8}

/-- The job from a `BufferSource` into a `DynamicBufferSink`. -/
def ofBuffer (d : List UInt8) : DecompressJob d where
  σ := BufferSource
  κ := DynamicBufferSink
  ctx := { operation := .decompress, source := BufferSource.source, sink := DynamicBufferSink.sink }
  source := ⟨d,0,false⟩
  k₀ := ⟨[],.new,false,.unlimited⟩
  heap := .unlimited
  fuel := d.length + 1
  Inv := BufferSource.Remains d
  delivers := (BufferSource.honest d).toDelivers
  open_ok := rfl
  opened := BufferSource.remains_open d
  unhindered := ⟨.inl rfl,DynamicBufferSink.accepts Heap.unlimited_ample,Heap.unlimited_ample _,
    fun _ => rfl⟩
  fuel_gt := Nat.lt_succ_self _

/-- The job from a `StreamSource` into a sink that keeps nothing. -/
def ofStream (d : List UInt8) (hne : d ≠ []) : DecompressJob d where
  σ := StreamSource (List (List UInt8))
  κ := UInt64
  ctx := { operation := .decompress, source := StreamSource.source piecesStream, sink := countingSink }
  source := { stream := [d] }
  k₀ := 0
  heap := .unlimited
  fuel := d.length + 1
  Inv := StreamSource.Remains
  delivers := (StreamSource.honest d).toDelivers
  open_ok := rfl
  opened := ⟨rfl,List.flatten_singleton.symm,List.forall_mem_singleton.mpr hne,Bool.noConfusion⟩
  unhindered := ⟨.inl rfl,countingSink_accepts 0,Heap.unlimited_ample _,fun _ => rfl⟩
  fuel_gt := Nat.lt_succ_self _

/-- The job returns, and nothing but `d` decides what. -/
theorem returns (job : DecompressJob d) :
    ∃ r s, job.run = (some r,s) ∧ (r.error,published s.trace) = outcome d ∧
      (r.error = .ok → Decompressed d r s) ∧
      EndsSession job.ctx (.start job.source job.k₀ job.heap) r s := by
  have hspec := @runDecompress_spec _ _ job.ctx job.k₀ job.heap job.Inv job.delivers job.source d
    job.open_ok job.opened job.fuel
  rcases Proc.exec_cases hspec with ⟨r,hreturned,hresult⟩ | ⟨-,hpending⟩
  swap
  · exact absurd job.fuel_gt (not_lt.mpr hpending)
  have hrun : job.run = (some r,job.run.2) := Prod.ext hreturned rfl
  have hends := Proc.exec_of_wp (runDecompress_ends job.ctx job.fuel job.source job.heap) hrun
  refine ⟨r,job.run.2,hrun,?_,fun hok => ?_,hends⟩
  · rw [hends.published_eq]
    rcases hresult with hdone | ⟨he,herror | hhindered⟩
    · obtain ⟨rest,hdecode,-⟩ := hdone.decoded
      rw [outcome_of_ok hdecode,hdone.error,if_pos rfl]
      rfl
    · rw [outcome_of_error herror,if_neg he]
    · exact absurd job.unhindered hhindered
  · rcases hresult with hdone | ⟨he,-⟩
    · exact hdone
    · exact absurd hok he

end DecompressJob

theorem ofNat_eq_iff {n : ℕ} (h : n < 2 ^ 64) (x : UInt64) : UInt64.ofNat n = x ↔ n = x.toNat := by
  rw [← UInt64.toNat_inj,UInt64.toNat_ofNat_of_lt' h]

/-- A byte string is accepted exactly if it starts with a container of the grammar, and nothing
but the byte string decides the error and the output. -/
theorem DecompressJob.accepts_iff {d : List UInt8} (job : DecompressJob d) :
    ∃ r s, job.run = (some r,s) ∧ (r.error,published s.trace) = outcome d ∧
      ∀ o, o.length < 2 ^ 64 →
        (r.error = .ok ∧ published s.trace = some o ↔ ∃ c rest, d = c ++ rest ∧ IsContainer c o) := by
  obtain ⟨r,s,hrun,houtcome,-⟩ := job.returns
  refine ⟨r,s,hrun,houtcome,fun o ho => ?_⟩
  have hpair : r.error = .ok ∧ published s.trace = some o ↔ outcome d = (.ok,some o) := by
    rw [← houtcome,Prod.mk.injEq]
  rw [hpair]
  constructor
  · intro hok
    cases hdecode : decode d with
    | error e =>
      rw [outcome_of_error hdecode] at hok
      simp at hok
    | ok result =>
      obtain ⟨o',rest⟩ := result
      rw [outcome_of_ok hdecode] at hok
      obtain rfl : o' = o := by simpa using hok
      obtain ⟨header,blocks,hd,hheader,hblocks,hsize⟩ := decode_ok_iff.mp hdecode
      exact ⟨encode header blocks,rest,hd,header,blocks,rfl,hheader,hblocks,
        fun hknown => (ofNat_eq_iff ho _).mp (hsize hknown)⟩
  · rintro ⟨c,rest,rfl,header,blocks,rfl,hheader,hblocks,hsize⟩
    exact outcome_of_ok (decode_ok_iff.mpr ⟨header,blocks,rfl,hheader,hblocks,
      fun hknown => (ofNat_eq_iff ho _).mpr (hsize hknown)⟩)

/-- A container of two blocks: an encoded one with an overlapping match, and a raw one. -/
def mixedHeader : EscHeader := { originalSize := 19, blockSize := 16 }

def mixedBlocks : List Block :=
  [⟨{ originalSize := 16, storedSize := 5, crc32 := 3486935253 },[28,97,1,0,0]⟩,
    ⟨{ flags := kEscBlockFlagRaw ||| kEscBlockFlagFinal, originalSize := 3, storedSize := 3, crc32 := 1438416925 },
      [1,2,3]⟩]

def mixedContainer : List UInt8 := encode mixedHeader mixedBlocks

def mixedData : List UInt8 := List.replicate 16 97 ++ [1,2,3]

theorem mixedContainer_length : mixedContainer.length = 58 := by decide

theorem decode_mixedContainer : decode mixedContainer = .ok (mixedData,[]) := by
  have hsome : (decode mixedContainer).toOption = some (mixedData,[]) := by decide +kernel
  cases hdecode : decode mixedContainer with
  | error e => simp [hdecode,Except.toOption] at hsome
  | ok p =>
    rw [hdecode] at hsome
    exact congrArg Except.ok (Option.some.inj hsome)

theorem mixedContainer_isContainer : IsContainer mixedContainer mixedData := by
  obtain ⟨header,blocks,hbytes,hheader,hblocks,hsize⟩ := decode_ok_iff.mp decode_mixedContainer
  rw [List.append_nil] at hbytes
  exact ⟨header,blocks,hbytes,hheader,hblocks,fun hknown => (ofNat_eq_iff (by decide) _).mp (hsize hknown)⟩

/-- The same job where `size_t` has 32 bits. -/
def DecompressJob.ofBuffer32 (d : List UInt8) : DecompressJob d :=
  { DecompressJob.ofBuffer d with
    heap := .granting 32
    unhindered := ⟨.inl rfl,DynamicBufferSink.accepts Heap.unlimited_ample,Heap.granting_ample_uint32Max,
      fun _ => rfl⟩ }

/-! ### Prefixes and extensions -/

/-- A job on what the decoder accepts returns `Ok`. -/
theorem DecompressJob.returns_ok {d o rest : List UInt8} (job : DecompressJob d)
    (h : decode d = .ok (o,rest)) : ∃ r s, job.run = (some r,s) ∧ r.error = .ok ∧
      published s.trace = some o ∧ Decompressed d r s := by
  obtain ⟨r,s,hrun,houtcome,hdone,-⟩ := job.returns
  rw [outcome_of_ok h,Prod.mk.injEq] at houtcome
  exact ⟨r,s,hrun,houtcome.1,houtcome.2,hdone houtcome.1⟩

/-- A container of `n` blocks of one byte each. -/
def longContainer (n : ℕ) : List UInt8 :=
  encode { blockSize := 1, flags := kEscHeaderFlagUnknownOriginalSize }
    (blocksOf 1 (List.replicate n ([0],false)))

theorem decode_longContainer (n : ℕ) : decode (longContainer n) =
    .ok (chunkData (List.replicate n ([0],false)),[]) := by
  refine decode_ok_iff.mpr ⟨_,_,(List.append_nil _).symm,⟨rfl,rfl,by decide⟩,?_,
    fun hknown => absurd (show UnknownSize _ by decide) hknown⟩
  refine blocksOf_blocks 1 (fun c hc => ?_) fun c hc => ?_
  · rw [List.eq_of_mem_replicate hc]
    exact ⟨by simp,by decide⟩
  · rw [List.eq_of_mem_replicate (List.mem_of_mem_dropLast hc)]

theorem longContainer_ne_nil (n : ℕ) : longContainer n ≠ [] := by
  apply List.ne_nil_of_length_pos
  rw [longContainer,encode,List.length_append,EscFormat.headerBytes_length]
  omega

theorem longContainer_length (n : ℕ) : 13 * n ≤ (longContainer n).length := by
  have hrecords := records_length_ge (blocksOf 1 (List.replicate n ([0],false)))
  have hblocks : n ≤ (blocksOf 1 (List.replicate n ([0],false))).length := by simp [blocksOf]
  rw [longContainer,encode,List.length_append]
  omega

/-- From `2 ^ 64` bytes of a stream on, the counter of the input wraps around: the bytes that it counts
are not a container. -/
theorem inputBytes_wraps : ∃ r s,
    (DecompressJob.ofStream (longContainer (2 ^ 63)) (longContainer_ne_nil _)).run = (some r,s) ∧
    r.error = .ok ∧ ∃ r' s',
      (DecompressJob.ofBuffer ((longContainer (2 ^ 63)).take r.inputBytes.toNat)).run = (some r',s') ∧
      r'.error = .corruptData := by
  generalize hn : 2 ^ 63 = n
  obtain ⟨r,s,hrun,hok,-,-⟩ :=
    (DecompressJob.ofStream (longContainer n) (longContainer_ne_nil n)).returns_ok (decode_longContainer n)
  refine ⟨r,s,hrun,hok,?_⟩
  have hshort : r.inputBytes.toNat < (longContainer n).length := by
    have hlen := longContainer_length n
    have hlt := r.inputBytes.toNat_lt
    omega
  obtain ⟨r',s',hrun',houtcome,-⟩ :=
    (DecompressJob.ofBuffer ((longContainer n).take r.inputBytes.toNat)).returns
  rw [outcome_of_error (decode_truncated (decode_longContainer n) hshort),Prod.mk.injEq] at houtcome
  exact ⟨r',s',hrun',houtcome.1⟩

/-- A container ends where its final block ends: with other bytes after it, it decodes to the same,
without any read beyond its end; cut short, it is corrupt, and the destination stays. -/
theorem container_self_delimiting {d : List UInt8} (job : DecompressJob d) {r : CompressionResult}
    {s : RunState job.σ job.κ} (hrun : job.run = (some r,s)) (hok : r.error = .ok) :
    let m := (meter s.trace).position
    m ≤ d.length ∧ r.inputBytes = UInt64.ofNat m ∧
    (∀ t (job' : DecompressJob (d.take m ++ t)), ∃ r' s', job'.run = (some r',s') ∧ r'.error = .ok ∧
      published s'.trace = published s.trace ∧ r'.inputBytes = r.inputBytes ∧
      (meter s'.trace).furthest ≤ m) ∧
    (∀ k < m, ∀ job' : DecompressJob (d.take k), ∃ r' s', job'.run = (some r',s') ∧
      r'.error = .corruptData ∧ published s'.trace = none ∧
      ∀ (δ : Type) (destination : job'.κ → δ), Transactional job'.ctx.sink job'.k₀ destination →
        destination s'.sink = destination job'.k₀) := by
  obtain ⟨r₁,s₁,hrun₁,houtcome,hdone,-⟩ := job.returns
  obtain ⟨rfl,rfl⟩ : r = r₁ ∧ s = s₁ := by
    rw [hrun₁] at hrun
    simpa [eq_comm] using hrun
  have hdone := hdone hok
  obtain ⟨rest,hdecode,hposition⟩ := hdone.decoded
  intro m
  have hsplit : d = d.take m ++ rest := by
    obtain ⟨header,blocks,hd,-⟩ := decode_ok_iff.mp hdecode
    have hlen : (encode header blocks).length = m := by
      have := congrArg List.length hd
      rw [List.length_append] at this
      omega
    rw [hd,← hlen,List.take_left]
  have hpublished : published s.trace = some (written s.trace) := by
    rw [outcome_of_ok hdecode] at houtcome
    exact (Prod.mk.inj houtcome).2
  have hcontainer (t : List UInt8) : decode (d.take m ++ t) = .ok (written s.trace,t) := by
    have hwhole : decode (d.take m ++ rest) = .ok (written s.trace,rest) := by
      rw [← hsplit]
      exact hdecode
    exact decode_append hwhole t
  refine ⟨by omega,hdone.inputBytes,fun t job' => ?_,fun k hk job' => ?_⟩
  · obtain ⟨r',s',hrun',herror',hpublished',hdone'⟩ := job'.returns_ok (hcontainer t)
    obtain ⟨rest',hdecode',hposition'⟩ := hdone'.decoded
    rw [hcontainer t] at hdecode'
    obtain ⟨-,rfl⟩ := Prod.mk.inj (Except.ok.inj hdecode')
    have hm : (meter s'.trace).position = m := by
      rw [List.length_append,List.length_take,min_eq_left (by omega)] at hposition'
      omega
    refine ⟨r',s',hrun',herror',hpublished'.trans hpublished.symm,?_,hdone'.furthest.trans hm.le⟩
    rw [hdone'.inputBytes,hdone.inputBytes,hm]
  · have htruncated : decode (d.take k) = .error .corruptData := by
      have h := hcontainer []
      rw [List.append_nil] at h
      have hcut := decode_truncated h (k := k) (by rw [List.length_take]; omega)
      rwa [List.take_take,min_eq_left hk.le] at hcut
    obtain ⟨r',s',hrun',houtcome',-,hends'⟩ := job'.returns
    rw [outcome_of_error htruncated,Prod.mk.injEq] at houtcome'
    refine ⟨r',s',hrun',houtcome'.1,houtcome'.2,fun δ destination htransactional => ?_⟩
    exact htransactional hends' (by rw [houtcome'.1]; simp)

/-- The two blocks are read to byte 58, also when another byte follows; without byte 58 nothing is published. -/
theorem container_self_delimiting_mixed : ∃ r s,
    (DecompressJob.ofBuffer mixedContainer).run = (some r,s) ∧ published s.trace = some mixedData ∧
    (meter s.trace).position = 58 ∧ r.inputBytes = 58 ∧
    (∃ r' s', (DecompressJob.ofBuffer (mixedContainer.take 58 ++ [7])).run = (some r',s') ∧ r'.error = .ok ∧
      published s'.trace = some mixedData ∧ r'.inputBytes = 58 ∧ (meter s'.trace).furthest ≤ 58) ∧
    ∃ r' s', (DecompressJob.ofBuffer (mixedContainer.take 57)).run = (some r',s') ∧ r'.error = .corruptData ∧
      published s'.trace = none ∧ s'.sink.out = [] := by
  obtain ⟨r,s,hrun,hok,hpublished,-⟩ := (DecompressJob.ofBuffer mixedContainer).returns_ok decode_mixedContainer
  have hposition : (meter s.trace).position = 58 := by
    have hmeter : (meter (DecompressJob.ofBuffer mixedContainer).run.2.trace).position = 58 := by decide +kernel
    rwa [hrun] at hmeter
  have hdelimits := container_self_delimiting _ hrun hok
  dsimp only at hdelimits
  rw [hposition] at hdelimits
  obtain ⟨-,hinput,hmore,hcut⟩ := hdelimits
  obtain ⟨r₁,s₁,hrun₁,hok₁,hpublished₁,hinput₁,hfurthest⟩ := hmore [7] (.ofBuffer _)
  obtain ⟨r₂,s₂,hrun₂,herror₂,hnone₂,hkeeps⟩ := hcut 57 (by decide) (.ofBuffer _)
  exact ⟨r,s,hrun,hpublished,hposition,hinput,
    ⟨r₁,s₁,hrun₁,hok₁,hpublished₁.trans hpublished,hinput₁.trans hinput,hfurthest⟩,
    r₂,s₂,hrun₂,herror₂,hnone₂,hkeeps _ _ (DynamicBufferSink.transactional _)⟩

end Compressor
end EspCompressor
