import EspCompressor.Acceptance
import EspCompressor.CallProtocol

/-! A decompression writes at most one block at a time. -/
namespace EspCompressor

/-- No write that has worked was longer than `size` bytes. -/
def WritesAtMost (size : ℕ) (trace : List IoEvent) : Prop :=
  ∀ bytes, .write bytes .ok ∈ trace → bytes.length ≤ size

theorem length_le_written {bytes : List UInt8} {trace : List IoEvent} (h : .write bytes .ok ∈ trace) :
    bytes.length ≤ (written trace).length := by
  obtain ⟨before,after,rfl⟩ := List.append_of_mem h
  simp [IoEvent.written]
  omega

theorem writesAtMost_of_written {size : ℕ} {trace : List IoEvent} (h : (written trace).length ≤ size) :
    WritesAtMost size trace := fun _ hmem => (length_le_written hmem).trans h

/-- What is added to a trace is no longer than what it adds to the output. -/
theorem WritesAtMost.grow {size : ℕ} {trace trace' : List IoEvent} {bytes : List UInt8}
    (h : WritesAtMost size trace) (hgrows : trace <+: trace')
    (hwritten : written trace' = written trace ++ bytes) (hbytes : bytes.length ≤ size) :
    WritesAtMost size trace' := by
  obtain ⟨added,rfl⟩ := hgrows
  rw [written_append] at hwritten
  have hadded : WritesAtMost size added := by
    refine writesAtMost_of_written ?_
    rw [List.append_cancel_left hwritten]
    exact hbytes
  intro bytes hmem
  rcases List.mem_append.mp hmem with hmem | hmem
  · exact h bytes hmem
  · exact hadded bytes hmem

namespace Compressor

open EscFormat Container

variable {σ κ : Type} {ctx : RunContext σ κ} {k₀ : κ} {heap : Heap} {Inv : List UInt8 → σ → Prop}

/-- A decoding that has written at most one block at a time. -/
def BlockByBlock (ctx : RunContext σ κ) (k₀ : κ) (heap : Heap) (Inv : List UInt8 → σ → Prop)
    (header : EscHeader) (total : ℕ) (v : DecompressVars) (s : RunState σ κ) : Prop :=
  ∃ out rest, Decoding ctx k₀ heap Inv total out rest s ∧ Counts v out s ∧
    WritesAtMost header.blockSize.toNat s.trace

theorem decompressLoop_writes (hsource : Delivers ctx.source Inv) (header : EscHeader) (n : ℕ)
    {total : ℕ} {v : DecompressVars} {s : RunState σ κ} (h : BlockByBlock ctx k₀ heap Inv header total v s) :
    Proc.wp (Proc.loop (decompressRound ctx header) n v) (BlockByBlock ctx k₀ heap Inv header total)
      (fun r _ => r.error ≠ .ok) (fun _ => True) s := by
  refine Proc.wp_loop (I := BlockByBlock ctx k₀ heap Inv header total) (fun v s h => ?_)
    (fun _ _ _ => trivial) n v h
  obtain ⟨out,rest,hdecoding,hcounts,hwrites⟩ := h
  have hgrows : s.trace <+: (decompressRound ctx header v s).2.trace :=
    ((protocol ctx).decompressRoundBy Codec.decompressLzLiteBlock header v).later s
  refine Proc.wp_mono (Proc.wp_reached (P := fun s' => s.trace <+: s'.trace)
    (decompressRound_spec hsource header hdecoding hcounts) hgrows) ?_ (fun _ _ hr => hr.1.1)
    fun _ hno => hno.1.elim
  rintro c s' ⟨⟨b,data,rest',v',htake,rfl,hcounts',hdecoding'⟩,hgrows⟩
  have hwell := (takeBlock_eq_some_iff.mp htake).1
  have hle : data.length ≤ header.blockSize.toNat := by
    rw [hwell.data_length]
    exact hwell.original_le
  have hwritten : written s'.trace = written s.trace ++ data := by
    rw [hdecoding'.output,hdecoding.output]
  have hnext : BlockByBlock ctx k₀ heap Inv header total v' s' :=
    ⟨out ++ data,rest',hdecoding',hcounts',hwrites.grow hgrows hwritten hle⟩
  split_ifs
  · exact hnext
  · exact hnext

/-- A session that returns `Ok` wrote at most one block at a time, of the size that the header declares. -/
theorem decompressSession_writes (hsource : Delivers ctx.source Inv) (result : CompressionResult)
    (hresult : result = makeResult ctx.operation .ok) (n : ℕ) {d : List UInt8} {s : RunState σ κ}
    (h : Decoding ctx k₀ heap Inv d.length [] d s) (hstart : meter s.trace = ⟨0,0⟩) :
    Proc.wp (decompressSession ctx result n)
      (fun _ s' => ∃ header, decodeHeader (d.take kEscEncodedHeaderSize) = .ok header ∧
        WritesAtMost header.blockSize.toNat s'.trace)
      (fun r _ => r.error ≠ .ok) (fun _ => True) s := by
  rw [decompressSession,decompressSessionBy,Proc.wp_bind]
  refine Proc.wp_mono (readFileHeader_spec hsource result h hstart) ?_ (fun _ _ hr => hr.1)
    fun _ hno => hno.elim
  rintro ⟨header,processed⟩ s₁ ⟨-,hheader,hprocessed,h₁⟩
  rw [Proc.wp_bind]
  refine Proc.wp_mono (startProgress_decodes hsource h₁) ?_ (fun _ _ hr => hr) fun _ hno => hno.elim
  rintro progress s₂ ⟨h₂,hmeter₂⟩
  rw [Proc.wp_bind]
  refine Proc.wp_mono (decompressLoop_writes hsource header n ⟨[],_,h₂,⟨?_,?_,?_⟩,?_⟩) ?_
    (fun _ _ hr => hr) fun _ hpending => hpending
  · rw [hresult]
    rfl
  · rw [hmeter₂]
    exact hprocessed
  · rw [hresult]
    rfl
  · refine writesAtMost_of_written ?_
    rw [h₂.output]
    exact Nat.zero_le _
  · rintro v s₃ ⟨_,_,-,-,hwrites⟩
    simp only [Proc.wp_bind,Proc.wp_returnIf,shouldAbortForCancel,loadCancel,commitSession,commitSink,
      check,Proc.wp_lift,Proc.wp_modify,Proc.wp_pure,emitProgress]
    refine ⟨fun _ => by simp,fun _ => ⟨fun _ => by simp,fun _ => ⟨fun he => he,fun _ => ?_⟩⟩⟩
    refine ⟨header,hheader,fun bytes hmem => hwrites bytes ?_⟩
    simpa using hmem

/-- A decompression that returns `Ok` wrote at most one block at a time. -/
theorem runDecompress_writes (hsource : Delivers ctx.source Inv) {source : σ} {d : List UInt8}
    (hinv : Inv d (ctx.source.open' source).2) (n : ℕ) :
    Proc.wp (runDecompress ctx n)
      (fun r s => r.error = .ok → ∃ header, decodeHeader (d.take kEscEncodedHeaderSize) = .ok header ∧
        WritesAtMost header.blockSize.toNat s.trace)
      (fun r s => r.error = .ok → ∃ header, decodeHeader (d.take kEscEncodedHeaderSize) = .ok header ∧
        WritesAtMost header.blockSize.toNat s.trace)
      (fun _ => True) (.start source k₀ heap) := by
  rw [runDecompress,runDecompressBy,Proc.wp_bind]
  refine Proc.wp_mono (@requireTransactional_spec _ _ ctx k₀ heap uint32Max _ _ rfl) ?_
    (fun r _ hr hok => absurd hok hr.1) fun _ hno => hno.elim
  rintro _ _ rfl
  rw [Proc.wp_destroying,Proc.wp_bind]
  refine Proc.wp_mono (@openSession_spec _ _ ctx k₀ heap uint32Max _ _) ?_
    (fun r _ hr hok => absurd hok hr.1) fun _ hno => hno.elim
  rintro _ s ⟨-,hrun,hsrc,hmeter⟩
  have hdecoding : Decoding ctx k₀ heap Inv d.length [] d s :=
    ⟨hrun,hsrc ▸ hinv,by rw [hmeter]; exact Nat.zero_add _,by rw [hmeter]⟩
  refine Proc.wp_mono (decompressSession_writes hsource _ rfl n hdecoding hmeter) ?_
    (fun r _ hr hok => absurd hok hr) fun _ hpending => hpending
  rintro r s' ⟨header,hheader,hwrites⟩ -
  refine ⟨header,hheader,fun bytes hmem => hwrites bytes ?_⟩
  unfold destroySession at hmem
  split_ifs at hmem
  · simpa using hmem
  · simpa using hmem

end Compressor
end EspCompressor
