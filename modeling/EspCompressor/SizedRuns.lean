import EspCompressor.LzNarrow
import EspCompressor.Truthful

/-! Decompressions with the `size_t` of the heap: until more has been delivered than its sums hold, they
are those over unbounded integers. -/
namespace EspCompressor
namespace Compressor

variable {σ κ α : Type} {ctx : RunContext σ κ} {heap : Heap}

/-- More has been delivered than the sums of the heap's `size_t` hold. -/
def Outgrown (heap : Heap) (s : RunState σ κ) : Prop := ¬heap.HoldsSums (delivered s.trace).length

theorem Outgrown.later {s t : RunState σ κ} (h : Outgrown heap s) (hlater : s.trace <+: t.trace) :
    Outgrown heap t := by
  obtain ⟨more,hmore⟩ := hlater
  refine fun hholds => h (hholds.mono ?_)
  rw [← hmore,delivered_append,List.length_append]
  exact Nat.le_add_right _ _

theorem stays_outgrown {m : Proc CompressionResult (RunState σ κ) α} (h : ∀ s, s.trace <+: (m s).2.trace) :
    Proc.Stays (Outgrown heap) m := fun s hs => hs.later (h s)

theorem writeBlock_same (v : DecompressVars) (blockHeader : EscBlockHeader) {s : RunState σ κ}
    (hle : v.storedBlock.contents.length ≤ uint32Max)
    (hdelivered : v.storedBlock.contents.length ≤ (delivered s.trace).length) :
    Proc.SameUnless (Outgrown heap) (writeBlockBy (Codec.decompressLzLiteBlockOn heap) ctx v blockHeader)
      (writeBlock ctx v blockHeader) s := by
  have hwalks := protocol ctx
  by_cases hsums : heap.HoldsSums v.storedBlock.contents.length
  · have hdecoder := Codec.Narrow.decompressLzLiteBlockOn_eq hsums hle blockHeader.originalSize.toNat
    unfold writeBlock writeBlockBy writeLzBlockBy
    rw [hdecoder]
    exact .same _ s
  · have hfar : Outgrown heap s := fun hholds => hsums (hholds.mono hdelivered)
    exact .inr ⟨stays_outgrown (hwalks.writeBlockBy _ v blockHeader).later s hfar,
      stays_outgrown (hwalks.writeBlockBy _ v blockHeader).later s hfar⟩

theorem decompressRound_same (header : EscHeader) (v : DecompressVars) (s : RunState σ κ) :
    Proc.SameUnless (Outgrown heap) (decompressRoundBy (Codec.decompressLzLiteBlockOn heap) ctx header v)
      (decompressRound ctx header v) s := by
  have hwalks := protocol ctx
  unfold decompressRound decompressRoundBy
  refine .after fun _ s₁ _ => .after fun headerBytes s₂ _ => .after fun _ s₃ _ => .after fun _ s₄ _ =>
    .after fun v' s₅ hpayload => ?_
  obtain ⟨-,hlen,hcarries⟩ := Proc.wp_of_done (readPayload_carries _ _ s₄) hpayload
  have hdelivered : v'.storedBlock.contents.length ≤ (delivered s₅.trace).length := by
    rw [hcarries.delivered_eq,List.length_append]
    exact Nat.le_add_left _ _
  have hle : v'.storedBlock.contents.length ≤ uint32Max := by
    rw [hlen]
    exact Nat.le_of_lt_succ (UInt32.toNat_lt _)
  refine (writeBlock_same v' _ hle hdelivered).bind (fun _ _ => .same _ _) (fun v => stays_outgrown ?_)
    fun v => stays_outgrown ?_
  · exact (hwalks.bind (hwalks.emitProgress _ _ false) fun _ => hwalks.pure _).later
  · exact (hwalks.bind (hwalks.emitProgress _ _ false) fun _ => hwalks.pure _).later

theorem decompressSession_same (result : CompressionResult) (fuel : ℕ) (s : RunState σ κ) :
    Proc.SameUnless (Outgrown heap) (decompressSessionBy (Codec.decompressLzLiteBlockOn heap) ctx result fuel)
      (decompressSession ctx result fuel) s := by
  have hwalks := protocol ctx
  unfold decompressSession decompressSessionBy
  refine .after fun p _ _ => .after fun _ _ _ => ?_
  refine (Proc.SameUnless.loop (decompressRound_same p.1)
    (fun v => stays_outgrown (hwalks.decompressRoundBy _ p.1 v).later)
    (fun v => stays_outgrown (hwalks.decompressRoundBy _ p.1 v).later) fuel _ _).bind (fun _ _ => .same _ _)
    (fun v => stays_outgrown (hwalks.decompressed p.1 v).later) fun v => stays_outgrown (hwalks.decompressed p.1 v).later

theorem runDecompress_same (fuel : ℕ) (s : RunState σ κ) :
    Proc.SameUnless (Outgrown heap) (runDecompressBy (Codec.decompressLzLiteBlockOn heap) ctx fuel)
      (runDecompress ctx fuel) s := by
  unfold runDecompress runDecompressBy
  refine .after fun _ s₁ _ => .destroying (.after fun _ s₂ _ => decompressSession_same _ fuel s₂) fun s hs => ?_
  obtain ⟨last,htrace,-⟩ := destroySession_ends ctx s
  exact hs.later (htrace ▸ List.prefix_append _ _)

/-- A decompression with the `size_t` of its heap. -/
def sizedDecompress (ctx : RunContext σ κ) (fuel : ℕ) (source : σ) (k₀ : κ) (heap : Heap) :
    Option CompressionResult × RunState σ κ :=
  Proc.exec (runDecompressBy (Codec.decompressLzLiteBlockOn heap) ctx fuel) (.start source k₀ heap)

/-- It is the one over unbounded integers, as long as no more is delivered than the sums hold. -/
theorem sizedDecompress_eq {fuel : ℕ} {source : σ} {k₀ : κ}
    (h : heap.HoldsSums (delivered (sizedDecompress ctx fuel source k₀ heap).2.trace).length ∨
      heap.HoldsSums (delivered (Proc.exec (runDecompress ctx fuel) (.start source k₀ heap)).2.trace).length) :
    sizedDecompress ctx fuel source k₀ heap = Proc.exec (runDecompress ctx fuel) (.start source k₀ heap) :=
  (runDecompress_same fuel _).exec_eq (h.imp not_not.mpr not_not.mpr)

/-- The result and the final state with the `size_t` of the heap. -/
def DecompressRun.sizedRun {d : List UInt8} (job : DecompressRun d) :
    Option CompressionResult × RunState job.σ job.κ :=
  sizedDecompress job.ctx job.fuel job.source job.k₀ job.heap

/-- A source of `d` delivers no more than `d`. -/
theorem DecompressRun.delivered_length_le {d : List UInt8} (job : DecompressRun d) :
    (delivered job.run.2.trace).length ≤ d.length := by
  have hgiven := runDecompress_given (delivers_tracks job.delivers d) job.fuel job.k₀ job.heap
    fun _ => ⟨d,rfl,job.opened⟩
  have hstate : Given job.ctx job.source (fun got s => ∃ rest, d = got ++ rest ∧ job.Inv rest s) job.run.2 := by
    obtain ⟨_,-,hgiven⟩ | ⟨-,hgiven⟩ := Proc.exec_cases hgiven
    · exact hgiven
    · exact hgiven
  obtain ⟨-,-,rest,hd,-⟩ | ⟨-,hnone⟩ := hstate
  · have hfront : delivered job.run.2.trace <+: d := ⟨rest,hd.symm⟩
    exact hfront.length_le
  · rw [hnone]
    exact Nat.zero_le _

theorem DecompressRun.sizedRun_eq {d : List UInt8} (job : DecompressRun d) (hsums : job.heap.HoldsSums d.length) :
    job.sizedRun = job.run := sizedDecompress_eq (.inr (hsums.mono job.delivered_length_le))

end Compressor
end EspCompressor
