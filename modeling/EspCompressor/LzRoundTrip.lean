import EspCompressor.LzDecoder
import EspCompressor.LzEncoder

/-! The two directions of the codec undo each other. -/
namespace EspCompressor
namespace Codec

/-- The encoder succeeds on any input when its requests are granted, and the decoder
turns its output back into the input, whatever the two buffers held before. -/
theorem decompress_compress (input : List UInt8) (windowSize : ℕ) (s t : BufferState)
    (hs : s.heap.Ample (input.length + 1 + (input.length + 3) / 18))
    (ht : t.heap.Ample input.length) :
    ∃ s' t', Proc.exec (compressLzLiteBlock input windowSize) s = (some .ok,s') ∧
      Proc.exec (decompressLzLiteBlock s'.buffer.contents input.length) t = (some .ok,t') ∧
      t'.buffer.contents = input := by
  obtain ⟨e,s',hencode,-,⟨rfl,hblock⟩ | ⟨-,hrefused⟩⟩ :=
    Proc.exec_returns (compressLzLiteBlock_spec input windowSize s)
  · have hdecode := LzLite.decodeBlock_encodeBlock input windowSize
    obtain ⟨r,t',hrun,-,hresult⟩ :=
      Proc.exec_returns (decompressLzLiteBlock_spec s'.buffer.contents input.length t)
    rw [hblock,hdecode] at hresult
    rcases hresult with ⟨rfl,ho⟩ | ⟨-,ho⟩ | ⟨-,hrefused⟩
    · exact ⟨s',t',hencode,hrun,(Option.some.inj ho).symm⟩
    · simp at ho
    · exact absurd ht hrefused
  · exact absurd (hs.mono (LzLite.encodeBlock_length_le input windowSize)) hrefused

theorem decompress_compress_overlapping :
    ∃ s' t', Proc.exec (compressLzLiteBlock (List.replicate 40 7) 16) ⟨.new,.unlimited⟩ =
        (some .ok,s') ∧
      Proc.exec (decompressLzLiteBlock s'.buffer.contents 40) ⟨.new,.unlimited⟩ = (some .ok,t') ∧
      t'.buffer.contents = List.replicate 40 7 :=
  decompress_compress (List.replicate 40 7) 16 ⟨.new,.unlimited⟩ ⟨.new,.unlimited⟩
    (Heap.unlimited_ample _) (Heap.unlimited_ample _)

end Codec
end EspCompressor
