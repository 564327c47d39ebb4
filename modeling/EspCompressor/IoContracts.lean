import EspCompressor.CompressionIo

/-! What a run relies on: the bytes staged in a sink, sinks that accept everything, sources
that deliver a byte string in reads of any length, and sources that are honest about its end
and its size. -/
namespace EspCompressor

/-- `k` is the sink after it was opened and took the writes that make up `bytes`. -/
inductive Staged {κ : Type} (sink : CompressionSink κ) (k₀ : κ) : List UInt8 → κ → Prop
  | opened : (sink.open' k₀).1 = .ok → Staged sink k₀ [] (sink.open' k₀).2
  | wrote {bytes : List UInt8} {k : κ} (more : List UInt8) : Staged sink k₀ bytes k →
      (sink.write more k).1 = .ok → Staged sink k₀ (bytes ++ more) (sink.write more k).2

/-- A sink that accepts everything. -/
structure Accepts {κ : Type} (sink : CompressionSink κ) (k₀ : κ) : Prop where
  open_ok : (sink.open' k₀).1 = .ok
  write_ok : ∀ {bytes k}, Staged sink k₀ bytes k → ∀ more, (sink.write more k).1 = .ok
  commit_ok : ∀ {bytes k}, Staged sink k₀ bytes k → (sink.commit k).1 = .ok

/-- A source that delivers what remains in reads of any length: `Inv rest s` says that `rest`
remains. A read gives nothing only when nothing remains, or nothing is asked for. -/
structure Delivers {σ : Type} (source : CompressionSource σ) (Inv : List UInt8 → σ → Prop) : Prop where
  read_ok : ∀ {rest s} capacity, Inv rest s → (source.read capacity s).1.err = .ok
  read_inv : ∀ {rest s} capacity, Inv rest s → ∃ rest',
    rest = (source.read capacity s).1.data ++ rest' ∧ Inv rest' (source.read capacity s).2
  read_nonempty : ∀ {rest s} capacity, Inv rest s → 0 < capacity → rest ≠ [] →
    (source.read capacity s).1.data ≠ []
  eof_inv : ∀ {rest s}, Inv rest s → Inv rest (source.eof s).2
  hasKnownSize_inv : ∀ {rest s}, Inv rest s → Inv rest (source.hasKnownSize s).2
  totalSize_inv : ∀ {rest s}, Inv rest s → Inv rest (source.totalSize s).2

/-- A source of `d` as the encoder needs it: the end is reported after an empty read at the latest,
and never before everything was delivered; the size is unknown, or it is the length of `d`. -/
structure Honest {σ : Type} (source : CompressionSource σ) (d : List UInt8) (known : Bool)
    (Inv : List UInt8 → σ → Prop) : Prop extends Delivers source Inv where
  eof_late : ∀ {rest s}, Inv rest s → (source.eof s).1 = true → rest = []
  eof_read : ∀ {rest s} capacity, Inv rest s → 0 < capacity →
    (source.read capacity s).1.data = [] → (source.eof (source.read capacity s).2).1 = true
  known_eq : ∀ {rest s}, Inv rest s → (source.hasKnownSize s).1 = known
  size_eq : ∀ {rest s}, Inv rest s → known = true → (source.totalSize s).1 = UInt64.ofNat d.length

end EspCompressor
