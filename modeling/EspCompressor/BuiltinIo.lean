import EspCompressor.Session

/-! The built-in sources and sinks against the contracts of a run: what they deliver, and what
they hold once some bytes are staged in them. -/
namespace EspCompressor

/-! ### Sources -/

/-- An open `BufferSource` on `d` that still has `rest` to give. -/
structure BufferSource.Remains (d rest : List UInt8) (s : BufferSource) : Prop where
  isOpen : s.isOpen = true
  data : s.data = d
  rest_eq : rest = d.drop s.offset

/-- A `BufferSource` is honest about its bytes. -/
theorem BufferSource.honest (d : List UInt8) :
    Honest BufferSource.source d true (BufferSource.Remains d) where
  read_ok {rest s} capacity h := by simp [source,h.isOpen]
  read_inv {rest s} capacity h := by
    refine ⟨rest.drop capacity,?_,?_⟩
    · simp [source,h.isOpen,h.data,h.rest_eq]
    · simp only [source,h.isOpen,Bool.true_eq_false,if_false]
      refine ⟨rfl,h.data,?_⟩
      rw [h.rest_eq,List.drop_drop,h.data]
      dsimp only
      by_cases hc : capacity ≤ d.length - s.offset
      · rw [min_eq_right hc]
      · rw [min_eq_left (by omega),List.drop_eq_nil_of_le (by omega),
          List.drop_eq_nil_of_le (by omega)]
  read_nonempty {rest s} capacity h hpos hne := by
    simp only [source,h.isOpen,Bool.true_eq_false,if_false,h.data,← h.rest_eq]
    exact fun hnil => hne (by simpa [hpos.ne'] using hnil)
  eof_inv h := h
  hasKnownSize_inv h := h
  totalSize_inv h := h
  eof_late {rest s} h heof := by
    simp only [source,h.data,decide_eq_true_eq] at heof
    rw [h.rest_eq,List.drop_eq_nil_of_le heof]
  eof_read {rest s} capacity h hpos hnil := by
    simp only [source,h.isOpen,Bool.true_eq_false,if_false,h.data] at hnil ⊢
    have hle : d.length ≤ s.offset := by
      rw [List.take_eq_nil_iff] at hnil
      exact List.drop_eq_nil_iff.mp (hnil.resolve_left hpos.ne')
    rw [decide_eq_true_eq]
    omega
  known_eq _ := rfl
  size_eq h _ := by simp [source,h.data]

theorem BufferSource.remains_open (d : List UInt8) :
    BufferSource.Remains d d (BufferSource.source.open' ⟨d,0,false⟩).2 := ⟨rfl,rfl,rfl⟩

/-- A stream that gives one piece after another, or as much of it as was asked for. -/
def piecesStream : Stream (List (List UInt8)) where
  readBytes capacity pieces := match pieces with
    | [] => (⟨[],Nat.zero_le _⟩,[])
    | piece :: rest => (⟨piece.take capacity,List.length_take_le _ _⟩,
        if piece.length ≤ capacity then rest else piece.drop capacity :: rest)

/-- A `StreamSource` of unknown size that still has `rest` to give, in pieces that are not empty. -/
structure StreamSource.Remains (rest : List UInt8) (s : StreamSource (List (List UInt8))) : Prop where
  unknown : s.hasKnownSize = false
  rest_eq : rest = s.stream.flatten
  pieces : ∀ piece ∈ s.stream, piece ≠ []
  ended : s.eof = true → s.stream = []

/-- A read takes from the first piece, or finds the end. -/
theorem StreamSource.read_remains {rest : List UInt8} {s : StreamSource (List (List UInt8))}
    (h : Remains rest s) {capacity : ℕ} (hpos : 0 < capacity) :
    let r := (source piecesStream).read capacity s
    (∃ rest', rest = r.1.data ++ rest' ∧ Remains rest' r.2) ∧
      (r.1.data = [] → rest = [] ∧ r.2.eof = true) := by
  obtain ⟨hunknown,rfl,hpieces,hended⟩ := h
  obtain ⟨pieces,knownSize,known,eof⟩ := s
  simp only [source,if_neg hpos.ne',piecesStream]
  cases pieces with
  | nil => exact ⟨⟨[],rfl,hunknown,rfl,hpieces,fun _ => rfl⟩,fun _ => ⟨rfl,rfl⟩⟩
  | cons piece rest =>
    obtain ⟨hne,hrest⟩ := List.forall_mem_cons.mp hpieces
    have htake : piece.take capacity ≠ [] := fun hnil =>
      (List.take_eq_nil_iff.mp hnil).elim hpos.ne' hne
    have hopen (htrue : (if piece.take capacity = [] then true else eof) = true) : False := by
      rw [if_neg htake] at htrue
      exact absurd (hended htrue) (List.cons_ne_nil _ _)
    refine ⟨?_,fun hnil => absurd hnil htake⟩
    by_cases hfit : piece.length ≤ capacity
    · simp only [if_pos hfit]
      refine ⟨rest.flatten,?_,hunknown,rfl,hrest,fun htrue => (hopen htrue).elim⟩
      rw [List.take_of_length_le hfit,List.flatten_cons]
    · simp only [if_neg hfit]
      have hdrop : piece.drop capacity ≠ [] := fun hnil => hfit (List.drop_eq_nil_iff.mp hnil)
      refine ⟨(piece.drop capacity :: rest).flatten,?_,hunknown,rfl,
        List.forall_mem_cons.mpr ⟨hdrop,hrest⟩,fun htrue => (hopen htrue).elim⟩
      rw [List.flatten_cons,List.flatten_cons,← List.append_assoc,List.take_append_drop]

/-- A `StreamSource` of unknown size is honest when its stream gives nothing only at its end. -/
theorem StreamSource.honest (d : List UInt8) : Honest (source piecesStream) d false Remains where
  read_ok {rest s} capacity h := by
    simp only [source]
    split_ifs <;> rfl
  read_inv {rest s} capacity h := by
    by_cases hzero : capacity = 0
    · exact ⟨rest,by simp [source,hzero,readNothing],by simpa [source,hzero] using h⟩
    · exact (read_remains h (Nat.pos_of_ne_zero hzero)).1
  read_nonempty {rest s} capacity h hpos hne hnil := hne ((read_remains h hpos).2 hnil).1
  eof_inv h := h
  hasKnownSize_inv h := h
  totalSize_inv h := h
  eof_late {rest s} h heof := by rw [h.rest_eq,h.ended heof,List.flatten_nil]
  eof_read {rest s} capacity h hpos hnil := ((read_remains h hpos).2 hnil).2
  known_eq h := h.unknown
  size_eq _ htrue := absurd htrue Bool.false_ne_true

/-! ### Sinks -/

/-- The staging buffer of an open `DynamicBufferSink`. -/
theorem DynamicBufferSink.staged {k₀ k : DynamicBufferSink} {bytes : List UInt8}
    (h : Staged sink k₀ bytes k) : k.isOpen = true ∧ k.staging.contents = bytes ∧
      k.out = k₀.out ∧ k₀.heap.SameSupply k.heap := by
  induction h with
  | opened _ => exact ⟨rfl,MemoryBuffer.contents_clear _,rfl,.refl _⟩
  | @wrote bytes k more _ hok ih =>
    obtain ⟨hopen,hstaging,hout,hsupply⟩ := ih
    obtain ⟨hs,htrue,-,-⟩ := MemoryBuffer.append_spec more ⟨k.staging,k.heap⟩
    simp only [sink,hopen,Bool.true_eq_false,if_false] at hok ⊢
    have happended : (MemoryBuffer.append more ⟨k.staging,k.heap⟩).1 = true := by
      by_contra hno
      rw [if_neg hno] at hok
      exact absurd hok (by simp)
    exact ⟨trivial,by rw [htrue happended,hstaging],hout,hsupply.trans hs⟩

/-- With enough memory a `DynamicBufferSink` accepts everything. -/
theorem DynamicBufferSink.accepts {k₀ : DynamicBufferSink} (h : ∀ n, k₀.heap.Ample n) :
    Accepts sink k₀ where
  open_ok := rfl
  write_ok {bytes k} hstaged more := by
    obtain ⟨hopen,-,-,hsupply⟩ := staged hstaged
    obtain ⟨-,-,-,hample⟩ := MemoryBuffer.append_spec more ⟨k.staging,k.heap⟩
    simp only [sink,hopen,Bool.true_eq_false,if_false]
    rw [hample ((h _).of_sameSupply hsupply)]
    rfl
  commit_ok {bytes k} hstaged := by
    obtain ⟨hopen,-⟩ := staged hstaged
    simp only [sink,hopen,Bool.true_eq_false,if_false]
    split_ifs <;> rfl

/-- A sink that keeps nothing but the number of its bytes. -/
def countingSink : CompressionSink UInt64 where
  open' _ := (.ok,0)
  write bytes k := (.ok,k + UInt64.ofNat bytes.length)
  commit k := (.ok,k)
  abort k := k
  close k := k
  bytesWritten k := k
  isTransactional _ := true

theorem countingSink_accepts (k₀ : UInt64) : Accepts countingSink k₀ where
  open_ok := rfl
  write_ok _ _ := rfl
  commit_ok _ := rfl

/-- A `DynamicBufferSink` changes its vector only when it commits. -/
theorem DynamicBufferSink.transactional (k₀ : DynamicBufferSink) :
    Transactional sink k₀ DynamicBufferSink.out := by
  intro opened cs bytes e k h he
  cases h with
  | rejected _ => rfl
  | sourceFailed _ => rfl
  | openFailed _ _ => rfl
  | aborted _ hunfinished =>
    cases hunfinished with
    | staged hstaged => exact (staged hstaged).2.2.1
    | @writeFailed _ k more hstaged _ =>
      obtain ⟨hopen,-,hout,-⟩ := staged hstaged
      simpa [sink,hopen] using hout
    | @commitFailed _ k hstaged hcommit =>
      obtain ⟨hopen,-⟩ := staged hstaged
      simp only [sink,hopen,Bool.true_eq_false,if_false] at hcommit
      split_ifs at hcommit <;> exact absurd rfl hcommit
  | committed _ _ => exact absurd rfl he

theorem FixedBufferSink.staged {k₀ k : FixedBufferSink} {bytes : List UInt8}
    (h : Staged sink k₀ bytes k) : k.isOpen = true ∧ k.staging.contents = bytes ∧
      k.buffer = k₀.buffer ∧ k.capacity = k₀.capacity := by
  induction h with
  | opened _ => exact ⟨rfl,MemoryBuffer.contents_clear _,rfl,rfl⟩
  | @wrote bytes k more _ hok ih =>
    obtain ⟨hopen,hstaging,hbuffer,hcapacity⟩ := ih
    obtain ⟨-,htrue,-,-⟩ := MemoryBuffer.append_spec more ⟨k.staging,k.heap⟩
    simp only [sink,hopen,Bool.true_eq_false,if_false] at hok ⊢
    split_ifs at hok ⊢ with hroom happended
    exact ⟨rfl,by rw [htrue happended,hstaging],hbuffer,hcapacity⟩

theorem PrintSink.staged {k₀ k : PrintSink} {bytes : List UInt8} (h : Staged sink k₀ bytes k) :
    k.isOpen = true ∧ k.print.received = k₀.print.received ++ bytes ∧
      k.written = UInt64.ofNat bytes.length := by
  induction h with
  | opened _ => exact ⟨rfl,by simp [sink],rfl⟩
  | @wrote bytes k more _ hok ih =>
    obtain ⟨hopen,hreceived,hwritten⟩ := ih
    simp only [sink,hopen,Bool.true_eq_false,if_false] at hok ⊢
    split_ifs at hok ⊢ with hempty hall
    · rw [List.length_eq_zero_iff.mp hempty,List.append_nil]
      exact ⟨hopen,hreceived,hwritten⟩
    · have hall : min (k.print.accepts k.print.calls) more.length = more.length := not_not.mp hall
      have htake : more.take (k.print.accepts k.print.calls) = more :=
        List.take_of_length_le (by omega)
      refine ⟨rfl,?_,?_⟩
      · simp only [Print.write,htake,hreceived,List.append_assoc]
      · simp only [Print.write,hall,hwritten,List.length_append,UInt64.ofNat_add]

end EspCompressor
