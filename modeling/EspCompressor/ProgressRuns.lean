import EspCompressor.ProgressReports
import EspCompressor.RunPairs

/-! The counters of both run loops: what each statement adds to the bytes read and to the bytes
written, and what the reports of a whole run tell of them. -/
namespace EspCompressor

/-- The bytes read. -/
def RunState.consumed {σ κ : Type} (s : RunState σ κ) : ℕ := (meter s.trace).position

/-- The number of the bytes written. -/
def RunState.produced {σ κ : Type} (s : RunState σ κ) : ℕ := (written s.trace).length

namespace Compressor

/-- A job on an honest source of `d`; a size that it knows fits into `totalSize`. -/
structure HonestRun (d : List UInt8) extends CompressRun d where
  size : known = true → d.length < 2 ^ 64

namespace HonestRun

variable {d : List UInt8} (job : HonestRun d) {ρ ρ' α β : Type}

abbrev State : Type := RunState job.σ job.κ

/-- The result of the job and its final state. -/
def run : Option CompressionResult × job.State :=
  Proc.exec (runSyncJob job.ctx job.fuel) (.start job.source job.k₀ job.heap)

/-- An open session that has reported well so far. -/
structure Live (s : job.State) : Prop extends Transfer job.ctx.sink job.k₀ s where
  source : ∃ rest, job.Inv rest s.source ∧ s.consumed + rest.length = d.length
  informed : Informed d.length s.trace

/-- A statement of an open session that makes no report: `P` bounds its value, the bytes it reads and
those it writes. It returns early with a bad value only. -/
def Moves (bad : ρ → Prop) (m : Proc ρ job.State α) (P : α → ℕ → ℕ → Prop) : Prop :=
  ∀ s, job.Live s → Proc.wp m
    (fun a s' => job.Live s' ∧ ∃ i o, P a i o ∧ s'.consumed = s.consumed + i ∧ s'.produced = s.produced + o)
    (fun r s' => bad r ∧ Informed d.length s'.trace) (fun s' => Informed d.length s'.trace) s

/-- A result that is not `Ok`. -/
def Failed (r : CompressionResult) : Prop := r.error ≠ .ok

/-- Nothing is read and nothing written. -/
def Stays (_ : α) (i o : ℕ) : Prop := i = 0 ∧ o = 0

variable {job}

/-! ### Rules -/

section Rules

variable {bad : ρ → Prop} {m : Proc ρ job.State α} {P P' : α → ℕ → ℕ → Prop} {Q : β → ℕ → ℕ → Prop}

theorem Moves.pure {a : α} (h : P a 0 0) : job.Moves bad (Pure.pure a) P := fun _ hs =>
  ⟨hs,0,0,h,rfl,rfl⟩

/-- A statement, and what comes after it. -/
theorem Moves.bind_wp {f : α → Proc ρ job.State β} {R : β → job.State → Prop} {s : job.State}
    (hm : job.Moves bad m P) (hs : job.Live s)
    (hf : ∀ a s' i o, P a i o → job.Live s' → s'.consumed = s.consumed + i →
      s'.produced = s.produced + o → Proc.wp (f a) R (fun r s' => bad r ∧ Informed d.length s'.trace)
        (fun s' => Informed d.length s'.trace) s') :
    Proc.wp (m >>= f) R (fun r s' => bad r ∧ Informed d.length s'.trace)
      (fun s' => Informed d.length s'.trace) s := by
  rw [Proc.wp_bind]
  refine Proc.wp_mono (hm s hs) (fun a s' h => ?_) (fun _ _ h => h) fun _ h => h
  obtain ⟨hs',i,o,hP,hi,ho⟩ := h
  exact hf a s' i o hP hs' hi ho

theorem Moves.bind {f : α → Proc ρ job.State β} (hm : job.Moves bad m P)
    (hf : ∀ a i o, P a i o → job.Moves bad (f a) fun b i' o' => Q b (i + i') (o + o')) :
    job.Moves bad (m >>= f) Q := fun s hs => by
  refine hm.bind_wp hs fun a s' i o hP hs' hi ho => ?_
  refine Proc.wp_mono (hf a i o hP s' hs') (fun b s'' h => ?_) (fun _ _ h => h) fun _ h => h
  obtain ⟨hs'',i',o',hQ,hi',ho'⟩ := h
  exact ⟨hs'',i + i',o + o',hQ,by omega,by omega⟩

/-- A statement that neither reads nor writes, before others. -/
theorem Moves.stays {f : α → Proc ρ job.State β} (hm : job.Moves bad m Stays)
    (hf : ∀ a, job.Moves bad (f a) Q) : job.Moves bad (m >>= f) Q :=
  hm.bind fun a i o h => by
    obtain ⟨rfl,rfl⟩ := h
    simpa using hf a

/-- A statement that neither reads nor writes, and what comes after it. -/
theorem Moves.stays_wp {f : α → Proc ρ job.State β} {R : β → job.State → Prop} {s : job.State}
    (hm : job.Moves bad m Stays) (hs : job.Live s)
    (hf : ∀ a s', job.Live s' → s'.consumed = s.consumed → s'.produced = s.produced →
      Proc.wp (f a) R (fun r s' => bad r ∧ Informed d.length s'.trace)
        (fun s' => Informed d.length s'.trace) s') :
    Proc.wp (m >>= f) R (fun r s' => bad r ∧ Informed d.length s'.trace)
      (fun s' => Informed d.length s'.trace) s :=
  hm.bind_wp hs fun a s' i o hstays hs' hi ho => by
    obtain ⟨rfl,rfl⟩ := hstays
    exact hf a s' hs' hi ho

theorem Moves.mono (h : job.Moves bad m P) (hP : ∀ a i o, P a i o → P' a i o) :
    job.Moves bad m P' := fun s hs => by
  refine Proc.wp_mono (h s hs) (fun a s' h' => ?_) (fun _ _ h' => h') fun _ h' => h'
  obtain ⟨hs',i,o,h',hi,ho⟩ := h'
  exact ⟨hs',i,o,hP a i o h',hi,ho⟩

theorem Moves.ite {c : Prop} [Decidable c] {n : Proc ρ job.State α} (hm : c → job.Moves bad m P)
    (hn : ¬c → job.Moves bad n P) : job.Moves bad (if c then m else n) P := fun s hs => by
  rw [Proc.wp_ite]
  exact ⟨fun hc => hm hc s hs,fun hc => hn hc s hs⟩

theorem Moves.returnIf {c : Prop} [Decidable c] {r : ρ} (hr : c → bad r) :
    job.Moves bad (Proc.returnIf c r) Stays := fun s hs => by
  rw [Proc.wp_returnIf]
  exact ⟨fun hc => ⟨hr hc,hs.informed⟩,fun _ => ⟨hs,0,0,⟨rfl,rfl⟩,rfl,rfl⟩⟩

theorem Moves.mapReturn {bad' : ρ' → Prop} {f : ρ → ρ'} (h : job.Moves bad m P)
    (hf : ∀ r, bad r → bad' (f r)) : job.Moves bad' (Proc.mapReturn f m) P := fun s hs => by
  rw [Proc.wp_mapReturn]
  exact Proc.wp_mono (h s hs) (fun _ _ h' => h') (fun r _ h' => ⟨hf r h'.1,h'.2⟩) fun _ h' => h'

/-- `I` bounds the loop variables, and what all rounds so far have read and written. -/
theorem Moves.loop {body : α → Proc ρ job.State (α ⊕ β)} {I : α → ℕ → ℕ → Prop}
    (hbody : ∀ a i o, I a i o → job.Moves bad (body a) fun c i' o' =>
      c.elim (I · (i + i') (o + o')) (Q · (i + i') (o + o')))
    (n : ℕ) {a : α} (ha : I a 0 0) : job.Moves bad (Proc.loop body n a) Q := fun s hs => by
  let J (a : α) (s' : job.State) : Prop :=
    job.Live s' ∧ ∃ i o, I a i o ∧ s'.consumed = s.consumed + i ∧ s'.produced = s.produced + o
  refine Proc.wp_loop (I := J) (fun a s' h => ?_) (fun _ _ h => h.1.informed) n a ⟨hs,0,0,ha,rfl,rfl⟩
  obtain ⟨hs',i,o,hI,hi,ho⟩ := h
  refine Proc.wp_mono (hbody a i o hI s' hs') (fun c s'' h => ?_) (fun _ _ h => h) fun _ h => h
  obtain ⟨hs'',i',o',hc,hi',ho'⟩ := h
  cases c with
  | inl a' => exact ⟨hs'',i + i',o + o',hc,by omega,by omega⟩
  | inr b => exact ⟨hs'',i + i',o + o',hc,by omega,by omega⟩

end Rules

/-! ### Calls -/

/-- A call to the source, or none: the sink is left alone. -/
theorem Live.calls {s s' : job.State} (h : job.Live s) (e : IoEvent) {rest : List UInt8}
    (hsource : job.Inv rest s'.source) (hrest : s'.consumed + rest.length = d.length)
    (hsink : s'.sink = s.sink) (hopened : s'.opened = s.opened) (hcommitted : s'.committed = s.committed)
    (htrace : s'.trace = s.trace ++ [e]) (hwritten : e.written = []) (hcommit : e.commits = [])
    (hreport : e.report = none) : job.Live s' := by
  refine ⟨h.toTransfer.frame e hsink hopened hcommitted htrace hwritten hcommit,⟨rest,hsource,hrest⟩,?_⟩
  rw [htrace]
  exact h.informed.append (by simpa using hreport)

/-- A query of the source. -/
theorem asks {bad : ρ → Prop} {f : job.σ → α × job.σ} (e : α → IoEvent)
    (hinv : ∀ {rest s}, job.Inv rest s → job.Inv rest (f s).2) (hmeter : ∀ a m, (e a).meter m = m)
    (hwritten : ∀ a, (e a).written = []) (hcommit : ∀ a, (e a).commits = [])
    (hreport : ∀ a, (e a).report = none) :
    job.Moves bad (Proc.lift fun s => ((f s.source).1,s.asked (f s.source).2 (e (f s.source).1)))
      fun a i o => Stays a i o ∧ ∃ rest s, job.Inv rest s ∧ a = (f s).1 := fun s hs => by
  obtain ⟨rest,hrest,htotal⟩ := hs.source
  have hconsumed : (s.asked (f s.source).2 (e (f s.source).1)).consumed = s.consumed := by
    simp [RunState.consumed,RunState.asked,hmeter]
  have hproduced : (s.asked (f s.source).2 (e (f s.source).1)).produced = s.produced := by
    simp [RunState.produced,RunState.asked,hwritten]
  have hlive : job.Live (s.asked (f s.source).2 (e (f s.source).1)) :=
    hs.calls (e (f s.source).1) (hinv hrest) (by rw [hconsumed]; exact htotal) rfl rfl rfl rfl
      (hwritten _) (hcommit _) (hreport _)
  exact ⟨hlive,0,0,⟨⟨rfl,rfl⟩,rest,s.source,hrest,rfl⟩,hconsumed,hproduced⟩

theorem sourceEof_moves {bad : ρ → Prop} : job.Moves bad (sourceEof job.ctx.source) Stays :=
  (asks .eof job.honest.eof_inv (fun _ _ => rfl) (fun _ => rfl) (fun _ => rfl) fun _ => rfl).mono
    fun _ _ _ h => h.1

theorem sourceHasKnownSize_moves {bad : ρ → Prop} : job.Moves bad (sourceHasKnownSize job.ctx.source)
    fun answer i o => Stays answer i o ∧ answer = job.known :=
  (asks .hasKnownSize job.honest.hasKnownSize_inv (fun _ _ => rfl) (fun _ => rfl) (fun _ => rfl)
    fun _ => rfl).mono fun answer i o ⟨hstays,rest,s,hinv,hanswer⟩ => by
      rw [hanswer] at hstays ⊢
      exact ⟨hstays,job.honest.known_eq hinv⟩

theorem sourceTotalSize_moves {bad : ρ → Prop} : job.Moves bad (sourceTotalSize job.ctx.source)
    fun size i o => Stays size i o ∧ (job.known = true → size.toNat = d.length) :=
  (asks .totalSize job.honest.totalSize_inv (fun _ _ => rfl) (fun _ => rfl) (fun _ => rfl)
    fun _ => rfl).mono fun size i o ⟨hstays,rest,s,hinv,hanswer⟩ => by
      refine ⟨hstays,fun hknown => ?_⟩
      rw [hanswer,job.honest.size_eq hinv hknown]
      exact UInt64.toNat_ofNat_of_lt' (job.size hknown)

/-- A read, whatever its error. -/
theorem readSource_moves {bad : ρ → Prop} (capacity : ℕ) :
    job.Moves bad (readSource job.ctx.source capacity)
      fun r i o => i = r.data.length ∧ o = 0 := fun s hs => by
  obtain ⟨rest,hrest,htotal⟩ := hs.source
  obtain ⟨rest',hdata,hrest'⟩ := job.honest.read_inv capacity hrest
  set r := job.ctx.source.read capacity s.source with hr
  let s' : job.State := { s with source := r.2, trace := s.trace ++ [.read capacity r.1.err r.1.data] }
  have hconsumed : s'.consumed = s.consumed + r.1.data.length := by
    simp [s',RunState.consumed,IoEvent.meter]
  have hproduced : s'.produced = s.produced := by simp [s',RunState.produced,IoEvent.written]
  have hlength : s'.consumed + rest'.length = d.length := by
    rw [hdata,List.length_append] at htotal
    omega
  have hlive : job.Live s' := hs.calls _ hrest' hlength rfl rfl rfl rfl rfl rfl rfl
  exact ⟨hlive,r.1.data.length,0,⟨rfl,rfl⟩,hconsumed,hproduced⟩

theorem check_moves (result : CompressionResult) (e : CompressionError) :
    job.Moves Failed (check result e) Stays := Moves.returnIf fun he => he

theorem shouldAbortForCancel_moves (result : CompressionResult) :
    job.Moves Failed (shouldAbortForCancel job.ctx result) Stays := by
  have hload : job.Moves Failed (loadCancel job.ctx.cancelRequested) Stays := fun s hs => by
    obtain ⟨rest,hrest,htotal⟩ := hs.source
    let s' : job.State := { s with
      loads := s.loads + 1, trace := s.trace ++ [.cancelLoad (job.ctx.cancelRequested s.loads)] }
    have hconsumed : s'.consumed = s.consumed := by simp [s',RunState.consumed,IoEvent.meter]
    have hproduced : s'.produced = s.produced := by simp [s',RunState.produced,IoEvent.written]
    have hlive : job.Live s' :=
      hs.calls _ hrest (by rw [hconsumed]; exact htotal) rfl rfl rfl rfl rfl rfl rfl
    exact ⟨hlive,0,0,⟨rfl,rfl⟩,hconsumed,hproduced⟩
  exact hload.stays fun cancelled => Moves.returnIf fun _ => by simp [Failed]

theorem Live.withHeap {s : job.State} (h : job.Live s) (heap : Heap) :
    job.Live { s with heap := heap } := ⟨h.toTransfer.withHeap heap,h.source,h.informed⟩

theorem onBuffer_moves {bad : ρ → Prop} (buffer : MemoryBuffer) (op : BufferState → Bool × BufferState) :
    job.Moves bad (onBuffer buffer op) Stays := fun _ hs => ⟨hs.withHeap _,0,0,⟨rfl,rfl⟩,rfl,rfl⟩

theorem callWith_moves {bad : ρ → Prop} (buffer : MemoryBuffer)
    {f : Proc CompressionError BufferState CompressionError}
    (hf : ∀ t, Proc.wp f (fun _ _ => True) (fun _ _ => True) (fun _ => True) t) :
    job.Moves bad (callWith buffer f) Stays := fun s hs => by
  rw [callWith,Proc.wp_callOn]
  refine Proc.wp_mono (hf _) (fun e t _ => ?_) (fun e t _ => ?_) fun t _ => hs.informed
  · exact ⟨hs.withHeap t.heap,0,0,⟨rfl,rfl⟩,rfl,rfl⟩
  · exact ⟨hs.withHeap t.heap,0,0,⟨rfl,rfl⟩,rfl,rfl⟩

theorem writeOrReturn_moves (bytes : List UInt8) (result : CompressionResult) :
    job.Moves Failed (writeOrReturn job.ctx.sink result bytes)
      fun _ i o => i = 0 ∧ o = bytes.length := fun s hs => by
  have htransfer := writeOrReturn_transfers bytes result s hs.toTransfer
  obtain ⟨rest,hrest,htotal⟩ := hs.source
  simp only [writeOrReturn,Proc.wp_bind,writeSink,Proc.wp_lift,check,Proc.wp_returnIf] at htransfer ⊢
  have hinformed (e : CompressionError) : Informed d.length (s.trace ++ [.write bytes e]) :=
    hs.informed.append (by simp [IoEvent.report])
  refine ⟨fun he => ⟨he,hinformed _⟩,fun he => ?_⟩
  have hok : (job.ctx.sink.write bytes s.sink).1 = .ok := not_not.mp he
  have hconsumed (e : CompressionError) : (meter (s.trace ++ [.write bytes e])).position = s.consumed := by
    simp [RunState.consumed,IoEvent.meter]
  refine ⟨⟨htransfer.2 he,⟨rest,hrest,?_⟩,hinformed _⟩,0,bytes.length,⟨rfl,rfl⟩,hconsumed _,?_⟩
  · rw [RunState.consumed,hconsumed]
    exact htotal
  · simp [RunState.produced,IoEvent.written,hok]

/-! ### Statements of both loops -/

/-- `readExact` counts what it reads. -/
theorem readExact_moves (size : ℕ) (processedBytes : UInt64) :
    job.Moves (fun e : CompressionError => e ≠ .ok) (readExact job.ctx.source size processedBytes)
      fun p i o => p.2 = processedBytes + UInt64.ofNat i ∧ o = 0 := by
  refine Moves.loop (I := fun p i o => p.2 = processedBytes + UInt64.ofNat i ∧ o = 0)
    (fun p i o hp => ?_) (size + 1) ⟨by simp,rfl⟩
  obtain ⟨hcount,rfl⟩ := hp
  refine Moves.ite (fun _ => ?_) fun _ => Moves.pure ⟨by simpa using hcount,rfl⟩
  refine (readSource_moves (size - p.1.length)).bind fun got n o hgot => ?_
  obtain ⟨rfl,rfl⟩ := hgot
  have hread : job.Moves (fun e : CompressionError => e ≠ .ok) (Proc.returnIf (got.err ≠ .ok) got.err)
      Stays := Moves.returnIf fun he => he
  have hsome : job.Moves (fun e : CompressionError => e ≠ .ok)
      (Proc.returnIf (got.data.length = 0) .corruptData) Stays := Moves.returnIf fun _ => by simp
  refine hread.stays fun _ => hsome.stays fun _ => Moves.pure ⟨?_,rfl⟩
  simp only [hcount,Nat.add_zero,UInt64.ofNat_add,UInt64.add_assoc]

theorem readOrReturn_moves (result : CompressionResult) (size : ℕ) (processedBytes : UInt64) :
    job.Moves Failed (readOrReturn job.ctx result size processedBytes)
      fun p i o => p.2 = processedBytes + UInt64.ofNat i ∧ o = 0 :=
  (readExact_moves size processedBytes).mapReturn fun _ he => he

/-- The total that the reports show, when they show one. -/
theorem startProgress_moves : job.Moves Failed (startProgress job.ctx) fun p i o => Stays p i o ∧
    (p.hasKnownTotalInput = true → p.totalInputBytes.toNat = d.length) := by
  refine sourceHasKnownSize_moves.bind fun known i o hknown => ?_
  obtain ⟨⟨rfl,rfl⟩,rfl⟩ := hknown
  refine sourceTotalSize_moves.bind fun total i o htotal => ?_
  obtain ⟨⟨rfl,rfl⟩,hsize⟩ := htotal
  exact Moves.pure ⟨⟨rfl,rfl⟩,hsize⟩

/-! ### Reports -/

/-- What the counters of the next report are. -/
def Counted (s : job.State) (p : CompressionProgress) : Prop :=
  p.processedInputBytes = UInt64.ofNat s.consumed ∧ p.producedOutputBytes = UInt64.ofNat s.produced ∧
    (p.hasKnownTotalInput = true → p.totalInputBytes.toNat = d.length)

theorem Live.tells {s : job.State} (h : job.Live s) {p : CompressionProgress} {n : UInt64}
    (hprocessed : p.processedInputBytes = UInt64.ofNat s.consumed) (hproduced : p.producedOutputBytes = n)
    (htotal : p.hasKnownTotalInput = true → p.totalInputBytes.toNat = d.length) :
    Tells d.length n s.trace p := by
  obtain ⟨rest,-,hlength⟩ := h.source
  refine ⟨hprocessed,hproduced,fun hknown => ⟨?_,htotal hknown⟩⟩
  change s.consumed ≤ d.length
  omega

/-- A report that is not the last one. -/
theorem Live.emits {s : job.State} (h : job.Live s) {p : CompressionProgress} (hp : Counted s p)
    (result : CompressionResult) {R : CompressionProgress → job.State → Prop} {bad : ρ → Prop}
    (hR : ∀ report s', report.processedInputBytes = p.processedInputBytes →
      report.producedOutputBytes = p.producedOutputBytes →
      report.hasKnownTotalInput = p.hasKnownTotalInput → report.totalInputBytes = p.totalInputBytes →
      job.Live s' → s'.consumed = s.consumed → s'.produced = s.produced → R report s') :
    Proc.wp (emitProgress p result false) R (fun r s' => bad r ∧ Informed d.length s'.trace)
      (fun s' => Informed d.length s'.trace) s := by
  obtain ⟨rest,hrest,hlength⟩ := h.source
  let report : CompressionProgress := { p with
    done := false, cancelled := decide (result.error = .cancelled) }
  let s' : job.State := { s with trace := s.trace ++ [.progress report] }
  have hconsumed : s'.consumed = s.consumed := by simp [s',RunState.consumed,IoEvent.meter]
  have hproduced : s'.produced = s.produced := by simp [s',RunState.produced,IoEvent.written]
  have htells : Tells d.length (UInt64.ofNat s.produced) s.trace report := h.tells hp.1 hp.2.1 hp.2.2
  have hlive : job.Live s' := by
    refine ⟨h.toTransfer.frame _ rfl rfl rfl rfl rfl rfl,⟨rest,hrest,?_⟩,h.informed.report rfl htells⟩
    rw [hconsumed]
    exact hlength
  exact hR report s' rfl rfl rfl rfl hlive hconsumed hproduced

/-- Statements that follow others which read nothing: `c` bytes have been read before. -/
def Reaches (job : HonestRun d) (c : ℕ) (m : Proc CompressionResult job.State α)
    (R : α → job.State → Prop) : Prop :=
  ∀ s, job.Live s → s.consumed = c → Proc.wp m R
    (fun r s' => Failed r ∧ Informed d.length s'.trace) (fun s' => Informed d.length s'.trace) s

theorem Moves.reaches {m : Proc CompressionResult job.State α} {P : α → ℕ → ℕ → Prop}
    {f : α → Proc CompressionResult job.State β} {R : β → job.State → Prop} {c : ℕ}
    (hm : job.Moves Failed m P) (hP : ∀ a i o, P a i o → i = 0) (hf : ∀ a, job.Reaches c (f a) R) :
    job.Reaches c (m >>= f) R := fun s hs hc => by
  refine hm.bind_wp hs fun a s' i o h hs' hi _ => hf a s' hs' ?_
  rw [hi,hP a i o h,hc]
  rfl

/-- How a session ends that has committed: `count` tells what the last report counts as output. -/
structure Closing (job : HonestRun d) (count : List UInt8 → UInt64 → Prop) (r : CompressionResult)
    (s : job.State) : Prop where
  error : r.error = .ok
  committed : s.committed = true
  trace_eq : ∃ before last, s.trace = before ++ [.commit .ok,.progress last] ∧
    Informed d.length before ∧ last.done = true ∧ Tells d.length last.producedOutputBytes before last ∧
    count (written before) last.producedOutputBytes

/-- The commit. -/
theorem Live.commits {s : job.State} (hs : job.Live s) (result : CompressionResult)
    {f : CompressionResult → Proc CompressionResult job.State α} {R : α → job.State → Prop}
    (hf : ∀ s' : job.State, (job.ctx.sink.commit s.sink).1 = .ok → s'.committed = true →
      s'.sink = (job.ctx.sink.commit s.sink).2 → s'.trace = s.trace ++ [.commit .ok] →
      Proc.wp (f { result with error := .ok }) R (fun r s' => Failed r ∧ Informed d.length s'.trace)
        (fun s' => Informed d.length s'.trace) s') :
    Proc.wp (commitSession job.ctx result >>= f) R (fun r s' => Failed r ∧ Informed d.length s'.trace)
      (fun s' => Informed d.length s'.trace) s := by
  simp only [commitSession,commitSink,Proc.wp_bind,Proc.wp_lift,check,Proc.wp_returnIf,Proc.wp_modify,
    Proc.wp_pure]
  refine ⟨fun he => ⟨he,hs.informed.append (by simp [IoEvent.report])⟩,fun he => ?_⟩
  have hok : (job.ctx.sink.commit s.sink).1 = .ok := not_not.mp he
  rw [hok]
  exact hf _ hok rfl rfl rfl

/-- The last report. -/
theorem Live.finishes {count : List UInt8 → UInt64 → Prop} {s s' : job.State} (hs : job.Live s)
    (hcommitted : s'.committed = true) (htrace : s'.trace = s.trace ++ [.commit .ok])
    {p : CompressionProgress} {r : CompressionResult} (hr : r.error = .ok)
    (hprocessed : p.processedInputBytes = UInt64.ofNat s.consumed)
    (htotal : p.hasKnownTotalInput = true → p.totalInputBytes.toNat = d.length)
    (hcount : count (written s.trace) p.producedOutputBytes) {E : CompressionResult → job.State → Prop}
    {E' : job.State → Prop} :
    Proc.wp (do
        let _ ← emitProgress p r true
        pure r)
      (job.Closing count) E E' s' := by
  simp only [emitProgress,Proc.wp_bind,Proc.wp_lift,Proc.wp_pure]
  let last : CompressionProgress := { p with
    done := true, cancelled := decide (r.error = .cancelled) }
  have htells : Tells d.length last.producedOutputBytes s.trace last := hs.tells hprocessed rfl htotal
  refine ⟨hr,hcommitted,s.trace,last,?_,hs.informed,rfl,htells,hcount⟩
  change s'.trace ++ [.progress last] = _
  rw [htrace]
  simp

/-! ### Compression -/

/-- What the loop variables count. -/
structure CompressLedger (job : HonestRun d) (v : CompressVars) (s : job.State) : Prop where
  inputBytes : v.result.inputBytes = UInt64.ofNat s.consumed
  total : v.progress.hasKnownTotalInput = true → v.progress.totalInputBytes.toNat = d.length

/-- The sink counts what was written, as long as it is not committed. -/
def SinkCounts (job : HonestRun d) : Prop :=
  ∀ {bytes k}, Staged job.ctx.sink job.k₀ bytes k → job.ctx.sink.bytesWritten k = UInt64.ofNat bytes.length

/-- How a round that goes on ends: with what the loop variables count. -/
def RoundEnds {V : Type} (job : HonestRun d) (Ledger : V → job.State → Prop) (c : V ⊕ V) (s : job.State) :
    Prop :=
  job.Live s ∧ c.elim (Ledger · s) (Ledger · s)

/-- A loop whose rounds keep a ledger. -/
theorem Live.loop {V : Type} {Ledger : V → job.State → Prop}
    {round : V → Proc CompressionResult job.State (V ⊕ V)}
    (hround : ∀ v s, job.Live s → Ledger v s → Proc.wp (round v) (job.RoundEnds Ledger)
      (fun r s' => Failed r ∧ Informed d.length s'.trace) (fun s' => Informed d.length s'.trace) s)
    (n : ℕ) {v : V} {s : job.State} (hs : job.Live s) (hv : Ledger v s) :
    Proc.wp (Proc.loop round n v) (fun v' s' => job.Live s' ∧ Ledger v' s')
      (fun r s' => Failed r ∧ Informed d.length s'.trace) (fun s' => Informed d.length s'.trace) s := by
  refine Proc.wp_loop (I := fun v s => job.Live s ∧ Ledger v s) (fun v s h => ?_)
    (fun _ _ h => h.1.informed) n v ⟨hs,hv⟩
  refine Proc.wp_mono (hround v s h.1 h.2) (fun c s' h' => ?_) (fun _ _ h' => h') fun _ h' => h'
  cases c with
  | inl v' => exact h'
  | inr v' => exact h'

theorem compressChunk_reaches (hcounts : job.SinkCounts) {v : CompressVars} {c : ℕ}
    (hinput : v.result.inputBytes = UInt64.ofNat c) (hprocessed : v.progress.processedInputBytes = UInt64.ofNat c)
    (htotal : v.progress.hasKnownTotalInput = true → v.progress.totalInputBytes.toNat = d.length)
    (readBytes : ℕ) :
    job.Reaches c (compressChunk job.ctx v readBytes) (job.RoundEnds job.CompressLedger) := by
  refine (callWith_moves _ (compressLzLiteBlock_safe _ _)).reaches (fun _ _ _ h => h.1) fun encoded => ?_
  refine (check_moves _ _).reaches (fun _ _ _ h => h.1) fun _ => ?_
  refine sourceEof_moves.reaches (fun _ _ _ h => h.1) fun ended => ?_
  refine (check_moves _ _).reaches (fun _ _ _ h => h.1) fun _ => ?_
  refine (writeOrReturn_moves _ _).reaches (fun _ _ _ h => h.1) fun _ => ?_
  refine (writeOrReturn_moves _ _).reaches (fun _ _ _ h => h.1) fun _ s hs hc => ?_
  have hcounted : Counted s { v.progress with producedOutputBytes := job.ctx.sink.bytesWritten s.sink } := by
    refine ⟨?_,hcounts hs.staged,htotal⟩
    rw [hc]
    exact hprocessed
  rw [sinkBytesWritten,Proc.wp_bind,Proc.wp_get,Proc.wp_bind]
  refine hs.emits hcounted _ fun report s' _ _ hknown hsize hs' hconsumed _ => ?_
  refine ⟨hs',?_,fun h => ?_⟩
  · rw [hconsumed,hc]
    exact hinput
  · rw [hknown] at h
    rw [hsize]
    exact htotal h

theorem compressRound_ends (hcounts : job.SinkCounts) {v : CompressVars} {s : job.State}
    (hs : job.Live s) (hv : job.CompressLedger v s) :
    Proc.wp (compressRound job.ctx v) (job.RoundEnds job.CompressLedger)
      (fun r s' => Failed r ∧ Informed d.length s'.trace) (fun s' => Informed d.length s'.trace) s := by
  refine (shouldAbortForCancel_moves _).stays_wp hs fun _ s₁ h₁ hc₁ _ => ?_
  refine (readSource_moves _).bind_wp h₁ fun r s₂ i o hread h₂ hc₂ _ => ?_
  obtain ⟨rfl,-⟩ := hread
  refine (check_moves _ _).stays_wp h₂ fun _ s₃ h₃ hc₃ _ => ?_
  have hinput : v.result.inputBytes + UInt64.ofNat r.data.length = UInt64.ofNat s₃.consumed := by
    rw [hc₃,hc₂,hc₁,hv.inputBytes,UInt64.ofNat_add]
  rw [Proc.wp_ite]
  refine ⟨fun _ => ?_,fun _ => ?_⟩
  swap
  · refine compressChunk_reaches hcounts ?_ ?_ ?_ _ s₃ h₃ rfl
    · exact hinput
    · exact hinput
    · exact hv.total
  refine sourceEof_moves.stays_wp h₃ fun ended s₄ h₄ hc₄ _ => ?_
  rw [Proc.wp_bind,Proc.wp_returnIf]
  refine ⟨fun _ => ⟨by simp [Failed],h₄.informed⟩,fun _ => ⟨h₄,?_,hv.total⟩⟩
  rw [hc₄]
  exact hinput

theorem declaredSize_moves : job.Moves Failed (declaredSize job.ctx.source) Stays := by
  refine sourceHasKnownSize_moves.bind fun known i o h => ?_
  obtain ⟨⟨rfl,rfl⟩,-⟩ := h
  refine Moves.ite (fun _ => ?_) fun _ => Moves.pure ⟨rfl,rfl⟩
  exact sourceTotalSize_moves.mono fun size i o h => by simpa [Stays] using h.1

theorem writeFileHeader_moves (result : CompressionResult) :
    job.Moves Failed (writeFileHeader job.ctx result) fun _ i _ => i = 0 := by
  refine declaredSize_moves.stays fun originalSize => ?_
  refine sourceHasKnownSize_moves.bind fun known i o h => ?_
  obtain ⟨⟨rfl,rfl⟩,-⟩ := h
  have hwrite (encoded : CompressionError × BufferState) : job.Moves Failed (do
      check result encoded.1
      writeOrReturn job.ctx.sink result encoded.2.buffer.contents) fun _ i _ => 0 + i = 0 :=
    (check_moves _ _).stays fun _ => (writeOrReturn_moves _ _).mono fun _ i o h => by simp [h.1]
  exact (callWith_moves _ (encodeEscHeader_safe _)).stays hwrite

theorem writeTerminator_moves (v : CompressVars) : job.Moves Failed (writeTerminator job.ctx v)
    fun r i _ => i = 0 ∧ r.inputBytes = v.result.inputBytes := by
  refine Moves.ite (fun _ => ?_) fun _ => Moves.pure ⟨rfl,rfl⟩
  refine (check_moves _ _).stays fun _ => (writeOrReturn_moves _ _).bind fun _ i o h => ?_
  obtain ⟨rfl,rfl⟩ := h
  exact fun s hs => ⟨hs,0,0,⟨rfl,rfl⟩,rfl,rfl⟩

/-- The last report of a compression counts what the sink counts after its commit. -/
def CountsCommitted (job : HonestRun d) (bytes : List UInt8) (n : UInt64) : Prop :=
  ∃ k, Staged job.ctx.sink job.k₀ bytes k ∧ (job.ctx.sink.commit k).1 = .ok ∧
    n = job.ctx.sink.bytesWritten (job.ctx.sink.commit k).2

theorem compressSession_closing (hcounts : job.SinkCounts) {result : CompressionResult}
    (hresult : result = makeResult job.ctx.operation .ok) (n : ℕ) {s : job.State} (hs : job.Live s)
    (hstart : s.consumed = 0) :
    Proc.wp (compressSession job.ctx result n) (job.Closing job.CountsCommitted)
      (fun r s' => Failed r ∧ Informed d.length s'.trace) (fun s' => Informed d.length s'.trace) s := by
  refine (onBuffer_moves _ _).stays_wp hs fun blockBuffer s₁ h₁ hc₁ _ => ?_
  rw [Proc.wp_bind,Proc.wp_returnIf]
  refine ⟨fun _ => ⟨by simp [Failed],h₁.informed⟩,fun _ => ?_⟩
  refine (writeFileHeader_moves result).bind_wp h₁ fun _ s₂ i o hi h₂ hc₂ _ => ?_
  refine startProgress_moves.bind_wp h₂ fun progress s₃ i' o hprogress h₃ hc₃ _ => ?_
  obtain ⟨⟨rfl,-⟩,htotal⟩ := hprogress
  have hzero : s₃.consumed = 0 := by omega
  rw [Proc.wp_bind,sinkBytesWritten,Proc.wp_get,Proc.wp_bind]
  have hledger (v : CompressVars) (hinput : v.result.inputBytes = 0)
      (hv : v.progress.hasKnownTotalInput = true → v.progress.totalInputBytes.toNat = d.length) :
      job.CompressLedger v s₃ := ⟨by rw [hinput,hzero]; rfl,hv⟩
  refine Proc.wp_mono (Live.loop (fun _ _ => compressRound_ends hcounts) n h₃ (hledger _ ?_ htotal))
    (fun v s₄ h => ?_) (fun _ _ h => h) fun _ h => h
  · rw [hresult]
    rfl
  obtain ⟨h₄,hv⟩ := h
  refine (writeTerminator_moves v).bind_wp h₄ fun r s₅ i o hr h₅ hc₅ _ => ?_
  obtain ⟨rfl,hinput⟩ := hr
  refine (shouldAbortForCancel_moves r).stays_wp h₅ fun _ s₆ h₆ hc₆ _ => ?_
  refine h₆.commits r fun s₇ hcommit hcommitted hsink htrace => ?_
  rw [Proc.wp_bind,Proc.wp_get]
  let produced := job.ctx.sink.bytesWritten s₇.sink
  have hproduced : job.CountsCommitted (written s₆.trace) produced :=
    ⟨s₆.sink,h₆.staged,hcommit,by simp only [produced,hsink]⟩
  have hprocessed : r.inputBytes = UInt64.ofNat s₆.consumed := by
    rw [hinput,hv.inputBytes,hc₆,hc₅]
    rfl
  exact h₆.finishes hcommitted htrace
    (p := { v.progress with processedInputBytes := r.inputBytes, producedOutputBytes := produced })
    (r := { r with error := .ok, outputBytes := produced }) rfl hprocessed hv.total hproduced

/-! ### Decompression -/

/-- What the loop variables count. -/
structure DecompressLedger (job : HonestRun d) (v : DecompressVars) (s : job.State) : Prop where
  processed : v.processedCompressedInput = UInt64.ofNat s.consumed
  outputBytes : v.result.outputBytes = UInt64.ofNat s.produced
  total : v.progress.hasKnownTotalInput = true → v.progress.totalInputBytes.toNat = d.length

/-- What a statement adds to the counters. -/
structure Adds (v v' : DecompressVars) (i o : ℕ) : Prop where
  processed : v'.processedCompressedInput = v.processedCompressedInput + UInt64.ofNat i
  outputBytes : v'.result.outputBytes = v.result.outputBytes + UInt64.ofNat o
  progress : v'.progress = v.progress

theorem DecompressLedger.adds {v v' : DecompressVars} {s s' : job.State} {i o : ℕ}
    (h : job.DecompressLedger v s) (hv : Adds v v' i o) (hi : s'.consumed = s.consumed + i)
    (ho : s'.produced = s.produced + o) : job.DecompressLedger v' s' := by
  refine ⟨?_,?_,?_⟩
  · rw [hv.processed,h.processed,hi,UInt64.ofNat_add]
  · rw [hv.outputBytes,h.outputBytes,ho,UInt64.ofNat_add]
  · rw [hv.progress]
    exact h.total

theorem readFileHeader_moves (result : CompressionResult) :
    job.Moves Failed (readFileHeader job.ctx result) fun p i o => p.2 = UInt64.ofNat i ∧ o = 0 := by
  refine (readOrReturn_moves result kEscEncodedHeaderSize 0).bind fun p i o hp => ?_
  obtain ⟨hcount,rfl⟩ := hp
  rw [UInt64.zero_add] at hcount
  have hrefuse (c : Prop) [Decidable c] (e : CompressionError) (he : e ≠ .ok) :
      job.Moves Failed (Proc.returnIf c { result with error := e }) Stays := Moves.returnIf fun _ => he
  exact (check_moves _ _).stays fun _ => (hrefuse _ .unsupportedVersion (by simp)).stays fun _ =>
    (hrefuse _ .unsupportedAlgorithm (by simp)).stays fun _ =>
    (hrefuse _ .corruptData (by simp)).stays fun _ => Moves.pure ⟨hcount,rfl⟩

theorem readPayload_moves (v : DecompressVars) (storedSize : ℕ) :
    job.Moves Failed (readPayload job.ctx v storedSize) (Adds v) := by
  have hmemory (c : Prop) [Decidable c] : job.Moves Failed
      (Proc.returnIf c { v.result with error := .noMemory }) Stays := Moves.returnIf fun _ => by simp [Failed]
  refine (onBuffer_moves _ _).stays fun resized => (hmemory _).stays fun _ => ?_
  refine Moves.ite (fun _ => ?_) fun _ => Moves.pure ⟨by simp,by simp,rfl⟩
  refine (readOrReturn_moves v.result storedSize _).bind fun p i o hp => ?_
  obtain ⟨hcount,rfl⟩ := hp
  exact Moves.pure ⟨hcount,by simp,rfl⟩

theorem writeBlock_moves (v : DecompressVars) (blockHeader : EscBlockHeader) :
    job.Moves Failed (writeBlock job.ctx v blockHeader) (Adds v) := by
  have hcorrupt (c : Prop) [Decidable c] : job.Moves Failed
      (Proc.returnIf c { v.result with error := .corruptData }) Stays :=
    Moves.returnIf fun _ => by simp [Failed]
  refine Moves.ite (fun _ => ?_) fun _ => ?_
  · refine (hcorrupt _).stays fun _ => (hcorrupt _).stays fun _ => ?_
    refine (writeOrReturn_moves _ _).bind fun _ i o h => ?_
    obtain ⟨rfl,rfl⟩ := h
    exact Moves.pure ⟨by simp,by simp,rfl⟩
  · refine (callWith_moves _ (decompressLzLiteBlock_safe _ _)).stays fun decoded => ?_
    refine (check_moves _ _).stays fun _ => (hcorrupt _).stays fun _ => ?_
    refine (writeOrReturn_moves _ _).bind fun _ i o h => ?_
    obtain ⟨rfl,rfl⟩ := h
    exact Moves.pure ⟨by simp,by simp,rfl⟩

theorem decompressRound_ends (header : EscHeader) {v : DecompressVars} {s : job.State}
    (hs : job.Live s) (hv : job.DecompressLedger v s) :
    Proc.wp (decompressRound job.ctx header v) (job.RoundEnds job.DecompressLedger)
      (fun r s' => Failed r ∧ Informed d.length s'.trace) (fun s' => Informed d.length s'.trace) s := by
  refine (shouldAbortForCancel_moves _).stays_wp hs fun _ s₁ h₁ hc₁ hp₁ => ?_
  refine (readOrReturn_moves _ _ _).bind_wp h₁ fun headerBytes s₂ i o hread h₂ hc₂ hp₂ => ?_
  obtain ⟨hcount,rfl⟩ := hread
  have hadds : Adds v { v with processedCompressedInput := headerBytes.2 } i 0 := ⟨hcount,by simp,rfl⟩
  have hv₂ : job.DecompressLedger { v with processedCompressedInput := headerBytes.2 } s₂ :=
    hv.adds hadds (by rw [hc₂,hc₁]) (by rw [hp₂,hp₁])
  refine (check_moves _ _).stays_wp h₂ fun _ s₃ h₃ hc₃ hp₃ => ?_
  rw [Proc.wp_bind,Proc.wp_returnIf]
  refine ⟨fun _ => ⟨by simp [Failed],h₃.informed⟩,fun _ => ?_⟩
  refine (readPayload_moves _ _).bind_wp h₃ fun v₄ s₄ i o hadds h₄ hc₄ hp₄ => ?_
  have hv₄ : job.DecompressLedger v₄ s₄ := hv₂.adds hadds (by rw [hc₄,hc₃]) (by rw [hp₄,hp₃])
  refine (writeBlock_moves _ _).bind_wp h₄ fun v₅ s₅ i o hadds h₅ hc₅ hp₅ => ?_
  have hv₅ : job.DecompressLedger v₅ s₅ := hv₄.adds hadds hc₅ hp₅
  have hcounted : Counted s₅ { v₅.progress with
      processedInputBytes := v₅.processedCompressedInput
      producedOutputBytes := v₅.result.outputBytes } := ⟨hv₅.processed,hv₅.outputBytes,hv₅.total⟩
  rw [Proc.wp_bind]
  refine h₅.emits hcounted _ fun report s₆ _ _ hknown hsize h₆ hc₆ hp₆ => ?_
  have htotal : report.hasKnownTotalInput = true → report.totalInputBytes.toNat = d.length := by
    rw [hknown,hsize]
    exact hv₅.total
  have hledger (w : DecompressVars) (hprocessed : w.processedCompressedInput = v₅.processedCompressedInput)
      (houtput : w.result.outputBytes = v₅.result.outputBytes) (hreport : w.progress = report) :
      job.DecompressLedger w s₆ := by
    refine ⟨?_,?_,?_⟩
    · rw [hprocessed,hv₅.processed,hc₆]
    · rw [houtput,hv₅.outputBytes,hp₆]
    · rw [hreport]
      exact htotal
  rw [Proc.wp_pure]
  split_ifs
  · exact ⟨h₆,hledger _ rfl rfl rfl⟩
  · exact ⟨h₆,hledger _ rfl rfl rfl⟩

/-- The last report of a decompression counts the bytes written. -/
def CountsWritten (bytes : List UInt8) (n : UInt64) : Prop := n = UInt64.ofNat bytes.length

theorem decompressSession_closing {result : CompressionResult}
    (hresult : result = makeResult job.ctx.operation .ok) (n : ℕ) {s : job.State} (hs : job.Live s)
    (hconsumed : s.consumed = 0) (hproduced : s.produced = 0) :
    Proc.wp (decompressSession job.ctx result n) (job.Closing CountsWritten)
      (fun r s' => Failed r ∧ Informed d.length s'.trace) (fun s' => Informed d.length s'.trace) s := by
  refine (readFileHeader_moves result).bind_wp hs fun opened s₁ i o hread h₁ hc₁ hp₁ => ?_
  obtain ⟨hcount,rfl⟩ := hread
  refine startProgress_moves.bind_wp h₁ fun progress s₂ i' o hprogress h₂ hc₂ hp₂ => ?_
  obtain ⟨⟨rfl,rfl⟩,htotal⟩ := hprogress
  have hledger (v : DecompressVars) (hprocessed : v.processedCompressedInput = opened.2)
      (houtput : v.result.outputBytes = 0)
      (hv : v.progress.hasKnownTotalInput = true → v.progress.totalInputBytes.toNat = d.length) :
      job.DecompressLedger v s₂ := by
    refine ⟨?_,?_,hv⟩
    · rw [hprocessed,hcount,hc₂,hc₁,hconsumed,Nat.zero_add,Nat.add_zero]
    · rw [houtput,hp₂,hp₁,hproduced]
      rfl
  rw [Proc.wp_bind]
  refine Proc.wp_mono (Live.loop (fun _ _ => decompressRound_ends opened.1) n h₂ (hledger _ rfl ?_ htotal))
    (fun v s₃ h => ?_) (fun _ _ h => h) fun _ h => h
  · rw [hresult]
    rfl
  obtain ⟨h₃,hv⟩ := h
  rw [Proc.wp_bind,Proc.wp_returnIf]
  refine ⟨fun _ => ⟨by simp [Failed],h₃.informed⟩,fun _ => ?_⟩
  refine (shouldAbortForCancel_moves v.result).stays_wp h₃ fun _ s₄ h₄ hc₄ hp₄ => ?_
  refine h₄.commits v.result fun s₅ hcommit hcommitted hsink htrace => ?_
  have hprocessed : v.processedCompressedInput = UInt64.ofNat s₄.consumed := by
    rw [hv.processed,hc₄]
  have houtput : CountsWritten (written s₄.trace) v.result.outputBytes := by
    rw [CountsWritten,hv.outputBytes]
    exact congrArg UInt64.ofNat hp₄.symm
  exact h₄.finishes hcommitted htrace
    (p := { v.progress with
      processedInputBytes := v.processedCompressedInput, producedOutputBytes := v.result.outputBytes })
    (r := { v.result with error := .ok, inputBytes := v.processedCompressedInput }) rfl hprocessed
    hv.total houtput

end HonestRun
end Compressor
end EspCompressor
