import EspCompressor.Blocks
import EspCompressor.MemoryBuffer

/-! `MemoryBuffer` objects over the blocks of an allocator: which object owns which block, whatever is
constructed, moved, grown and destroyed, and that each object is the buffer that the other modules use. -/
namespace EspCompressor
namespace BufferOwnership

open Blocks (Changes Owned)

/-- The kind of a request is whether it may be served from PSRAM. -/
abbrev Memory := Blocks.Memory Bool UInt8

/-- The members of the class. -/
structure Object where
  data : Option ℕ := none
  size : ℕ := 0
  capacity : ℕ := 0
  usePSRAMBuffers : Bool := true

/-- The heap behind `MemoryBuffer` that answers the next request so. -/
def answering (sizeBits : Option ℕ) (answer : Option (ℕ → UInt8)) : Heap := ⟨sizeBits,fun _ => answer,0⟩

/-! ### The member functions; `none` is undefined behaviour -/

section Members

variable (sizeBits : Option ℕ)

/-- The end of `grow`. -/
def grown (newCapacity : ℕ) (b : Object) (r : Option ℕ × Memory) : Bool × Object × Memory :=
  match r.1 with
  | none => (false,b,r.2)
  | some memory => (true,{ b with data := some memory, capacity := newCapacity },r.2)

/-- The loop of `grow`. -/
def newCapacity (required : ℕ) (b : Object) : ℕ :=
  MemoryBuffer.newCapacity (answering sizeBits none) required required (if b.capacity = 0 then 64 else b.capacity)

def grow (required : ℕ) (b : Object) (m : Memory) : Option (Bool × Object × Memory) :=
  let n := newCapacity sizeBits required b
  match b.data with
  | none => some (grown n b (m.allocate n b.usePSRAMBuffers))
  | some p => (m.reallocate p n b.usePSRAMBuffers).map (grown n b)

def reserve (capacity : ℕ) (b : Object) (m : Memory) : Option (Bool × Object × Memory) :=
  if capacity ≤ b.capacity then some (true,b,m) else grow sizeBits capacity b m

def resize (size : ℕ) (b : Object) (m : Memory) : Option (Bool × Object × Memory) :=
  if b.capacity < size then
    match grow sizeBits size b m with
    | some (true,b',m') => some (true,{ b' with size := size },m')
    | r => r
  else some (true,{ b with size := size },m)

/-- What the `data` of an `append` points to. -/
inductive Bytes
  | null
  | outside (bytes : List UInt8)
  | inside (p offset : ℕ)

def Bytes.isNull : Bytes → Bool
  | .null => true
  | _ => false

/-- What `memcpy` reads. -/
def Bytes.load (size : ℕ) (m : Memory) : Bytes → Option (List UInt8)
  | .null => none
  | .outside bytes => if size ≤ bytes.length then some (bytes.take size) else none
  | .inside p offset => m.load p offset size

def append (data : Bytes) (size : ℕ) (b : Object) (m : Memory) : Option (Bool × Object × Memory) :=
  if size = 0 then some (true,b,m)
  else if data.isNull = true then some (false,b,m)
  else if (answering sizeBits none).overflows b.size size = true then some (false,b,m)
  else match resize sizeBits (b.size + size) b m with
    | some (true,b',m') => do
      let bytes ← data.load size m'
      let p ← b'.data
      let m'' ← m'.store p (b'.size - size) bytes
      some (true,b',m'')
    | r => r

def appendByte (value : UInt8) (b : Object) (m : Memory) : Option (Bool × Object × Memory) :=
  append sizeBits (.outside [value]) 1 b m

end Members

/-- `data` has been taken from the object. -/
def Object.emptied (b : Object) : Object := { b with data := none, size := 0, capacity := 0 }

def release (b : Object) (m : Memory) : Option (Bool × Object × Memory) :=
  match b.data with
  | none => some (true,b.emptied,m)
  | some p => (m.deallocate p).map fun m' => (true,b.emptied,m')

def clear (b : Object) (m : Memory) : Option (Bool × Object × Memory) := some (true,{ b with size := 0 },m)

/-- The user stores bytes through `data()`. -/
def write (offset : ℕ) (bytes : List UInt8) (b : Object) (m : Memory) : Option (Bool × Object × Memory) :=
  if bytes.length = 0 then some (true,b,m)
  else do
    let p ← b.data
    let m' ← m.store p offset bytes
    some (true,b,m')

/-! ### Programs over many objects -/

structure State where
  memory : Memory
  objects : ℕ → Option Object

/-- What a program does with its objects; `appendFrom i j` is given a pointer into the bytes of `j`. -/
inductive Op
  | construct (i : ℕ) (usePSRAMBuffers : Bool)
  | moveConstruct (i other : ℕ)
  | moveAssign (i other : ℕ)
  | destroy (i : ℕ)
  | setUsePSRAMBuffers (i : ℕ) (enabled : Bool)
  | reserve (i capacity : ℕ)
  | resize (i size : ℕ)
  | append (i : ℕ) (bytes : List UInt8)
  | appendNull (i size : ℕ)
  | appendFrom (i other offset size : ℕ)
  | appendByte (i : ℕ) (value : UInt8)
  | clear (i : ℕ)
  | release (i : ℕ)
  | write (i offset : ℕ) (bytes : List UInt8)

/-- A member function is called on the object `i`. -/
def onObject (i : ℕ) (f : Object → Memory → Option (Bool × Object × Memory)) (s : State) : Option (Bool × State) := do
  let b ← s.objects i
  let (ok,b',m') ← f b s.memory
  some (ok,⟨m',Function.update s.objects i (some b')⟩)

def moveConstruct (i other : ℕ) (s : State) : Option (Bool × State) := do
  let b ← s.objects other
  some (true,{ s with objects := Function.update (Function.update s.objects i (some b)) other (some b.emptied) })

def moveAssign (i other : ℕ) (s : State) : Option (Bool × State) :=
  if i = other then some (true,s)
  else do
    let (_,released) ← onObject i release s
    moveConstruct i other released

/-- `append(other.data() + offset, size)` -/
def appendFrom (sizeBits : Option ℕ) (i other offset size : ℕ) (s : State) : Option (Bool × State) := do
  let b ← s.objects other
  let data := match b.data with
    | none => .null
    | some p => .inside p offset
  onObject i (append sizeBits data size) s

def destroy (i : ℕ) (s : State) : Option (Bool × State) := do
  let (ok,released) ← onObject i release s
  some (ok,{ released with objects := Function.update released.objects i none })

def step (sizeBits : Option ℕ) : Op → State → Option (Bool × State)
  | .construct i usePSRAMBuffers, s =>
    some (true,{ s with objects := Function.update s.objects i (some { usePSRAMBuffers }) })
  | .moveConstruct i other, s => moveConstruct i other s
  | .moveAssign i other, s => moveAssign i other s
  | .destroy i, s => destroy i s
  | .setUsePSRAMBuffers i enabled, s =>
    onObject i (fun b m => some (true,{ b with usePSRAMBuffers := enabled },m)) s
  | .reserve i capacity, s => onObject i (reserve sizeBits capacity) s
  | .resize i size, s => onObject i (resize sizeBits size) s
  | .append i bytes, s => onObject i (append sizeBits (.outside bytes) bytes.length) s
  | .appendNull i size, s => onObject i (append sizeBits .null size) s
  | .appendFrom i other offset size, s => appendFrom sizeBits i other offset size s
  | .appendByte i value, s => onObject i (appendByte sizeBits value) s
  | .clear i, s => onObject i clear s
  | .release i, s => onObject i release s
  | .write i offset bytes, s => onObject i (write offset bytes) s

def steps (sizeBits : Option ℕ) : List Op → State → Option (List Bool × State)
  | [], s => some ([],s)
  | op :: ops, s => do
    let (ok,s') ← step sizeBits op s
    let (oks,s'') ← steps sizeBits ops s'
    some (ok :: oks,s'')

/-! ### Each object is a buffer -/

/-- The object is that buffer, and the block behind `data` holds its bytes. -/
structure Represents (b : Object) (m : Memory) (v : MemoryBuffer) : Prop where
  null : b.data = none → v.data = []
  block : ∀ p, b.data = some p → m.blocks p = some v.data
  size : b.size = v.size
  capacity : b.capacity = v.data.length

section Represents

variable {sizeBits : Option ℕ} {b : Object} {m : Memory} {v : MemoryBuffer}

theorem Represents.live (h : Represents b m v) (p : ℕ) (hp : b.data = some p) : (m.blocks p).isSome := by
  rw [h.block p hp]
  rfl

theorem Represents.frame (h : Represents b m v) {m' : Memory} (hm : ∀ p, b.data = some p → m'.blocks p = m.blocks p) :
    Represents b m' v :=
  ⟨h.null,fun p hp => (hm p hp).trans (h.block p hp),h.size,h.capacity⟩

theorem represents_new (usePSRAMBuffers : Bool) (m : Memory) : Represents { usePSRAMBuffers } m .new :=
  ⟨fun _ => rfl,nofun,rfl,rfl⟩

theorem represents_emptied (b : Object) (m : Memory) : Represents b.emptied m .new := ⟨fun _ => rfl,nofun,rfl,rfl⟩

/-- A member function on the object does what it does on the buffer, for some answer of the heap. -/
def Performs (sizeBits : Option ℕ) (b : Object) (m : Memory) (v : MemoryBuffer)
    (r : Option (Bool × Object × Memory)) (f : BufferState → Bool × BufferState) : Prop :=
  ∃ answer b' m', let r' := f ⟨v,answering sizeBits answer⟩
    r = some (r'.1,b',m') ∧ Represents b' m' r'.2.buffer ∧ Changes b.data b'.data m m'

theorem newCapacity_answering (answer : Option (ℕ → UInt8)) (required n c : ℕ) :
    MemoryBuffer.newCapacity (answering sizeBits none) required n c =
      MemoryBuffer.newCapacity (answering sizeBits answer) required n c := by
  induction n generalizing c with
  | zero => rfl
  | succ n ih =>
    unfold MemoryBuffer.newCapacity
    rw [ih]
    rfl

theorem Represents.newCapacity_eq (h : Represents b m v) (answer : Option (ℕ → UInt8)) (required : ℕ) :
    newCapacity sizeBits required b = MemoryBuffer.grownCapacity ⟨v,answering sizeBits answer⟩ required := by
  unfold newCapacity
  rw [h.capacity]
  exact newCapacity_answering answer required required _

theorem Performs.refused (h : Represents b m v) {m' : Memory} (hm : m'.blocks = m.blocks) (required : ℕ) :
    Performs sizeBits b m v (some (false,b,m')) (MemoryBuffer.grow required) :=
  ⟨none,b,m',rfl,h.frame fun p _ => congrFun hm p,.of_blocks hm h.live⟩

theorem Performs.granted (h : Represents b m v) {m' : Memory} {a required : ℕ} {fresh : ℕ → UInt8}
    (hchanges : Changes b.data (some a) m m')
    (hblock : m'.blocks a = some (Blocks.resized v.data (newCapacity sizeBits required b) fresh)) :
    Performs sizeBits b m v (some (true,{ b with data := some a, capacity := newCapacity sizeBits required b },m'))
      (MemoryBuffer.grow required) := by
  rw [h.newCapacity_eq (some fresh)] at hblock
  refine ⟨some fresh,_,m',rfl,⟨nofun,fun p hp => ?_,h.size,?_⟩,hchanges⟩
  · obtain rfl := Option.some.inj hp
    exact hblock
  · rw [h.newCapacity_eq (some fresh)]
    exact (MemoryBuffer.reallocated_length _ _ _).symm

theorem grow_performs (h : Represents b m v) (required : ℕ) :
    Performs sizeBits b m v (grow sizeBits required b m) (MemoryBuffer.grow required) := by
  unfold grow
  dsimp only
  cases hdata : b.data with
  | none =>
    rcases hallocate : m.allocate (newCapacity sizeBits required b) b.usePSRAMBuffers with ⟨_ | a,m'⟩
    · exact .refused h (Blocks.Memory.allocate_refused hallocate) required
    · obtain ⟨hchanges,fresh,hblock⟩ := Changes.allocate hallocate
      rw [← h.null hdata] at hblock
      exact .granted h (hdata ▸ hchanges) hblock
  | some p =>
    dsimp only
    obtain ⟨q,m',hrun,⟨rfl,hsame⟩ | ⟨a,rfl,hchanges,fresh,hblock⟩⟩ :=
      @Blocks.Memory.reallocate_cases _ _ p (newCapacity sizeBits required b) b.usePSRAMBuffers m _ (h.block p hdata)
    · rw [hrun]
      exact .refused h hsame required
    · rw [hrun]
      exact .granted h (hdata ▸ hchanges) hblock

theorem Performs.unchanged (h : Represents b m v) {f : BufferState → Bool × BufferState}
    (hf : ∀ heap, f ⟨v,heap⟩ = (true,⟨v,heap⟩)) : Performs sizeBits b m v (some (true,b,m)) f := by
  refine ⟨none,b,m,?_⟩
  rw [hf]
  exact ⟨rfl,h,.of_blocks rfl h.live⟩

theorem reserve_performs (h : Represents b m v) (capacity : ℕ) :
    Performs sizeBits b m v (reserve sizeBits capacity b m) (MemoryBuffer.reserve capacity) := by
  unfold reserve
  by_cases hle : capacity ≤ b.capacity
  · rw [if_pos hle]
    refine .unchanged h fun heap => if_pos ?_
    rw [MemoryBuffer.capacity,← h.capacity]
    exact hle
  · rw [if_neg hle]
    obtain ⟨answer,b',m',hrun,hrest⟩ := @grow_performs sizeBits _ _ _ h capacity
    have hgrow : MemoryBuffer.reserve capacity ⟨v,answering sizeBits answer⟩ =
        MemoryBuffer.grow capacity ⟨v,answering sizeBits answer⟩ := by
      refine if_neg ?_
      rw [MemoryBuffer.capacity,← h.capacity]
      exact hle
    refine ⟨answer,b',m',?_⟩
    rw [hgrow]
    exact ⟨hrun,hrest⟩

theorem resize_performs (h : Represents b m v) (size : ℕ) :
    Performs sizeBits b m v (resize sizeBits size b m) (MemoryBuffer.resize size) := by
  unfold resize
  by_cases hlt : b.capacity < size
  · rw [if_pos hlt]
    obtain ⟨answer,b',m',hrun,hrepresents,hchanges⟩ := @grow_performs sizeBits _ _ _ h size
    have hnot : ¬size ≤ v.data.length := by
      rw [← h.capacity]
      exact not_le.mpr hlt
    refine ⟨answer,?_⟩
    unfold MemoryBuffer.resize
    rw [dif_neg hnot]
    split
    · rename_i s' hgrow
      rw [hgrow] at hrun hrepresents
      rw [hrun]
      exact ⟨b',m',rfl,hrepresents,hchanges⟩
    · rename_i s' hgrow
      rw [hgrow] at hrun hrepresents
      rw [hrun]
      exact ⟨_,m',rfl,⟨hrepresents.null,hrepresents.block,rfl,hrepresents.capacity⟩,hchanges⟩
  · rw [if_neg hlt]
    have hfits : size ≤ v.data.length := by
      rw [← h.capacity]
      exact not_lt.mp hlt
    refine ⟨none,{ b with size := size },m,?_⟩
    rw [MemoryBuffer.resize,dif_pos hfits]
    exact ⟨rfl,⟨h.null,h.block,rfl,h.capacity⟩,.of_blocks rfl h.live⟩

/-- `memcpy` into the bytes of the object. -/
theorem Represents.store (h : Represents b m v) {offset : ℕ} {bytes : List UInt8} (hne : bytes.length ≠ 0)
    (hfits : offset + bytes.length ≤ v.size) : ∃ p m', b.data = some p ∧ m.store p offset bytes = some m' ∧
      Represents b m' (v.store offset bytes) ∧ Changes b.data b.data m m' := by
  have hsize := v.size_le
  cases hdata : b.data with
  | none =>
    have hlength := congrArg List.length (h.null hdata)
    rw [List.length_nil] at hlength
    omega
  | some p =>
    obtain ⟨m',hrun,hchanges,hblock⟩ := Changes.store (h.block p hdata) (hfits.trans hsize)
    refine ⟨p,m',rfl,hrun,⟨fun hnull => ?_,fun q hq => ?_,h.size,?_⟩,hchanges⟩
    · rw [hdata] at hnull
      cases hnull
    · rw [hdata] at hq
      obtain rfl := Option.some.inj hq
      exact hblock
    · rw [h.capacity]
      change _ = (MemoryBuffer.overwrite v.data offset bytes).length
      simp only [MemoryBuffer.overwrite,List.length_append,List.length_take,List.length_drop]
      omega

theorem write_performs (h : Represents b m v) {offset : ℕ} {bytes : List UInt8} (hfits : offset + bytes.length ≤ v.size) :
    Performs sizeBits b m v (write offset bytes b m) fun s =>
      (true,⟨if bytes.length = 0 then s.buffer else s.buffer.store offset bytes,s.heap⟩) := by
  unfold write
  by_cases hempty : bytes.length = 0
  · rw [if_pos hempty]
    exact .unchanged h fun heap => by rw [if_pos hempty]
  · rw [if_neg hempty]
    obtain ⟨p,m',hdata,hrun,hrepresents,hchanges⟩ := h.store hempty hfits
    rw [hdata]
    refine ⟨none,b,m',?_⟩
    dsimp only
    rw [if_neg hempty]
    refine ⟨?_,hrepresents,hchanges⟩
    change (m.store p offset bytes).bind _ = _
    rw [hrun]
    rfl

/-- Appending, when the bytes can still be read after the buffer has grown. -/
theorem append_performs (h : Represents b m v) {data : Bytes} {bytes : List UInt8} (hdata : data.isNull = false)
    (hload : (answering sizeBits none).overflows b.size bytes.length = false → ∀ b' m',
      resize sizeBits (b.size + bytes.length) b m = some (true,b',m') → data.load bytes.length m' = some bytes) :
    Performs sizeBits b m v (append sizeBits data bytes.length b m) (MemoryBuffer.append bytes) := by
  unfold append
  by_cases hempty : bytes.length = 0
  · rw [if_pos hempty]
    exact .unchanged h fun heap => if_pos hempty
  rw [if_neg hempty,if_neg (by simp [hdata])]
  have hsame (answer : Option (ℕ → UInt8)) : (answering sizeBits answer).overflows v.size bytes.length =
      (answering sizeBits none).overflows b.size bytes.length := by
    rw [h.size]
    rfl
  by_cases hover : (answering sizeBits none).overflows b.size bytes.length = true
  · rw [if_pos hover]
    refine ⟨none,b,m,?_⟩
    rw [MemoryBuffer.append,if_neg hempty,if_pos ((hsame none).trans hover)]
    exact ⟨rfl,h,.of_blocks rfl h.live⟩
  rw [if_neg hover]
  obtain ⟨answer,b',m',hrun,hrepresents,hchanges⟩ := @resize_performs sizeBits _ _ _ h (b.size + bytes.length)
  have hsize := (MemoryBuffer.resize_spec (b.size + bytes.length) ⟨v,answering sizeBits answer⟩).2.1
  refine ⟨answer,?_⟩
  rw [MemoryBuffer.append,if_neg hempty,if_neg (by rw [hsame]; exact hover),← h.size]
  generalize MemoryBuffer.resize (b.size + bytes.length) ⟨v,answering sizeBits answer⟩ = r at hrun hrepresents hsize ⊢
  obtain ⟨_ | _,s'⟩ := r
  · rw [hrun]
    exact ⟨b',m',rfl,hrepresents,hchanges⟩
  · have hfits : b'.size - bytes.length + bytes.length ≤ s'.buffer.size := by
      have hnew : s'.buffer.size = b.size + bytes.length := (hsize rfl).1
      rw [hrepresents.size]
      change s'.buffer.size - bytes.length + bytes.length ≤ s'.buffer.size
      omega
    obtain ⟨p,m'',hp,hstore,hrepresents',hchanges'⟩ := hrepresents.store hempty hfits
    have hloaded := hload (by simpa using hover) b' m' hrun
    refine ⟨b',m'',?_,?_,hchanges.trans hchanges'⟩
    · rw [hrun]
      dsimp only
      rw [hloaded,hp]
      change (m'.store p (b'.size - bytes.length) bytes).bind _ = _
      rw [hstore]
      rfl
    · rw [hrepresents.size] at hrepresents'
      exact hrepresents'

theorem appendNull_performs (h : Represents b m v) (size : ℕ) :
    Performs sizeBits b m v (append sizeBits .null size b m) fun s => (decide (size = 0),s) := by
  unfold append
  refine ⟨none,b,m,?_,h,.of_blocks rfl h.live⟩
  by_cases hempty : size = 0
  · rw [if_pos hempty,decide_eq_true hempty]
  · rw [if_neg hempty,if_pos (show Bytes.null.isNull = true from rfl),decide_eq_false hempty]

theorem appendOutside_performs (h : Represents b m v) (bytes : List UInt8) :
    Performs sizeBits b m v (append sizeBits (.outside bytes) bytes.length b m) (MemoryBuffer.append bytes) :=
  append_performs h rfl fun _ _ _ _ => by simp [Bytes.load]

theorem clear_performs (h : Represents b m v) :
    Performs sizeBits b m v (clear b m) fun s => (true,⟨s.buffer.clear,s.heap⟩) :=
  ⟨none,_,m,rfl,⟨h.null,h.block,rfl,h.capacity⟩,.of_blocks rfl h.live⟩

theorem release_run (h : Represents b m v) :
    ∃ m', release b m = some (true,b.emptied,m') ∧ Changes b.data none m m' := by
  unfold release
  cases hdata : b.data with
  | none => exact ⟨m,rfl,.of_blocks rfl nofun⟩
  | some p =>
    obtain ⟨m',hrun,hchanges⟩ := Changes.deallocate (h.live p hdata)
    refine ⟨m',?_,hchanges⟩
    dsimp only
    rw [hrun]
    rfl

theorem release_performs (h : Represents b m v) :
    Performs sizeBits b m v (release b m) fun s => (true,⟨s.buffer.release,s.heap⟩) := by
  obtain ⟨m',hrun,hchanges⟩ := release_run h
  exact ⟨none,b.emptied,m',hrun,represents_emptied b m',hchanges⟩

end Represents

/-! ### The same programs over buffers -/

abbrev Buffers := ℕ → Option MemoryBuffer

def onBuffer (heap : Heap) (i : ℕ) (f : BufferState → Bool × BufferState) (vs : Buffers) : Option (Bool × Buffers) := do
  let v ← vs i
  some ((f ⟨v,heap⟩).1,Function.update vs i (some (f ⟨v,heap⟩).2.buffer))

def moveBuffer (i other : ℕ) (vs : Buffers) : Option (Bool × Buffers) := do
  let v ← vs other
  some (true,Function.update (Function.update vs i (some v)) other (some .new))

def Op.onBuffers (heap : Heap) : Op → Buffers → Option (Bool × Buffers)
  | .construct i _, vs => some (true,Function.update vs i (some .new))
  | .moveConstruct i other, vs => moveBuffer i other vs
  | .moveAssign i other, vs => if i = other then some (true,vs) else moveBuffer i other vs
  | .destroy i, vs => some (true,Function.update vs i none)
  | .setUsePSRAMBuffers _ _, vs => some (true,vs)
  | .reserve i capacity, vs => onBuffer heap i (MemoryBuffer.reserve capacity) vs
  | .resize i size, vs => onBuffer heap i (MemoryBuffer.resize size) vs
  | .append i bytes, vs => onBuffer heap i (MemoryBuffer.append bytes) vs
  | .appendNull i size, vs => onBuffer heap i (fun s => (decide (size = 0),s)) vs
  | .appendFrom i other offset size, vs => do
    let v ← vs other
    onBuffer heap i (MemoryBuffer.append ((v.contents.drop offset).take size)) vs
  | .appendByte i value, vs => onBuffer heap i (MemoryBuffer.appendByte value) vs
  | .clear i, vs => onBuffer heap i (fun s => (true,⟨s.buffer.clear,s.heap⟩)) vs
  | .release i, vs => onBuffer heap i (fun s => (true,⟨s.buffer.release,s.heap⟩)) vs
  | .write i offset bytes, vs => onBuffer heap i (fun s =>
      (true,⟨if bytes.length = 0 then s.buffer else s.buffer.store offset bytes,s.heap⟩)) vs

/-- A program over buffers, for some answers of the heap. -/
inductive BufferRun (sizeBits : Option ℕ) : List Op → Buffers → List Bool → Buffers → Prop
  | nil (vs : Buffers) : BufferRun sizeBits [] vs [] vs
  | cons {op : Op} {ops : List Op} {ok : Bool} {oks : List Bool} {vs vs' vs'' : Buffers} {answer : Option (ℕ → UInt8)} :
      op.onBuffers (answering sizeBits answer) vs = some (ok,vs') → BufferRun sizeBits ops vs' oks vs'' →
      BufferRun sizeBits (op :: ops) vs (ok :: oks) vs''

/-! ### Ownership over whole programs -/

/-- The block that an object holds. -/
def State.owner (s : State) (i : ℕ) : Option ℕ := (s.objects i).bind Object.data

/-- The objects own their blocks, and are those buffers. -/
structure Holds (s : State) (vs : Buffers) : Prop where
  owned : Owned s.owner s.memory
  objects : ∀ i, Option.Rel (fun b v => Represents b s.memory v) (s.objects i) (vs i)

section Holds

variable {sizeBits : Option ℕ} {s : State} {vs : Buffers} {i : ℕ} {b : Object}

theorem Holds.buffer (h : Holds s vs) (hb : s.objects i = some b) : ∃ v, vs i = some v ∧ Represents b s.memory v := by
  have hrel := h.objects i
  rw [hb] at hrel
  cases hv : vs i with
  | none =>
    rw [hv] at hrel
    cases hrel
  | some v =>
    rw [hv] at hrel
    cases hrel with
    | some hrepresents => exact ⟨v,rfl,hrepresents⟩

theorem owner_update (m : Memory) (objects : ℕ → Option Object) (i : ℕ) (b : Option Object) :
    (State.mk m (Function.update objects i b)).owner =
      Function.update (State.mk m objects).owner i (b.bind Object.data) := by
  funext j
  by_cases hj : j = i
  · subst hj
    simp [State.owner]
  · simp [State.owner,hj]

/-- Objects and buffers that change at the same place. -/
theorem rel_update {m : Memory} {objects : ℕ → Option Object} {vs : Buffers} {b : Option Object}
    {v : Option MemoryBuffer} (h : ∀ j, j ≠ i → Option.Rel (fun b v => Represents b m v) (objects j) (vs j))
    (hi : Option.Rel (fun b v => Represents b m v) b v) (j : ℕ) :
    Option.Rel (fun b v => Represents b m v) (Function.update objects i b j) (Function.update vs i v j) := by
  by_cases hj : j = i
  · subst hj
    rw [Function.update_self,Function.update_self]
    exact hi
  · rw [Function.update_of_ne hj,Function.update_of_ne hj]
    exact h j hj

/-- A call changes one object; the others are still the buffers that they were. -/
theorem Holds.frame (h : Holds s vs) {q : Option ℕ} {m' : Memory} (hchanges : Changes (s.owner i) q s.memory m') {j : ℕ}
    (hj : j ≠ i) : Option.Rel (fun b v => Represents b m' v) (s.objects j) (vs j) := by
  have hrel := h.objects j
  cases hb : s.objects j with
  | none =>
    rw [hb] at hrel
    cases hv : vs j with
    | none => exact .none
    | some v =>
      rw [hv] at hrel
      cases hrel
  | some b =>
    obtain ⟨v,hv,hrepresents⟩ := h.buffer hb
    rw [hv]
    refine .some (hrepresents.frame fun p hp => ?_)
    have howner : s.owner j = some p := by
      rw [State.owner,hb]
      exact hp
    exact h.owned.frame hchanges hj howner

/-- A member function is called on an object. -/
theorem Holds.called (h : Holds s vs) {b' : Object} {m' : Memory} {v' : MemoryBuffer} {ok : Bool}
    {f : Object → Memory → Option (Bool × Object × Memory)} (hb : s.objects i = some b)
    (hrun : f b s.memory = some (ok,b',m')) (hrepresents : Represents b' m' v')
    (hchanges : Changes b.data b'.data s.memory m') :
    onObject i f s = some (ok,⟨m',Function.update s.objects i (some b')⟩) ∧
      Holds ⟨m',Function.update s.objects i (some b')⟩ (Function.update vs i (some v')) := by
  have howner : s.owner i = b.data := by
    rw [State.owner,hb]
    rfl
  rw [← howner] at hchanges
  refine ⟨?_,?_,rel_update (fun j hj => h.frame hchanges hj) (.some hrepresents)⟩
  · unfold onObject
    rw [hb]
    change (f b s.memory).bind _ = _
    rw [hrun]
    rfl
  · rw [owner_update]
    exact h.owned.change hchanges

/-- An object takes the block of another one. -/
theorem Holds.move (h : Holds s vs) (hnone : s.owner i = none) {other : ℕ} (hne : other ≠ i)
    (hb : s.objects other = some b) : ∃ s' vs', moveConstruct i other s = some (true,s') ∧
      moveBuffer i other vs = some (true,vs') ∧ Holds s' vs' := by
  obtain ⟨v,hv,hrepresents⟩ := h.buffer hb
  have howner : s.owner other = b.data := by
    rw [State.owner,hb]
    rfl
  refine ⟨_,_,by rw [moveConstruct,hb]; rfl,by rw [moveBuffer,hv]; rfl,?_,?_⟩
  · rw [owner_update,owner_update]
    change Owned (Function.update (Function.update s.owner i b.data) other none) s.memory
    rw [← howner]
    exact h.owned.give hnone hne
  · exact rel_update (fun j _ => rel_update (fun k _ => h.objects k) (.some hrepresents) j)
      (.some (represents_emptied b s.memory))

end Holds

/-- What C++ asks of the caller: objects are constructed once and used while they exist, and pointers are into the
bytes of an object. -/
def Op.Legal (s : State) : Op → Prop
  | .construct i _ => s.objects i = none
  | .moveConstruct i other => s.objects i = none ∧ (s.objects other).isSome
  | .moveAssign i other => (s.objects i).isSome ∧ (s.objects other).isSome
  | .destroy i => (s.objects i).isSome
  | .setUsePSRAMBuffers i _ => (s.objects i).isSome
  | .reserve i _ => (s.objects i).isSome
  | .resize i _ => (s.objects i).isSome
  | .append i _ => (s.objects i).isSome
  | .appendNull i _ => (s.objects i).isSome
  | .appendFrom i other offset size =>
    (s.objects i).isSome ∧ ∃ b, s.objects other = some b ∧ offset + size ≤ b.size
  | .appendByte i _ => (s.objects i).isSome
  | .clear i => (s.objects i).isSome
  | .release i => (s.objects i).isSome
  | .write i offset bytes => ∃ b, s.objects i = some b ∧ offset + bytes.length ≤ b.size

/-- An object is given its own bytes, and growing for them moves its block. -/
def Op.Dangles (sizeBits : Option ℕ) (s : State) : Op → Prop
  | .appendFrom i other _ size => i = other ∧ size ≠ 0 ∧ ∃ b b' m', s.objects i = some b ∧
      (answering sizeBits none).overflows b.size size = false ∧
      BufferOwnership.resize sizeBits (b.size + size) b s.memory = some (true,b',m') ∧ b'.data ≠ b.data
  | _ => False

/-- The same operation is carried out on the objects and on the buffers. -/
def StepsTogether (sizeBits : Option ℕ) (op : Op) (s : State) (vs : Buffers) : Prop :=
  ∃ answer ok s' vs', step sizeBits op s = some (ok,s') ∧ op.onBuffers (answering sizeBits answer) vs = some (ok,vs') ∧
    Holds s' vs'

section Step

variable {sizeBits : Option ℕ} {s : State} {vs : Buffers} {i : ℕ}

/-- A call of a member function on an object that exists. -/
theorem Holds.call (h : Holds s vs) (hi : (s.objects i).isSome) {op : Op}
    {f : Object → Memory → Option (Bool × Object × Memory)} {g : BufferState → Bool × BufferState}
    (hstep : step sizeBits op s = onObject i f s) (hbuffers : ∀ heap, op.onBuffers heap vs = onBuffer heap i g vs)
    (hf : ∀ b v, s.objects i = some b → Represents b s.memory v → Performs sizeBits b s.memory v (f b s.memory) g) :
    StepsTogether sizeBits op s vs := by
  obtain ⟨b,hb⟩ := Option.isSome_iff_exists.mp hi
  obtain ⟨v,hv,hrepresents⟩ := h.buffer hb
  obtain ⟨answer,b',m',hrun,hrepresents',hchanges⟩ := hf b v hb hrepresents
  obtain ⟨hcall,hholds⟩ := h.called hb hrun hrepresents' hchanges
  refine ⟨answer,_,_,_,hstep.trans hcall,?_,hholds⟩
  rw [hbuffers,onBuffer,hv]
  rfl

/-- An object gives up its block. -/
theorem Holds.released (h : Holds s vs) (hi : (s.objects i).isSome) : ∃ (b : Object) (m' : Memory),
    onObject i release s = some (true,⟨m',Function.update s.objects i (some b.emptied)⟩) ∧
      Holds ⟨m',Function.update s.objects i (some b.emptied)⟩ (Function.update vs i (some .new)) := by
  obtain ⟨b,hb⟩ := Option.isSome_iff_exists.mp hi
  obtain ⟨v,_,hrepresents⟩ := h.buffer hb
  obtain ⟨m',hrun,hchanges⟩ := release_run hrepresents
  exact ⟨b,m',h.called hb hrun (represents_emptied b m') hchanges⟩

/-- An object without a block may be replaced. -/
theorem Holds.replace (h : Holds s vs) (hnone : s.owner i = none) {b : Option Object} {v : Option MemoryBuffer}
    (hb : b.bind Object.data = none) (hrel : Option.Rel (fun b v => Represents b s.memory v) b v) :
    Holds ⟨s.memory,Function.update s.objects i b⟩ (Function.update vs i v) := by
  refine ⟨?_,rel_update (fun j _ => h.objects j) hrel⟩
  rw [owner_update,hb,← hnone]
  change Owned (Function.update s.owner i (s.owner i)) s.memory
  rw [Function.update_eq_self]
  exact h.owned

theorem construct_together (h : Holds s vs) (hi : s.objects i = none) (usePSRAMBuffers : Bool) :
    StepsTogether sizeBits (.construct i usePSRAMBuffers) s vs := by
  have hnone : s.owner i = none := by
    rw [State.owner,hi]
    rfl
  exact ⟨none,true,_,_,rfl,rfl,h.replace hnone rfl (.some (represents_new usePSRAMBuffers s.memory))⟩

theorem moveConstruct_together (h : Holds s vs) (hi : s.objects i = none) {other : ℕ} (hother : (s.objects other).isSome) :
    StepsTogether sizeBits (.moveConstruct i other) s vs := by
  obtain ⟨b,hb⟩ := Option.isSome_iff_exists.mp hother
  have hnone : s.owner i = none := by
    rw [State.owner,hi]
    rfl
  have hne : other ≠ i := fun heq => by
    rw [heq,hi] at hb
    cases hb
  obtain ⟨s',vs',hrun,hbuffers,hholds⟩ := h.move hnone hne hb
  exact ⟨none,true,s',vs',hrun,hbuffers,hholds⟩

theorem moveAssign_together (h : Holds s vs) (hi : (s.objects i).isSome) {other : ℕ} (hother : (s.objects other).isSome) :
    StepsTogether sizeBits (.moveAssign i other) s vs := by
  by_cases hsame : i = other
  · exact ⟨none,true,s,vs,if_pos hsame,if_pos hsame,h⟩
  · obtain ⟨b,m',hrelease,hreleased⟩ := h.released hi
    obtain ⟨b',hb'⟩ := Option.isSome_iff_exists.mp hother
    have hnone : (State.mk m' (Function.update s.objects i (some b.emptied))).owner i = none := by
      simp [State.owner,Object.emptied]
    have hother' : (Function.update s.objects i (some b.emptied)) other = some b' := by
      rw [Function.update_of_ne (Ne.symm hsame),hb']
    obtain ⟨s',vs',hrun,hbuffers,hholds⟩ := hreleased.move hnone (Ne.symm hsame) hother'
    refine ⟨none,true,s',vs',?_,?_,hholds⟩
    · change moveAssign i other s = _
      rw [moveAssign,if_neg hsame,hrelease]
      exact hrun
    · change (if i = other then _ else _) = _
      rw [if_neg hsame,← hbuffers,moveBuffer,moveBuffer,Function.update_of_ne (Ne.symm hsame)]
      simp only [Function.update_idem]

theorem destroy_together (h : Holds s vs) (hi : (s.objects i).isSome) : StepsTogether sizeBits (.destroy i) s vs := by
  obtain ⟨b,m',hrelease,hreleased⟩ := h.released hi
  have hnone : (State.mk m' (Function.update s.objects i (some b.emptied))).owner i = none := by
    simp [State.owner,Object.emptied]
  have hgone := hreleased.replace (b := none) (v := none) hnone rfl .none
  simp only [Function.update_idem] at hgone
  refine ⟨none,true,_,_,?_,rfl,hgone⟩
  change destroy i s = _
  rw [destroy,hrelease]
  change some (true,State.mk m' (Function.update (Function.update s.objects i (some b.emptied)) i none)) = _
  rw [Function.update_idem]

theorem setUsePSRAMBuffers_together (h : Holds s vs) (hi : (s.objects i).isSome) (enabled : Bool) :
    StepsTogether sizeBits (.setUsePSRAMBuffers i enabled) s vs := by
  obtain ⟨b,hb⟩ := Option.isSome_iff_exists.mp hi
  obtain ⟨v,hv,hrepresents⟩ := h.buffer hb
  have henabled : Represents { b with usePSRAMBuffers := enabled } s.memory v :=
    ⟨hrepresents.null,hrepresents.block,hrepresents.size,hrepresents.capacity⟩
  obtain ⟨hcall,hholds⟩ := h.called (f := fun b m => some (true,{ b with usePSRAMBuffers := enabled },m)) hb rfl
    henabled (.of_blocks rfl hrepresents.live)
  rw [← hv,Function.update_eq_self] at hholds
  exact ⟨none,true,_,vs,hcall,rfl,hholds⟩

/-- Bytes of an object, read from its block while that has not moved. -/
theorem load_contents {m : Memory} {v v' : MemoryBuffer} {p offset size : ℕ} (h : m.blocks p = some v'.data) (hkept : v'.data.take v.size = v.contents)
    (hle : v.size ≤ v'.data.length) (hfits : offset + size ≤ v.size) : m.load p offset size = some ((v.contents.drop offset).take size) := by
  unfold Blocks.Memory.load
  rw [h]
  dsimp only
  rw [if_pos (hfits.trans hle),← hkept,List.drop_take,List.take_take,min_eq_left (by omega)]

/-- The bytes that an object is given can still be read when it has grown for them. -/
theorem load_appended (h : Holds s vs) {other offset size p : ℕ} {b bi b' : Object} {v : MemoryBuffer} {m' : Memory}
    (hother : s.objects other = some b) (hv : vs other = some v) (hp : b.data = some p) (hfits : offset + size ≤ v.size)
    (hi : s.objects i = some bi) (hrun : resize sizeBits (bi.size + size) bi s.memory = some (true,b',m'))
    (hstays : i = other → b'.data = bi.data) : m'.load p offset size = some ((v.contents.drop offset).take size) := by
  obtain ⟨vi,hvi,hrepresents⟩ := h.buffer hi
  obtain ⟨answer,b'',m'',hrun',hresized,hchanges⟩ := @resize_performs sizeBits _ _ _ hrepresents (bi.size + size)
  have hspec := (MemoryBuffer.resize_spec (bi.size + size) ⟨vi,answering sizeBits answer⟩).2.1
  generalize MemoryBuffer.resize (bi.size + size) ⟨vi,answering sizeBits answer⟩ = r at hrun' hresized hspec
  rw [hrun] at hrun'
  simp only [Option.some.injEq,Prod.mk.injEq] at hrun'
  obtain ⟨hok,rfl,rfl⟩ := hrun'
  obtain ⟨hsize,hkept⟩ := hspec hok.symm
  by_cases hsame : i = other
  · subst hsame
    obtain rfl : vi = v := Option.some.inj (hvi.symm.trans hv)
    obtain rfl : bi = b := Option.some.inj (hi.symm.trans hother)
    have hgrown : vi.size ≤ r.2.buffer.size := by
      rw [hsize,hrepresents.size]
      exact Nat.le_add_right _ _
    refine load_contents (hresized.block p ((hstays rfl).trans hp)) ?_ (hgrown.trans r.2.buffer.size_le) hfits
    have htake := hkept vi.size le_rfl (by rw [hrepresents.size]; exact Nat.le_add_right _ _)
    rw [MemoryBuffer.contents,List.take_take,min_eq_left hgrown] at htake
    rw [htake,← MemoryBuffer.contents_length vi,List.take_length]
  · obtain ⟨_,hv',hrepresents'⟩ := h.buffer hother
    obtain rfl := Option.some.inj (hv.symm.trans hv')
    have howner : s.owner other = some p := by
      rw [State.owner,hother]
      exact hp
    have howneri : s.owner i = bi.data := by
      rw [State.owner,hi]
      rfl
    rw [← howneri] at hchanges
    have hblock := h.owned.frame hchanges (Ne.symm hsame) howner
    exact load_contents (hblock.trans (hrepresents'.block p hp)) rfl v.size_le hfits

/-- An object is given bytes of another one. -/
theorem appendFrom_together (h : Holds s vs) (hi : (s.objects i).isSome) {other offset size : ℕ} {b : Object}
    (hother : s.objects other = some b) (hfits : offset + size ≤ b.size)
    (hdangles : ¬(Op.appendFrom i other offset size).Dangles sizeBits s) :
    StepsTogether sizeBits (.appendFrom i other offset size) s vs := by
  obtain ⟨v,hv,hrepresents⟩ := h.buffer hother
  rw [hrepresents.size] at hfits
  have hlength : ((v.contents.drop offset).take size).length = size := by
    simp only [List.length_take,List.length_drop,MemoryBuffer.contents_length]
    omega
  refine h.call hi (f := append sizeBits (match b.data with | none => .null | some p => .inside p offset) size)
    (g := MemoryBuffer.append ((v.contents.drop offset).take size)) ?_ ?_ fun bi vi hbi hrepresentsi => ?_
  · change appendFrom sizeBits i other offset size s = _
    rw [appendFrom,hother]
    rfl
  · intro heap
    change (vs other).bind _ = _
    rw [hv]
    rfl
  · by_cases hempty : size = 0
    · subst hempty
      unfold append
      rw [if_pos rfl]
      exact .unchanged hrepresentsi fun heap => if_pos hlength
    · cases hp : b.data with
      | none =>
        have hnone := congrArg List.length (hrepresents.null hp)
        have hsize := v.size_le
        rw [List.length_nil] at hnone
        omega
      | some p =>
        have hperforms := @append_performs sizeBits bi s.memory vi hrepresentsi (.inside p offset)
          ((v.contents.drop offset).take size) rfl fun hfree b' m' hrun => by
            rw [hlength] at hfree hrun ⊢
            refine load_appended h hother hv hp hfits hbi hrun fun hsame => ?_
            by_contra hmoves
            exact hdangles ⟨hsame,hempty,bi,b',m',hbi,hfree,hrun,hmoves⟩
        rw [hlength] at hperforms
        exact hperforms

/-- Every legal operation that does not leave a pointer dangling is defined, and keeps what the objects hold. -/
theorem step_together (h : Holds s vs) {op : Op} (hlegal : op.Legal s) (hdangles : ¬op.Dangles sizeBits s) :
    StepsTogether sizeBits op s vs := by
  cases op with
  | construct i usePSRAMBuffers => exact construct_together h hlegal usePSRAMBuffers
  | moveConstruct i other => exact moveConstruct_together h hlegal.1 hlegal.2
  | moveAssign i other => exact moveAssign_together h hlegal.1 hlegal.2
  | destroy i => exact destroy_together h hlegal
  | setUsePSRAMBuffers i enabled => exact setUsePSRAMBuffers_together h hlegal enabled
  | reserve i capacity => exact h.call hlegal rfl (fun _ => rfl) fun _ _ _ hv => reserve_performs hv capacity
  | resize i size => exact h.call hlegal rfl (fun _ => rfl) fun _ _ _ hv => resize_performs hv size
  | append i bytes => exact h.call hlegal rfl (fun _ => rfl) fun _ _ _ hv => appendOutside_performs hv bytes
  | appendNull i size => exact h.call hlegal rfl (fun _ => rfl) fun _ _ _ hv => appendNull_performs hv size
  | appendFrom i other offset size =>
    obtain ⟨hi,b,hb,hfits⟩ := hlegal
    exact appendFrom_together h hi hb hfits hdangles
  | appendByte i value => exact h.call hlegal rfl (fun _ => rfl) fun _ _ _ hv => appendOutside_performs hv [value]
  | clear i => exact h.call hlegal rfl (fun _ => rfl) fun _ _ _ hv => clear_performs hv
  | release i => exact h.call hlegal rfl (fun _ => rfl) fun _ _ _ hv => release_performs hv
  | write i offset bytes =>
    obtain ⟨b,hb,hfits⟩ := hlegal
    refine h.call (Option.isSome_iff_exists.mpr ⟨b,hb⟩) rfl (fun _ => rfl) fun b' v hb' hv => write_performs hv ?_
    obtain rfl : b = b' := Option.some.inj (hb.symm.trans hb')
    rw [← hv.size]
    exact hfits

/-- The bytes behind a dangling pointer cannot be read. -/
theorem step_undefined (h : Holds s vs) {op : Op} (hlegal : op.Legal s) (hdangles : op.Dangles sizeBits s) :
    step sizeBits op s = none := by
  cases op with
  | appendFrom i other offset size =>
    obtain ⟨rfl,hne,b,b',m',hb,hfree,hrun,hmoves⟩ := hdangles
    obtain ⟨_,b₀,hb₀,hfits⟩ := hlegal
    obtain rfl : b = b₀ := Option.some.inj (hb.symm.trans hb₀)
    obtain ⟨v,_,hrepresents⟩ := h.buffer hb
    obtain ⟨answer,b'',m'',hrun',_,hchanges⟩ := @resize_performs sizeBits _ _ _ hrepresents (b.size + size)
    rw [hrun] at hrun'
    simp only [Option.some.injEq,Prod.mk.injEq] at hrun'
    obtain ⟨_,rfl,rfl⟩ := hrun'
    cases hp : b.data with
    | none =>
      have hnone := congrArg List.length (hrepresents.null hp)
      have hsize := v.size_le
      rw [hrepresents.size] at hfits
      rw [List.length_nil] at hnone
      omega
    | some p =>
      have hfreed : m'.load p offset size = none := by
        rw [hp] at hchanges hmoves
        rw [Blocks.Memory.load,hchanges.freed p rfl hmoves]
      have happend : append sizeBits (.inside p offset) size b s.memory = none := by
        rw [append,if_neg hne,if_neg (by simp [Bytes.isNull]),if_neg (by simp [hfree]),hrun]
        change (m'.load p offset size).bind _ = none
        rw [hfreed]
        rfl
      change appendFrom sizeBits i i offset size s = none
      rw [appendFrom,hb]
      change onObject i (append sizeBits (match b.data with | none => .null | some p => .inside p offset) size) s = none
      rw [hp,onObject,hb]
      change (append sizeBits (.inside p offset) size b s.memory).bind _ = none
      rw [happend]
      rfl
  | _ => exact hdangles.elim

end Step

/-! ### Whole programs -/

/-- Every operation is legal where it is carried out. -/
def LegalRun (sizeBits : Option ℕ) : List Op → State → Prop
  | [], _ => True
  | op :: ops, s => op.Legal s ∧ ∀ ok s', step sizeBits op s = some (ok,s') → LegalRun sizeBits ops s'

/-- At some point an object is given its own bytes while its block moves. -/
inductive DanglingRun (sizeBits : Option ℕ) : List Op → State → Prop
  | here {op : Op} {ops : List Op} {s : State} : op.Dangles sizeBits s → DanglingRun sizeBits (op :: ops) s
  | later {op : Op} {ops : List Op} {s s' : State} {ok : Bool} : step sizeBits op s = some (ok,s') →
      DanglingRun sizeBits ops s' → DanglingRun sizeBits (op :: ops) s

/-- No block is lost, shared or used after it was freed, and the objects are the buffers of the same program. -/
structure Safe (sizeBits : Option ℕ) (ops : List Op) (vs : Buffers) (oks : List Bool) (s : State) : Prop where
  owned : Owned s.owner s.memory
  freed : (∀ i, s.objects i = none) → ∀ p, s.memory.blocks p = none
  refines : ∃ vs', BufferRun sizeBits ops vs oks vs' ∧ ∀ i b, s.objects i = some b →
    ∃ v, vs' i = some v ∧ b.size = v.size ∧ b.capacity = v.capacity ∧
      ∀ p, b.data = some p → s.memory.load p 0 b.size = some v.contents

theorem Holds.safe {sizeBits : Option ℕ} {ops : List Op} {vs vs' : Buffers} {oks : List Bool} {s : State}
    (h : Holds s vs') (hrun : BufferRun sizeBits ops vs oks vs') : Safe sizeBits ops vs oks s where
  owned := h.owned
  freed hnone p := h.owned.none_live (fun i => by rw [State.owner,hnone i]; rfl) p
  refines := by
    refine ⟨vs',hrun,fun i b hb => ?_⟩
    obtain ⟨v,hv,hrepresents⟩ := h.buffer hb
    refine ⟨v,hv,hrepresents.size,hrepresents.capacity,fun p hp => ?_⟩
    have hload : s.memory.load p 0 v.size = some ((v.contents.drop 0).take v.size) :=
      load_contents (hrepresents.block p hp) rfl v.size_le (by omega)
    rw [hrepresents.size,hload,List.drop_zero,← MemoryBuffer.contents_length v,List.take_length]

theorem steps_spec {sizeBits : Option ℕ} (ops : List Op) {s : State} {vs : Buffers} (h : Holds s vs)
    (hlegal : LegalRun sizeBits ops s) : (steps sizeBits ops s = none ↔ DanglingRun sizeBits ops s) ∧
      ∀ oks s', steps sizeBits ops s = some (oks,s') → Safe sizeBits ops vs oks s' := by
  induction ops generalizing s vs with
  | nil =>
    refine ⟨⟨nofun,nofun⟩,fun oks s' hrun => ?_⟩
    obtain ⟨rfl,rfl⟩ : [] = oks ∧ s = s' := by simpa [steps] using hrun
    exact h.safe (.nil vs)
  | cons op ops ih =>
    by_cases hdangles : op.Dangles sizeBits s
    · have hnone : steps sizeBits (op :: ops) s = none := by
        rw [steps,step_undefined h hlegal.1 hdangles]
        rfl
      exact ⟨⟨fun _ => .here hdangles,fun _ => hnone⟩,fun oks s' hrun => by simp [hnone] at hrun⟩
    · obtain ⟨answer,ok,s₁,vs₁,hstep,hbuffers,hholds⟩ := step_together h hlegal.1 hdangles
      obtain ⟨hiff,hsafe⟩ := ih hholds (hlegal.2 ok s₁ hstep)
      have hrest : steps sizeBits (op :: ops) s = (steps sizeBits ops s₁).bind fun r => some (ok :: r.1,r.2) := by
        rw [steps,hstep]
        rfl
      refine ⟨?_,fun oks s' hrun => ?_⟩
      · rw [hrest,Option.bind_eq_none_iff]
        refine ⟨fun hnone => .later hstep (hiff.mp ?_),fun hrun => ?_⟩
        · exact Option.eq_none_iff_forall_ne_some.mpr fun r hr => by simpa using hnone r hr
        · cases hrun with
          | here hnow => exact absurd hnow hdangles
          | later hstep' hlater =>
            rw [hstep] at hstep'
            simp only [Option.some.injEq,Prod.mk.injEq] at hstep'
            obtain ⟨rfl,rfl⟩ := hstep'
            simp [hiff.mpr hlater]
      · rw [hrest] at hrun
        obtain ⟨⟨oks',s''⟩,hrun',hresult⟩ := Option.bind_eq_some_iff.mp hrun
        simp only [Option.some.injEq,Prod.mk.injEq] at hresult
        obtain ⟨rfl,rfl⟩ := hresult
        obtain ⟨howned,hfreed,vs',hbufferRun,hrepresents⟩ := hsafe oks' s'' hrun'
        exact ⟨howned,hfreed,vs',.cons hbuffers hbufferRun,hrepresents⟩

/-- Before any object. -/
def start (grants : ℕ → Bool → Option (ℕ × (ℕ → UInt8))) : State := ⟨⟨fun _ => none,grants,0⟩,fun _ => none⟩

theorem start_holds (grants : ℕ → Bool → Option (ℕ × (ℕ → UInt8))) : Holds (start grants) fun _ => none :=
  ⟨Owned.empty grants,fun _ => .none⟩

/-- Whatever the allocator does, a program goes wrong in memory only by giving an object its own bytes while growing
moves its block. -/
theorem objects_are_safe (sizeBits : Option ℕ) (grants : ℕ → Bool → Option (ℕ × (ℕ → UInt8))) (ops : List Op)
    (h : LegalRun sizeBits ops (start grants)) :
    (steps sizeBits ops (start grants) = none ↔ DanglingRun sizeBits ops (start grants)) ∧
      ∀ oks s, steps sizeBits ops (start grants) = some (oks,s) → Safe sizeBits ops (fun _ => none) oks s :=
  steps_spec ops (start_holds grants) h

theorem LegalRun.cons {sizeBits : Option ℕ} {op : Op} {ops : List Op} {s s' : State} {ok : Bool} (hlegal : op.Legal s)
    (hstep : step sizeBits op s = some (ok,s')) (h : LegalRun sizeBits ops s') : LegalRun sizeBits (op :: ops) s := by
  refine ⟨hlegal,fun ok' t ht => ?_⟩
  rw [hstep] at ht
  simp only [Option.some.injEq,Prod.mk.injEq] at ht
  exact ht.2 ▸ h

/-- Two objects, one of which takes the block of the other. -/
def exampleOps : List Op :=
  [.construct 0 true, .append 0 [7], .appendFrom 0 0 0 1, .moveConstruct 1 0, .destroy 0, .destroy 1]

/-- An allocator that grants every request at a new address. -/
def newAddresses (n : ℕ) (_ : Bool) : Option (ℕ × (ℕ → UInt8)) := some (n,fun _ => 0)

theorem objects_are_safe_moved : ∃ oks s, steps none exampleOps (start newAddresses) = some (oks,s) ∧
    Safe none exampleOps (fun _ => none) oks s ∧ oks = [true,true,true,true,true,true] ∧ s.memory.requests = 1 := by
  have hlegal : LegalRun none exampleOps (start newAddresses) :=
    .cons rfl rfl <| .cons rfl rfl <| .cons ⟨rfl,_,rfl,by decide⟩ rfl <| .cons ⟨rfl,rfl⟩ rfl <|
      .cons rfl rfl <| .cons rfl rfl trivial
  have hsafe := (objects_are_safe none newAddresses exampleOps hlegal).2
  exact ⟨_,_,rfl,hsafe _ _ rfl,rfl,rfl⟩

end BufferOwnership
end EspCompressor
