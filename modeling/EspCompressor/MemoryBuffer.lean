import EspCompressor.Proc
import EspCompressor.Types

/-! `MemoryBuffer`, the growable byte buffer under every encoder, decoder and
in-memory sink, over a heap that may refuse any request. -/
namespace EspCompressor

/-- What `ESPBufferManager` answers. `sizeBits` is the width of `size_t` (`none`: index
arithmetic that does not wrap); the `i`-th request is refused or granted with a
block whose fresh bytes are the given ones. -/
structure Heap where
  sizeBits : Option ℕ
  answer : ℕ → Option (ℕ → UInt8)
  calls : ℕ

namespace Heap

def request (h : Heap) : Option (ℕ → UInt8) × Heap := (h.answer h.calls,{ h with calls := h.calls + 1 })

/-- Reduce a `size_t` value. -/
def wrap (h : Heap) (n : ℕ) : ℕ := match h.sizeBits with
  | none => n
  | some w => n % 2 ^ w

/-- The `size_t` sum `a + b` wraps around. -/
def overflows (h : Heap) (a b : ℕ) : Bool := match h.sizeBits with
  | none => false
  | some w => decide (2 ^ w ≤ a + b)

/-- `n > static_cast<size_t>(-1) / 2`. -/
def aboveHalf (h : Heap) (n : ℕ) : Bool := match h.sizeBits with
  | none => false
  | some w => decide ((2 ^ w - 1) / 2 < n)

/-- The same answers in store, whatever has been requested so far. -/
def SameSupply (h h' : Heap) : Prop := h'.answer = h.answer ∧ h'.sizeBits = h.sizeBits

/-- Every request is granted and `n` is a value of `size_t`. -/
structure Ample (h : Heap) (n : ℕ) : Prop where
  grants : ∀ i, (h.answer i).isSome
  fits : ∀ w, h.sizeBits = some w → n < 2 ^ w

/-- No sum of the lengths that `n` bytes, or the payload of one block, can announce leaves `size_t`. -/
def HoldsSums (h : Heap) (n : ℕ) : Prop := ∀ w, h.sizeBits = some w → 256 * min n uint32Max ≤ 2 ^ w

theorem SameSupply.refl (h : Heap) : h.SameSupply h := ⟨rfl, rfl⟩

theorem SameSupply.trans {h h' h'' : Heap} (a : h.SameSupply h') (b : h'.SameSupply h'') :
    h.SameSupply h'' := ⟨b.1.trans a.1, b.2.trans a.2⟩

theorem Ample.of_sameSupply {h h' : Heap} {n : ℕ} (a : h.Ample n) (s : h.SameSupply h') :
    h'.Ample n := ⟨fun i => s.1 ▸ a.grants i, fun w hw => a.fits w (s.2 ▸ hw)⟩

theorem Ample.mono {h : Heap} {m n : ℕ} (a : h.Ample n) (hmn : m ≤ n) : h.Ample m :=
  ⟨a.grants, fun w hw => lt_of_le_of_lt hmn (a.fits w hw)⟩

theorem HoldsSums.mono {h : Heap} {m n : ℕ} (a : h.HoldsSums n) (hmn : m ≤ n) : h.HoldsSums m := fun w hw =>
  (Nat.mul_le_mul_left 256 (min_le_min_right uint32Max hmn)).trans (a w hw)

/-- A heap that grants everything. -/
def unlimited : Heap := ⟨none,fun _ => some fun _ => 0,0⟩

/-- A heap that grants everything, for a `size_t` of `w` bits. -/
def granting (w : ℕ) : Heap := { unlimited with sizeBits := some w }

theorem granting_ample {w n : ℕ} (h : n < 2 ^ w) : (granting w).Ample n :=
  ⟨fun _ => rfl,fun _ hw => Option.some.inj hw ▸ h⟩

theorem granting_ample_uint32Max : (granting 32).Ample uint32Max := granting_ample (by decide)

theorem granting_holdsSums {w n : ℕ} (h : 256 * min n uint32Max ≤ 2 ^ w) : (granting w).HoldsSums n :=
  fun _ hw => Option.some.inj hw ▸ h

theorem unlimited_ample (n : ℕ) : unlimited.Ample n := ⟨fun _ => rfl,fun w hw => by simp [unlimited] at hw⟩

/-- The test `a + b < a` of the source detects exactly the wrap-around. -/
theorem overflows_iff {h : Heap} {w a b : ℕ} (hw : h.sizeBits = some w) (ha : a < 2 ^ w)
    (hb : b < 2 ^ w) : h.overflows a b = true ↔ h.wrap (a + b) < a := by
  simp only [overflows,wrap,hw,decide_eq_true_eq]
  constructor
  · intro hle
    rw [Nat.mod_eq_sub_mod hle,Nat.mod_eq_of_lt (by omega)]
    omega
  · intro hlt
    by_contra hge
    rw [Nat.mod_eq_of_lt (by omega)] at hlt
    omega

theorem Ample.not_overflows {h : Heap} {a b n : ℕ} (hn : h.Ample n) (hab : a + b ≤ n) :
    h.overflows a b = false := by
  unfold overflows
  cases hs : h.sizeBits with
  | none => rfl
  | some w => simpa using lt_of_le_of_lt hab (hn.fits w hs)

theorem Ample.wrap_eq {h : Heap} {m n : ℕ} (a : h.Ample n) (hmn : m ≤ n) : h.wrap m = m := by
  unfold wrap
  cases hs : h.sizeBits with
  | none => rfl
  | some w => exact Nat.mod_eq_of_lt (lt_of_le_of_lt hmn (a.fits w hs))

end Heap

/-- An allocated block and the number of bytes in use. -/
structure MemoryBuffer where
  data : List UInt8
  size : ℕ
  size_le : size ≤ data.length

/-- A buffer together with the heap that serves it. -/
structure BufferState where
  buffer : MemoryBuffer
  heap : Heap

namespace MemoryBuffer

def new : MemoryBuffer := ⟨[],0,by simp⟩

def capacity (b : MemoryBuffer) : ℕ := b.data.length

/-- The bytes in use. -/
def contents (b : MemoryBuffer) : List UInt8 := b.data.take b.size

def clear (b : MemoryBuffer) : MemoryBuffer := ⟨b.data,0,by simp⟩

def release (_ : MemoryBuffer) : MemoryBuffer := new

@[simp] theorem contents_length (b : MemoryBuffer) : b.contents.length = b.size := by
  simp [contents,b.size_le]
@[simp] theorem contents_new : new.contents = [] := rfl
@[simp] theorem contents_clear (b : MemoryBuffer) : b.clear.contents = [] := by
  simp [contents,clear]
@[simp] theorem size_clear (b : MemoryBuffer) : b.clear.size = 0 := rfl

/-- The doubling loop of `grow`, for at most the given number of rounds. -/
def newCapacity (h : Heap) (required : ℕ) : ℕ → ℕ → ℕ
  | 0, c => c
  | n + 1, c =>
    if c < required then
      if h.aboveHalf c then required else newCapacity h required n (c * 2)
    else c

theorem le_newCapacity (h : Heap) (required n c : ℕ) : c ≤ newCapacity h required n c := by
  induction n generalizing c with
  | zero => exact le_refl c
  | succ n ih =>
    unfold newCapacity
    split_ifs with hlt habove
    · exact hlt.le
    · exact le_trans (by omega) (ih (c * 2))
    · exact le_refl c

/-- Doubling a positive capacity reaches any size within that many rounds. -/
theorem required_le_newCapacity (h : Heap) (required n c : ℕ) (hc : 0 < c)
    (hn : required ≤ c + n) : required ≤ newCapacity h required n c := by
  induction n generalizing c with
  | zero => simpa [newCapacity] using hn
  | succ n ih =>
    unfold newCapacity
    split_ifs with hlt habove
    · exact le_refl required
    · exact ih (c * 2) (by omega) (by omega)
    · omega

/-- Reallocation keeps the old bytes and leaves the new ones as they come. -/
def reallocated (old : List UInt8) (bytes : ℕ) (fresh : ℕ → UInt8) : List UInt8 :=
  (List.range bytes).map fun i => old.getD i (fresh i)

@[simp] theorem reallocated_length (old : List UInt8) (bytes : ℕ) (fresh : ℕ → UInt8) :
    (reallocated old bytes fresh).length = bytes := by simp [reallocated]

theorem reallocated_take (old : List UInt8) (bytes n : ℕ) (fresh : ℕ → UInt8)
    (hn : n ≤ old.length) (hb : n ≤ bytes) : (reallocated old bytes fresh).take n = old.take n := by
  apply List.ext_getElem
  · simp [hn,hb]
  · intro i h₁ h₂
    have hi : i < old.length := by simp at h₂; omega
    simp [reallocated,hi]

/-- The capacity that `grow` asks for. -/
def grownCapacity (s : BufferState) (required : ℕ) : ℕ :=
  newCapacity s.heap required required (if s.buffer.capacity = 0 then 64 else s.buffer.capacity)

theorem capacity_le_grownCapacity (s : BufferState) (required : ℕ) :
    s.buffer.data.length ≤ grownCapacity s required := by
  refine le_trans ?_ (le_newCapacity _ _ _ _)
  change s.buffer.capacity ≤ _
  split_ifs with h
  · omega
  · exact le_refl _

theorem required_le_grownCapacity (s : BufferState) (required : ℕ) :
    required ≤ grownCapacity s required := by
  apply required_le_newCapacity
  · split_ifs <;> omega
  · omega

def grow (required : ℕ) (s : BufferState) : Bool × BufferState :=
  match s.heap.request with
  | (none,heap) => (false,⟨s.buffer,heap⟩)
  | (some fresh,heap) =>
    (true,⟨⟨reallocated s.buffer.data (grownCapacity s required) fresh,s.buffer.size,by
      rw [reallocated_length]
      exact le_trans s.buffer.size_le (capacity_le_grownCapacity s required)⟩,heap⟩)

theorem grow_sameSupply (required : ℕ) (s : BufferState) :
    s.heap.SameSupply (grow required s).2.heap := by
  unfold grow
  cases h : s.heap.answer s.heap.calls <;> simp [Heap.request,h,Heap.SameSupply]

theorem grow_true {required : ℕ} {s s' : BufferState} (h : grow required s = (true,s')) :
    required ≤ s'.buffer.data.length ∧ s'.buffer.contents = s.buffer.contents := by
  unfold grow at h
  split at h
  · simp at h
  · simp only [Prod.mk.injEq,true_and] at h
    subst h
    refine ⟨by simpa using required_le_grownCapacity s required,?_⟩
    exact reallocated_take _ _ _ _ s.buffer.size_le
      (le_trans s.buffer.size_le (capacity_le_grownCapacity s required))

theorem grow_false {required : ℕ} {s s' : BufferState} (h : grow required s = (false,s')) :
    s'.buffer = s.buffer ∧ s.heap.answer s.heap.calls = none := by
  unfold grow Heap.request at h
  cases ha : s.heap.answer s.heap.calls with
  | none => simp only [ha,Prod.mk.injEq,true_and] at h; exact ⟨by rw [← h],rfl⟩
  | some fresh => simp [ha] at h

def reserve (capacity : ℕ) (s : BufferState) : Bool × BufferState :=
  if capacity ≤ s.buffer.capacity then (true,s) else grow capacity s

def resize (size : ℕ) (s : BufferState) : Bool × BufferState :=
  if h : size ≤ s.buffer.data.length then (true,⟨⟨s.buffer.data,size,h⟩,s.heap⟩)
  else match hg : grow size s with
    | (false,s') => (false,s')
    | (true,s') => (true,⟨⟨s'.buffer.data,size,(grow_true hg).1⟩,s'.heap⟩)

/-- `memcpy` into the block. -/
def overwrite (data : List UInt8) (offset : ℕ) (bytes : List UInt8) : List UInt8 :=
  data.take offset ++ bytes ++ data.drop (offset + bytes.length)

theorem length_le_overwrite (data : List UInt8) (offset : ℕ) (bytes : List UInt8) :
    data.length ≤ (overwrite data offset bytes).length := by
  simp [overwrite]; omega

def store (offset : ℕ) (bytes : List UInt8) (b : MemoryBuffer) : MemoryBuffer :=
  ⟨overwrite b.data offset bytes,b.size,le_trans b.size_le (length_le_overwrite _ _ _)⟩

def append (bytes : List UInt8) (s : BufferState) : Bool × BufferState :=
  if bytes.length = 0 then (true,s)
  else if s.heap.overflows s.buffer.size bytes.length then (false,s)
  else match resize (s.buffer.size + bytes.length) s with
    | (false,s') => (false,s')
    | (true,s') => (true,⟨s'.buffer.store (s'.buffer.size - bytes.length) bytes,s'.heap⟩)

def appendByte (value : UInt8) (s : BufferState) : Bool × BufferState := append [value] s

/-- `resize` keeps the bytes below both sizes; what it exposes above is whatever
the block held. -/
theorem resize_spec (size : ℕ) (s : BufferState) :
    s.heap.SameSupply (resize size s).2.heap ∧
    ((resize size s).1 = true → (resize size s).2.buffer.size = size ∧
      ∀ n ≤ s.buffer.size, n ≤ size →
        (resize size s).2.buffer.contents.take n = s.buffer.contents.take n) ∧
    ((resize size s).1 = false → (resize size s).2.buffer = s.buffer ∧
      s.heap.answer s.heap.calls = none) := by
  unfold resize
  split_ifs with h
  · refine ⟨Heap.SameSupply.refl _,fun _ => ⟨rfl,?_⟩,by simp⟩
    intro n hn hs
    simp [contents,List.take_take,hn,hs]
  · have hsupply := grow_sameSupply size s
    split
    · rename_i s' hg
      rw [hg] at hsupply
      exact ⟨hsupply,by simp,fun _ => grow_false hg⟩
    · rename_i s' hg
      rw [hg] at hsupply
      refine ⟨hsupply,fun _ => ⟨rfl,?_⟩,by simp⟩
      intro n hn hs
      rw [← (grow_true hg).2]
      have hle : n ≤ s'.buffer.size := by
        rw [← contents_length s'.buffer,(grow_true hg).2]; simpa using hn
      simp [contents,List.take_take,hs,hle]

theorem overwrite_take (data : List UInt8) (offset : ℕ) (bytes : List UInt8)
    (h : offset ≤ data.length) :
    (overwrite data offset bytes).take (offset + bytes.length) = data.take offset ++ bytes := by
  have hl : (data.take offset ++ bytes).length = offset + bytes.length := by simp [h]
  rw [overwrite,← hl,List.take_left]

/-- `append` adds the bytes, or fails and leaves the buffer as it was; it fails only
for want of memory or of `size_t` range. -/
theorem append_spec (bytes : List UInt8) (s : BufferState) :
    s.heap.SameSupply (append bytes s).2.heap ∧
    ((append bytes s).1 = true →
      (append bytes s).2.buffer.contents = s.buffer.contents ++ bytes) ∧
    ((append bytes s).1 = false → (append bytes s).2.buffer = s.buffer) ∧
    (s.heap.Ample (s.buffer.size + bytes.length) → (append bytes s).1 = true) := by
  unfold append
  split_ifs with h₀ h₁
  · have hb : bytes = [] := List.length_eq_zero_iff.mp h₀
    simp [hb,Heap.SameSupply.refl]
  · refine ⟨Heap.SameSupply.refl _,by simp,by simp,fun ha => ?_⟩
    rw [ha.not_overflows (le_refl _)] at h₁
    exact absurd h₁ (by simp)
  · have hr := resize_spec (s.buffer.size + bytes.length) s
    rcases hres : resize (s.buffer.size + bytes.length) s with ⟨b,s'⟩
    rw [hres] at hr
    obtain ⟨hsupply,htrue,hfalse⟩ := hr
    cases b with
    | false =>
      refine ⟨hsupply,by simp,fun _ => (hfalse rfl).1,fun ha => ?_⟩
      have := ha.grants s.heap.calls
      rw [(hfalse rfl).2] at this
      exact absurd this (by simp)
    | true =>
      refine ⟨hsupply,fun _ => ?_,by simp,by simp⟩
      obtain ⟨hsize,hkeep⟩ := htrue rfl
      have hoff : s'.buffer.size - bytes.length = s.buffer.size := by
        change s'.buffer.size = _ at hsize
        omega
      have hle : s.buffer.size ≤ s'.buffer.data.length := by
        have := s'.buffer.size_le
        change s'.buffer.size = _ at hsize
        omega
      have hk := hkeep s.buffer.size (le_refl _) (by omega)
      have hkept : s'.buffer.data.take s.buffer.size = s.buffer.contents := by
        change s'.buffer.size = _ at hsize
        simpa [contents,List.take_take,hsize,s.buffer.size_le] using hk
      change (overwrite s'.buffer.data _ bytes).take s'.buffer.size = _
      change s'.buffer.size = _ at hsize
      rw [hoff,hsize,overwrite_take _ _ _ hle,hkept]

/-- Storing at the front. -/
theorem store_contents_take (b : MemoryBuffer) (bytes : List UInt8) (h : bytes.length ≤ b.size) :
    (b.store 0 bytes).contents.take bytes.length = bytes := by
  have hfront : (overwrite b.data 0 bytes).take bytes.length = bytes := by
    simpa using overwrite_take b.data 0 bytes (Nat.zero_le _)
  rw [contents,List.take_take]
  simpa [store,min_eq_left h] using hfront

theorem store_contents (b : MemoryBuffer) (bytes : List UInt8) (h : bytes.length = b.size) :
    (b.store 0 bytes).contents = bytes := by
  have htake := store_contents_take b bytes h.le
  rwa [List.take_of_length_le (by rw [contents_length]; exact h.ge)] at htake

end MemoryBuffer
end EspCompressor
