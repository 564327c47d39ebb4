import EspCompressor.MemoryBuffer

/-! `MemoryBuffer` with the members of the source and its arithmetic, for `size_t` of any width. It
refines the buffer over unbounded sizes, and through that a list of bytes. -/
namespace EspCompressor
namespace WordBuffer

open MemoryBuffer (reallocated overwrite newCapacity)

variable {w : ℕ}

/-- The members of the class, and the allocator. -/
structure WordState (w : ℕ) where
  data : Option (List UInt8)
  size : BitVec w
  capacity : BitVec w
  heap : Heap

/-- The loop of `grow`; `none` if it is still running after that many rounds. -/
def growLoop (required : BitVec w) : ℕ → BitVec w → Option (BitVec w)
  | 0, _ => none
  | n + 1, newCapacity =>
    if newCapacity < required then
      if (-1) / 2 < newCapacity then some required else growLoop required n (newCapacity * 2)
    else some newCapacity

def grow (required : BitVec w) (s : WordState w) : Option (Bool × WordState w) := do
  let newCapacity ← growLoop required (w + 1) (if s.capacity = 0 then 64 else s.capacity)
  match s.heap.request with
  | (none,heap) => some (false,{ s with heap := heap })
  | (some fresh,heap) =>
    some (true,⟨some (reallocated (s.data.getD []) newCapacity.toNat fresh),s.size,newCapacity,heap⟩)

def reserve (capacity : BitVec w) (s : WordState w) : Option (Bool × WordState w) :=
  if capacity ≤ s.capacity then some (true,s) else grow capacity s

def resize (size : BitVec w) (s : WordState w) : Option (Bool × WordState w) :=
  if s.capacity < size then do
    let (grown,s') ← grow size s
    if grown then some (true,{ s' with size := size }) else some (false,s')
  else some (true,{ s with size := size })

/-- `memcpy` into the block; `none` outside it. -/
def copyIn (offset : BitVec w) (bytes : List UInt8) (s : WordState w) : Option (WordState w) := do
  let block ← s.data
  if offset.toNat + bytes.length ≤ block.length then
    some { s with data := some (overwrite block offset.toNat bytes) }
  else none

/-- `data` is null or points to `size` bytes outside the buffer. -/
def append (data : Option (List UInt8)) (size : BitVec w) (s : WordState w) :
    Option (Bool × WordState w) :=
  if size = 0 then some (true,s)
  else match data with
  | none => some (false,s)
  | some bytes =>
    if s.size + size < s.size then some (false,s)
    else do
      let (resized,s') ← resize (s.size + size) s
      if resized then do
        let s'' ← copyIn (s'.size - size) bytes s'
        some (true,s'')
      else some (false,s')

def appendByte (value : UInt8) (s : WordState w) : Option (Bool × WordState w) :=
  append (some [value]) 1 s

def clear (s : WordState w) : WordState w := { s with size := 0 }

def release (s : WordState w) : WordState w := ⟨none,0,0,s.heap⟩

/-! ### The buffer over unbounded sizes -/

/-- The members hold what the buffer over unbounded sizes does. -/
structure Represents (s : WordState w) (t : BufferState) : Prop where
  data : s.data.getD [] = t.buffer.data
  size : s.size.toNat = t.buffer.size
  capacity : s.capacity.toNat = t.buffer.data.length
  heap : s.heap = t.heap
  sizeBits : t.heap.sizeBits = some w

/-- The call ends, and as the one over unbounded sizes. -/
def Simulates (r : Option (Bool × WordState w)) (q : Bool × BufferState) : Prop :=
  ∃ s, r = some (q.1,s) ∧ Represents s q.2

theorem half_toNat (hw : 1 < w) : ((-1 : BitVec w) / 2).toNat = (2 ^ w - 1) / 2 := by
  have htwo : (2 : ℕ) < 2 ^ w := by
    calc 2 = 2 ^ 1 := rfl
      _ < 2 ^ w := Nat.pow_lt_pow_right (by omega) hw
  have htwo' : (2 : BitVec w).toNat = 2 := Nat.mod_eq_of_lt htwo
  have hneg : (-1 : BitVec w) = BitVec.allOnes w := BitVec.neg_one_eq_allOnes
  rw [BitVec.toNat_udiv,hneg,BitVec.toNat_allOnes,htwo']

/-- Doubling a capacity below half the range does not wrap around. -/
theorem double_toNat (hw : 1 < w) {c : BitVec w} (h : c.toNat ≤ (2 ^ w - 1) / 2) :
    (c * 2).toNat = c.toNat * 2 := by
  have htwo : (2 : ℕ) < 2 ^ w := by
    calc 2 = 2 ^ 1 := rfl
      _ < 2 ^ w := Nat.pow_lt_pow_right (by omega) hw
  have htwo' : (2 : BitVec w).toNat = 2 := Nat.mod_eq_of_lt htwo
  rw [BitVec.toNat_mul,htwo',Nat.mod_eq_of_lt (by omega)]

/-- The loop ends, with the capacity that doubling without wrapping reaches. -/
theorem growLoop_eq {h : Heap} (hbits : h.sizeBits = some w) (hw : 1 < w) (required : BitVec w) (n : ℕ)
    {c : BitVec w} (hn : 2 ^ w ≤ c.toNat * 2 ^ n) (m : ℕ) (hm : required.toNat ≤ c.toNat + m) :
    ∃ c', growLoop required (n + 1) c = some c' ∧
      c'.toNat = newCapacity h required.toNat m c.toNat := by
  have habove (x : BitVec w) : h.aboveHalf x.toNat = decide ((-1) / 2 < x) := by
    rw [Heap.aboveHalf,hbits]
    exact decide_eq_decide.mpr (by rw [BitVec.lt_def,half_toNat hw])
  induction n generalizing c m with
  | zero =>
    have hc := c.isLt
    omega
  | succ n ih =>
    rw [growLoop]
    by_cases hlt : c < required
    · rw [if_pos hlt]
      rw [BitVec.lt_def] at hlt
      cases m with
      | zero => omega
      | succ m =>
        rw [newCapacity,if_pos hlt,habove]
        by_cases hhalf : (-1) / 2 < c
        · rw [if_pos hhalf,if_pos (decide_eq_true hhalf)]
          exact ⟨required,rfl,rfl⟩
        · rw [if_neg hhalf,if_neg (by simpa using hhalf)]
          rw [BitVec.lt_def,half_toNat hw] at hhalf
          have hdouble := double_toNat hw (not_lt.mp hhalf)
          have hpos : 0 < c.toNat := by
            by_contra hzero
            rw [Nat.eq_zero_of_not_pos hzero,Nat.zero_mul] at hn
            exact absurd hn (not_le.mpr (Nat.two_pow_pos w))
          rw [← hdouble]
          refine ih ?_ m (by omega)
          rw [hdouble,Nat.mul_assoc,← Nat.pow_succ']
          exact hn
    · rw [if_neg hlt]
      rw [BitVec.lt_def] at hlt
      refine ⟨c,rfl,?_⟩
      cases m with
      | zero => rfl
      | succ m => rw [newCapacity,if_neg hlt]

/-- From any capacity the loop ends, with one that is at least as large and suffices. -/
theorem growLoop_terminates (hw : 1 < w) (required : BitVec w) {c : BitVec w} (hc : c ≠ 0) :
    ∃ c', growLoop required (w + 1) c = some c' ∧ required ≤ c' ∧ c ≤ c' := by
  have hpos : 0 < c.toNat := by
    by_contra hzero
    exact hc (BitVec.eq_of_toNat_eq (by simpa using Nat.eq_zero_of_not_pos hzero))
  let h : Heap := ⟨some w,fun _ => none,0⟩
  obtain ⟨c',hloop,hvalue⟩ := growLoop_eq (h := h) rfl hw required w
    (Nat.le_mul_of_pos_left _ hpos) required.toNat (Nat.le_add_left _ _)
  refine ⟨c',hloop,?_,?_⟩
  · rw [BitVec.le_def,hvalue]
    exact MemoryBuffer.required_le_newCapacity h _ _ _ hpos (Nat.le_add_left _ _)
  · rw [BitVec.le_def,hvalue]
    exact MemoryBuffer.le_newCapacity h _ _ _

/-! ### Each call -/

section Calls

variable {s : WordState w} {t : BufferState} (hw : 6 < w) (h : Represents s t)

include hw

/-- The first capacity of the loop: 64, or the current one. -/
theorem startCapacity_toNat (h : Represents s t) : (if s.capacity = 0 then 64 else s.capacity).toNat =
    if t.buffer.capacity = 0 then 64 else t.buffer.capacity := by
  have hrange : 64 < 2 ^ w := by
    calc 64 = 2 ^ 6 := rfl
      _ < 2 ^ w := Nat.pow_lt_pow_right (by omega) hw
  have hzero : s.capacity = 0 ↔ t.buffer.capacity = 0 := by
    rw [MemoryBuffer.capacity,← h.capacity]
    constructor
    · intro hs
      rw [hs]
      rfl
    · intro ht
      exact BitVec.eq_of_toNat_eq (by rw [ht]; rfl)
  by_cases hs : s.capacity = 0
  · rw [if_pos hs,if_pos (hzero.mp hs)]
    exact Nat.mod_eq_of_lt hrange
  · rw [if_neg hs,if_neg (mt hzero.mpr hs)]
    exact h.capacity

include h

theorem grow_simulates (required : BitVec w) :
    Simulates (grow required s) (MemoryBuffer.grow required.toNat t) := by
  have hstart := startCapacity_toNat hw h
  have hpos : 0 < (if s.capacity = 0 then 64 else s.capacity).toNat := by
    rw [hstart]
    split_ifs <;> omega
  obtain ⟨c',hloop,hvalue⟩ := growLoop_eq h.sizeBits (by omega) required w
    (Nat.le_mul_of_pos_left _ hpos) required.toNat (Nat.le_add_left _ _)
  rw [hstart] at hvalue
  unfold grow MemoryBuffer.grow Simulates
  rw [hloop,h.heap]
  have hbits : (t.heap.request).2.sizeBits = some w := h.sizeBits
  rcases hanswer : t.heap.request with ⟨_ | fresh,heap⟩
  · rw [hanswer] at hbits
    exact ⟨_,rfl,h.data,h.size,h.capacity,rfl,hbits⟩
  · rw [hanswer] at hbits
    refine ⟨_,rfl,?_,h.size,?_,rfl,hbits⟩
    · rw [Option.getD_some,h.data,hvalue]
      rfl
    · rw [MemoryBuffer.reallocated_length,hvalue]
      rfl

theorem reserve_simulates (capacity : BitVec w) :
    Simulates (reserve capacity s) (MemoryBuffer.reserve capacity.toNat t) := by
  have hfits : capacity ≤ s.capacity ↔ capacity.toNat ≤ t.buffer.capacity := by
    rw [BitVec.le_def,h.capacity,MemoryBuffer.capacity]
  unfold reserve MemoryBuffer.reserve
  by_cases hle : capacity ≤ s.capacity
  · rw [if_pos hle,if_pos (hfits.mp hle)]
    exact ⟨s,rfl,h⟩
  · rw [if_neg hle,if_neg (mt hfits.mpr hle)]
    exact grow_simulates hw h capacity

theorem resize_simulates (size : BitVec w) :
    Simulates (resize size s) (MemoryBuffer.resize size.toNat t) := by
  have hgrows : s.capacity < size ↔ ¬size.toNat ≤ t.buffer.data.length := by
    rw [BitVec.lt_def,h.capacity,not_le]
  unfold resize MemoryBuffer.resize
  by_cases hfits : size.toNat ≤ t.buffer.data.length
  · rw [if_neg fun hlt => hgrows.mp hlt hfits,dif_pos hfits]
    exact ⟨_,rfl,h.data,rfl,h.capacity,h.heap,h.sizeBits⟩
  · rw [if_pos (hgrows.mpr hfits),dif_neg hfits]
    obtain ⟨s',hgrow,hs'⟩ := grow_simulates hw h size
    split
    · rename_i t' ht
      rw [ht] at hgrow hs'
      rw [hgrow]
      exact ⟨s',rfl,hs'⟩
    · rename_i t' ht
      rw [ht] at hgrow hs'
      rw [hgrow]
      exact ⟨_,rfl,hs'.data,rfl,hs'.capacity,hs'.heap,hs'.sizeBits⟩

omit hw in
/-- The copy of `append` is within the block. -/
theorem copyIn_represents (bytes : List UInt8) (hne : bytes.length ≠ 0) {offset : BitVec w}
    (hoffset : offset.toNat + bytes.length ≤ t.buffer.size) :
    ∃ s', copyIn offset bytes s = some s' ∧
      Represents s' ⟨t.buffer.store offset.toNat bytes,t.heap⟩ := by
  have hdata := h.data
  have hsize := t.buffer.size_le
  unfold copyIn
  cases hblock : s.data with
  | none =>
    rw [hblock,Option.getD_none] at hdata
    rw [← hdata,List.length_nil] at hsize
    omega
  | some block =>
    rw [hblock,Option.getD_some] at hdata
    rw [hdata]
    refine ⟨_,if_pos (by omega),rfl,h.size,?_,h.heap,h.sizeBits⟩
    rw [h.capacity]
    change _ = (overwrite t.buffer.data offset.toNat bytes).length
    simp only [overwrite,List.length_append,List.length_take,List.length_drop]
    omega

theorem append_simulates (bytes : List UInt8) (hbytes : bytes.length < 2 ^ w) :
    Simulates (append (some bytes) (BitVec.ofNat w bytes.length) s) (MemoryBuffer.append bytes t) := by
  have hlength : (BitVec.ofNat w bytes.length).toNat = bytes.length := by
    rw [BitVec.toNat_ofNat,Nat.mod_eq_of_lt hbytes]
  generalize BitVec.ofNat w bytes.length = length at hlength ⊢
  have hzero : length = 0 ↔ bytes.length = 0 := by
    rw [← hlength]
    constructor
    · intro hl
      rw [hl]
      rfl
    · intro hl
      exact BitVec.eq_of_toNat_eq (by rw [hl]; rfl)
  have hwraps : s.size + length < s.size ↔ t.heap.overflows t.buffer.size bytes.length = true := by
    rw [Heap.overflows_iff h.sizeBits (h.size ▸ s.size.isLt) hbytes,Heap.wrap,h.sizeBits,BitVec.lt_def,
      BitVec.toNat_add,hlength,h.size]
  unfold append MemoryBuffer.append
  by_cases hempty : bytes.length = 0
  · rw [if_pos (hzero.mpr hempty),if_pos hempty]
    exact ⟨s,rfl,h⟩
  rw [if_neg (mt hzero.mp hempty),if_neg hempty]
  dsimp only
  by_cases hover : s.size + length < s.size
  · rw [if_pos hover,if_pos (hwraps.mp hover)]
    exact ⟨s,rfl,h⟩
  rw [if_neg hover,if_neg (mt hwraps.mpr hover)]
  have hsum : (s.size + length).toNat = t.buffer.size + bytes.length := by
    have hless := mt hwraps.mpr hover
    rw [Heap.overflows,h.sizeBits] at hless
    have hless : t.buffer.size + bytes.length < 2 ^ w := by simpa using hless
    rw [BitVec.toNat_add,hlength,h.size,Nat.mod_eq_of_lt hless]
  have hresize := resize_simulates hw h (s.size + length)
  have hspec := (MemoryBuffer.resize_spec (t.buffer.size + bytes.length) t).2.1
  rw [hsum] at hresize
  obtain ⟨s',hrun,hs'⟩ := hresize
  rw [hrun]
  rcases hnext : MemoryBuffer.resize (t.buffer.size + bytes.length) t with ⟨_ | _,t'⟩
  · rw [hnext] at hs'
    exact ⟨s',rfl,hs'⟩
  · rw [hnext] at hs' hspec
    have hsize : t'.buffer.size = t.buffer.size + bytes.length := (hspec rfl).1
    have hle : length ≤ s'.size := by
      rw [BitVec.le_def,hlength,hs'.size]
      change _ ≤ t'.buffer.size
      omega
    have hoffset : (s'.size - length).toNat = t'.buffer.size - bytes.length := by
      rw [BitVec.toNat_sub_of_le hle,hlength,hs'.size]
    have hfits : (s'.size - length).toNat + bytes.length ≤ t'.buffer.size := by
      rw [hoffset]
      omega
    obtain ⟨s'',hcopy,hs''⟩ := copyIn_represents hs' bytes hempty hfits
    rw [hoffset] at hs''
    refine ⟨s'',?_,hs''⟩
    change (copyIn (s'.size - length) bytes s').bind _ = _
    rw [hcopy]
    rfl

end Calls

/-! ### Any sequence of calls -/

/-- `append` is given bytes outside the buffer, whose number is a value of `size_t`, or null. -/
inductive BufferCall (w : ℕ)
  | reserve (capacity : BitVec w)
  | resize (size : BitVec w)
  | append (bytes : List UInt8) (fits : bytes.length < 2 ^ w)
  | appendNull (size : BitVec w)
  | appendByte (value : UInt8)
  | clear
  | release

def perform : BufferCall w → WordState w → Option (Bool × WordState w)
  | .reserve capacity, s => reserve capacity s
  | .resize size, s => resize size s
  | .append bytes _, s => append (some bytes) (BitVec.ofNat w bytes.length) s
  | .appendNull size, s => append none size s
  | .appendByte value, s => appendByte value s
  | .clear, s => some (true,clear s)
  | .release, s => some (true,release s)

/-- What a call that returns true does to the list of bytes. -/
def Effect : BufferCall w → List UInt8 → List UInt8 → Prop
  | .reserve _, l, l' => l' = l
  | .resize size, l, l' => l'.length = size.toNat ∧ l.take size.toNat <+: l'
  | .append bytes _, l, l' => l' = l ++ bytes
  | .appendNull size, l, l' => size = 0 ∧ l' = l
  | .appendByte value, l, l' => l' = l ++ [value]
  | .clear, _, l' => l' = []
  | .release, _, l' => l' = []

/-- The bytes in use are the list, and lie within the block. -/
structure Holds (s : WordState w) (l : List UInt8) : Prop where
  size_le : s.size ≤ s.capacity
  block_length : (s.data.getD []).length = s.capacity.toNat
  contents : (s.data.getD []).take s.size.toNat = l

/-- A call has its effect on the list, or returns false and leaves the buffer as it was. -/
structure Conforms (c : BufferCall w) (s : WordState w) (l : List UInt8) (ok : Bool) (s' : WordState w)
    (l' : List UInt8) : Prop where
  holds : Holds s' l'
  effect : ok = true → Effect c l l'
  unchanged : ok = false → s'.data.getD [] = s.data.getD [] ∧ s'.size = s.size ∧ s'.capacity = s.capacity ∧
    l' = l
  inRange : ∀ bytes fits, c = .append bytes fits → 2 ^ w ≤ l.length + bytes.length → ok = false
  reserved : ∀ capacity, c = .reserve capacity → ok = true → capacity ≤ s'.capacity

/-- The calls end, one after the other, and each conforms. -/
inductive Refines : List (BufferCall w) → WordState w → List UInt8 → Prop
  | done {s : WordState w} {l : List UInt8} : Holds s l → Refines [] s l
  | call {c : BufferCall w} {cs : List (BufferCall w)} {s s' : WordState w} {l l' : List UInt8} {ok : Bool} :
      Holds s l → perform c s = some (ok,s') → Conforms c s l ok s' l' → Refines cs s' l' →
      Refines (c :: cs) s l

theorem Represents.holds {s : WordState w} {t : BufferState} (h : Represents s t) :
    Holds s t.buffer.contents where
  size_le := by
    rw [BitVec.le_def,h.size,h.capacity]
    exact t.buffer.size_le
  block_length := by rw [h.data,h.capacity]
  contents := by
    rw [h.data,h.size]
    rfl

/-- A buffer that has not been used. -/
def unused (answer : ℕ → Option (ℕ → UInt8)) : WordState w := ⟨none,0,0,⟨some w,answer,0⟩⟩

theorem unused_represents (answer : ℕ → Option (ℕ → UInt8)) :
    Represents (unused answer : WordState w) ⟨.new,⟨some w,answer,0⟩⟩ :=
  ⟨rfl,rfl,rfl,rfl,rfl⟩

/-- A call conforms if the one over unbounded sizes does. -/
theorem Simulates.conforms {c : BufferCall w} {s : WordState w} {t : BufferState} {q : Bool × BufferState}
    (h : Represents s t) (hsim : Simulates (perform c s) q)
    (heffect : q.1 = true → Effect c t.buffer.contents q.2.buffer.contents)
    (hsame : q.1 = false → q.2.buffer = t.buffer)
    (hreserved : ∀ capacity, c = .reserve capacity → q.1 = true → capacity.toNat ≤ q.2.buffer.data.length) :
    ∃ s', perform c s = some (q.1,s') ∧ Represents s' q.2 ∧
      Conforms c s t.buffer.contents q.1 s' q.2.buffer.contents := by
  obtain ⟨s',hrun,hs'⟩ := hsim
  refine ⟨s',hrun,hs',hs'.holds,heffect,fun hfalse => ?_,?_,?_⟩
  · have hbuffer := hsame hfalse
    refine ⟨by rw [hs'.data,hbuffer,h.data],BitVec.eq_of_toNat_eq (by rw [hs'.size,hbuffer,h.size]),
      BitVec.eq_of_toNat_eq (by rw [hs'.capacity,hbuffer,h.capacity]),by rw [hbuffer]⟩
  · rintro bytes fits rfl hover
    by_contra htrue
    have happended : q.2.buffer.contents = t.buffer.contents ++ bytes :=
      heffect (Bool.eq_true_of_not_eq_false htrue)
    have hlength := congrArg List.length happended
    rw [MemoryBuffer.contents_length,← hs'.size,List.length_append] at hlength
    have hlt := s'.size.isLt
    omega
  · intro capacity hc htrue
    rw [BitVec.le_def,hs'.capacity]
    exact hreserved capacity hc htrue

theorem reserve_spec (capacity : ℕ) (t : BufferState) :
    ((MemoryBuffer.reserve capacity t).1 = true →
      (MemoryBuffer.reserve capacity t).2.buffer.contents = t.buffer.contents ∧
        capacity ≤ (MemoryBuffer.reserve capacity t).2.buffer.data.length) ∧
    ((MemoryBuffer.reserve capacity t).1 = false →
      (MemoryBuffer.reserve capacity t).2.buffer = t.buffer) := by
  unfold MemoryBuffer.reserve
  by_cases hle : capacity ≤ t.buffer.capacity
  · rw [if_pos hle]
    exact ⟨fun _ => ⟨rfl,hle⟩,fun _ => rfl⟩
  · rw [if_neg hle]
    rcases hgrow : MemoryBuffer.grow capacity t with ⟨_ | _,t'⟩
    · exact ⟨fun htrue => absurd htrue (by simp),fun _ => (MemoryBuffer.grow_false hgrow).1⟩
    · obtain ⟨hcapacity,hkept⟩ := MemoryBuffer.grow_true hgrow
      exact ⟨fun _ => ⟨hkept,hcapacity⟩,fun hfalse => absurd hfalse (by simp)⟩

/-- Each call ends and conforms. -/
theorem perform_conforms (hw : 6 < w) {s : WordState w} {t : BufferState} (h : Represents s t)
    (c : BufferCall w) : ∃ (q : Bool × BufferState) (s' : WordState w), perform c s = some (q.1,s') ∧
      Represents s' q.2 ∧ Conforms c s t.buffer.contents q.1 s' q.2.buffer.contents := by
  have hother {q : Bool × BufferState} (hne : ∀ capacity, c ≠ .reserve capacity) :
      ∀ capacity, c = .reserve capacity → q.1 = true → capacity.toNat ≤ q.2.buffer.data.length :=
    fun capacity hc => absurd hc (hne capacity)
  cases c with
  | reserve capacity =>
    obtain ⟨hgranted,hrefused⟩ := reserve_spec capacity.toNat t
    have hreserved (capacity' : BitVec w) (hc : BufferCall.reserve capacity = .reserve capacity')
        (htrue : (MemoryBuffer.reserve capacity.toNat t).1 = true) :
        capacity'.toNat ≤ (MemoryBuffer.reserve capacity.toNat t).2.buffer.data.length := by
      obtain rfl := BufferCall.reserve.inj hc
      exact (hgranted htrue).2
    exact ⟨_,Simulates.conforms h (reserve_simulates hw h capacity) (fun htrue => (hgranted htrue).1)
      hrefused hreserved⟩
  | resize size =>
    obtain ⟨-,hgranted,hrefused⟩ := MemoryBuffer.resize_spec size.toNat t
    have heffect (htrue : (MemoryBuffer.resize size.toNat t).1 = true) : Effect (.resize size)
        t.buffer.contents (MemoryBuffer.resize size.toNat t).2.buffer.contents := by
      obtain ⟨hsize,hkept⟩ := hgranted htrue
      have hmin := hkept (min t.buffer.size size.toNat) (Nat.min_le_left _ _) (Nat.min_le_right _ _)
      have htake : t.buffer.contents.take size.toNat =
          t.buffer.contents.take (min t.buffer.size size.toNat) := by
        rw [← MemoryBuffer.contents_length t.buffer,Nat.min_comm,← List.take_take,List.take_length]
      refine ⟨by rw [MemoryBuffer.contents_length,hsize],?_⟩
      rw [htake,← hmin]
      exact List.take_prefix _ _
    exact ⟨_,Simulates.conforms h (resize_simulates hw h size) heffect (fun hfalse => (hrefused hfalse).1)
      (hother fun _ => nofun)⟩
  | append bytes fits =>
    obtain ⟨-,hgranted,hrefused,-⟩ := MemoryBuffer.append_spec bytes t
    exact ⟨_,Simulates.conforms h (append_simulates hw h bytes fits) hgranted hrefused
      (hother fun _ => nofun)⟩
  | appendNull size =>
    have hsim : Simulates (append none size s) (decide (size = 0),t) := by
      unfold append
      by_cases hzero : size = 0
      · rw [if_pos hzero,decide_eq_true hzero]
        exact ⟨s,rfl,h⟩
      · rw [if_neg hzero,decide_eq_false hzero]
        exact ⟨s,rfl,h⟩
    exact ⟨_,Simulates.conforms h hsim (fun htrue => ⟨of_decide_eq_true htrue,rfl⟩) (fun _ => rfl)
      (hother fun _ => nofun)⟩
  | appendByte value =>
    obtain ⟨-,hgranted,hrefused,-⟩ := MemoryBuffer.append_spec [value] t
    have hfits : [value].length < 2 ^ w := Nat.one_lt_two_pow (by omega)
    exact ⟨_,Simulates.conforms h (append_simulates hw h [value] hfits) hgranted hrefused
      (hother fun _ => nofun)⟩
  | clear =>
    have hsim : Simulates (some (true,clear s)) (true,⟨t.buffer.clear,t.heap⟩) :=
      ⟨_,rfl,h.data,rfl,h.capacity,h.heap,h.sizeBits⟩
    exact ⟨_,Simulates.conforms h hsim (fun _ => MemoryBuffer.contents_clear _) nofun
      (hother fun _ => nofun)⟩
  | release =>
    have hsim : Simulates (some (true,release s)) (true,⟨t.buffer.release,t.heap⟩) :=
      ⟨_,rfl,rfl,rfl,rfl,h.heap,h.sizeBits⟩
    exact ⟨_,Simulates.conforms h hsim (fun _ => rfl) nofun (hother fun _ => nofun)⟩

/-- Any sequence of calls refines the list, whatever the allocator answers. -/
theorem refines_of_represents (hw : 6 < w) (calls : List (BufferCall w)) {s : WordState w}
    {t : BufferState} (h : Represents s t) : Refines calls s t.buffer.contents := by
  induction calls generalizing s t with
  | nil => exact .done h.holds
  | cons c cs ih =>
    obtain ⟨q,s',hrun,hs',hconforms⟩ := perform_conforms hw h c
    exact .call h.holds hrun hconforms (ih hs')

/-- The buffer refines a list of bytes over every sequence of calls and every pattern of refused
allocations, and the loop of `grow` ends with a capacity of at least the requested size. -/
theorem buffer_refines_list (w : ℕ) (hw : 6 < w) :
    (∀ (answer : ℕ → Option (ℕ → UInt8)) (calls : List (BufferCall w)),
      Refines calls (unused answer) []) ∧
    ∀ required c : BitVec w, c ≠ 0 →
      ∃ c', growLoop required (w + 1) c = some c' ∧ required ≤ c' ∧ c ≤ c' :=
  ⟨fun answer calls => refines_of_represents hw calls (unused_represents answer),
    fun required _ hc => growLoop_terminates (by omega) required hc⟩

/-- On a 32-bit target. -/
theorem buffer_refines_list_target :
    (∀ (answer : ℕ → Option (ℕ → UInt8)) (calls : List (BufferCall 32)),
      Refines calls (unused answer) []) ∧
    ∀ required c : BitVec 32, c ≠ 0 →
      ∃ c', growLoop required (32 + 1) c = some c' ∧ required ≤ c' ∧ c ≤ c' :=
  buffer_refines_list 32 (by decide)

end WordBuffer
end EspCompressor
