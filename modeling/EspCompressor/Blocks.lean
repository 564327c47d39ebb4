import Mathlib.Tactic

/-! A heap of blocks behind addresses. The calls of an allocator touch only their own block, and owners that hold
one block each, and hold every block, keep doing so. -/
namespace EspCompressor
namespace Blocks

variable {α κ ι : Type}

/-- The live blocks. A request, the `n`-th and of some kind, is refused or granted at an address, with new cells. -/
structure Memory (κ α : Type) where
  blocks : ℕ → Option (List α)
  grants : ℕ → κ → Option (ℕ × (ℕ → α))
  requests : ℕ := 0

/-- A block of another size: old cells are kept, new ones are as they come. -/
def resized (old : List α) (size : ℕ) (fresh : ℕ → α) : List α :=
  (List.range size).map fun i => old.getD i (fresh i)

/-- Cells copied into a block. -/
def overwritten (block : List α) (offset : ℕ) (cells : List α) : List α :=
  block.take offset ++ cells ++ block.drop (offset + cells.length)

namespace Memory

def asked (m : Memory κ α) : Memory κ α := { m with requests := m.requests + 1 }

def put (a : ℕ) (block : List α) (m : Memory κ α) : Memory κ α :=
  { m with blocks := Function.update m.blocks a (some block) }

def free (a : ℕ) (m : Memory κ α) : Memory κ α := { m with blocks := Function.update m.blocks a none }

@[simp] theorem asked_blocks (m : Memory κ α) : m.asked.blocks = m.blocks := rfl
@[simp] theorem put_self (a : ℕ) (block : List α) (m : Memory κ α) : (m.put a block).blocks a = some block := by
  simp [put]
@[simp] theorem free_self (a : ℕ) (m : Memory κ α) : (m.free a).blocks a = none := by simp [free]

theorem put_other {a b : ℕ} (hb : b ≠ a) (block : List α) (m : Memory κ α) :
    (m.put a block).blocks b = m.blocks b := by simp [put,hb]

theorem free_other {a b : ℕ} (hb : b ≠ a) (m : Memory κ α) : (m.free a).blocks b = m.blocks b := by simp [free,hb]

/-- A request is granted at an address that is not in use. -/
def allocate (size : ℕ) (kind : κ) (m : Memory κ α) : Option ℕ × Memory κ α :=
  match m.grants m.requests kind with
  | none => (none,m.asked)
  | some (a,fresh) =>
    if (m.blocks a).isSome then (none,m.asked) else (some a,m.asked.put a (resized [] size fresh))

/-- The block grows in place, or moves to an address that is not in use; `none` where there is no block. -/
def reallocate (p size : ℕ) (kind : κ) (m : Memory κ α) : Option (Option ℕ × Memory κ α) :=
  match m.blocks p with
  | none => none
  | some old => some <| match m.grants m.requests kind with
    | none => (none,m.asked)
    | some (a,fresh) =>
      if a = p then (some p,m.asked.put p (resized old size fresh))
      else if (m.blocks a).isSome then (none,m.asked)
      else (some a,(m.asked.free p).put a (resized old size fresh))

/-- `none` where there is no block. -/
def deallocate (p : ℕ) (m : Memory κ α) : Option (Memory κ α) :=
  if (m.blocks p).isSome then some (m.free p) else none

/-- `none` outside a block. -/
def load (p offset size : ℕ) (m : Memory κ α) : Option (List α) :=
  match m.blocks p with
  | none => none
  | some block => if offset + size ≤ block.length then some ((block.drop offset).take size) else none

/-- `none` outside a block. -/
def store (p offset : ℕ) (cells : List α) (m : Memory κ α) : Option (Memory κ α) :=
  match m.blocks p with
  | none => none
  | some block =>
    if offset + cells.length ≤ block.length then some (m.put p (overwritten block offset cells)) else none

end Memory

/-! ### What a call changes -/

/-- A call that turns the pointer `p` into `q`: the block behind `p` is freed unless it is the one behind `q`, and
the one behind `q` is live and not a block of someone else. -/
structure Changes (p q : Option ℕ) (m m' : Memory κ α) : Prop where
  others : ∀ b, p ≠ some b → q ≠ some b → m'.blocks b = m.blocks b
  live : ∀ a, q = some a → (m'.blocks a).isSome
  fresh : ∀ a, q = some a → p ≠ some a → m.blocks a = none
  freed : ∀ b, p = some b → q ≠ some b → m'.blocks b = none

theorem Changes.of_blocks {p : Option ℕ} {m m' : Memory κ α} (h : m'.blocks = m.blocks)
    (hp : ∀ a, p = some a → (m.blocks a).isSome) : Changes p p m m' where
  others b _ _ := by rw [h]
  live a ha := by
    rw [h]
    exact hp a ha
  fresh a ha hne := absurd ha hne
  freed b hb hne := absurd hb hne

theorem Changes.allocate {size a : ℕ} {kind : κ} {m m' : Memory κ α} (h : m.allocate size kind = (some a,m')) :
    Changes none (some a) m m' ∧ ∃ fresh, m'.blocks a = some (resized [] size fresh) := by
  unfold Memory.allocate at h
  split at h
  · simp at h
  · rename_i a' fresh hgrant
    split_ifs at h with hlive
    · simp at h
    · simp only [Prod.mk.injEq,Option.some.injEq] at h
      obtain ⟨rfl,rfl⟩ := h
      refine ⟨⟨fun b _ hb => ?_,fun b hb => ?_,fun b hb _ => ?_,nofun⟩,fresh,by simp⟩
      · exact Memory.put_other (fun heq => hb (by rw [heq])) _ _
      · obtain rfl := Option.some.inj hb
        simp
      · obtain rfl := Option.some.inj hb
        simpa using hlive

theorem Memory.allocate_refused {size : ℕ} {kind : κ} {m m' : Memory κ α} (h : m.allocate size kind = (none,m')) :
    m'.blocks = m.blocks := by
  unfold allocate at h
  split at h
  · simp only [Prod.mk.injEq,true_and] at h
    rw [← h,asked_blocks]
  · split_ifs at h
    · simp only [Prod.mk.injEq,true_and] at h
      rw [← h,asked_blocks]
    · simp at h

/-- What reallocating a block does. -/
theorem Memory.reallocate_cases {p size : ℕ} {kind : κ} {m : Memory κ α} {old : List α} (hold : m.blocks p = some old) :
    ∃ q m', m.reallocate p size kind = some (q,m') ∧ (q = none ∧ m'.blocks = m.blocks ∨
      ∃ a, q = some a ∧ Changes (some p) (some a) m m' ∧ ∃ fresh, m'.blocks a = some (resized old size fresh)) := by
  unfold reallocate
  rw [hold]
  cases hgrant : m.grants m.requests kind with
  | none => exact ⟨none,m.asked,rfl,.inl ⟨rfl,rfl⟩⟩
  | some grant =>
    obtain ⟨a,fresh⟩ := grant
    dsimp only
    by_cases hsame : a = p
    · rw [if_pos hsame]
      refine ⟨some p,_,rfl,.inr ⟨p,rfl,⟨fun b hb _ => ?_,fun b hb => ?_,fun b hb hne => absurd hb hne,
        fun b hb hne => absurd hb hne⟩,fresh,by simp⟩⟩
      · exact put_other (fun heq => hb (by rw [heq])) _ _
      · obtain rfl := Option.some.inj hb
        simp
    · rw [if_neg hsame]
      by_cases hlive : (m.blocks a).isSome
      · rw [if_pos hlive]
        exact ⟨none,m.asked,rfl,.inl ⟨rfl,rfl⟩⟩
      · rw [if_neg hlive]
        refine ⟨some a,_,rfl,.inr ⟨a,rfl,⟨fun b hb hq => ?_,fun b hb => ?_,fun b hb _ => ?_,fun b hb _ => ?_⟩,
          fresh,by simp⟩⟩
        · rw [put_other (fun heq => hq (by rw [heq])),free_other (fun heq => hb (by rw [heq])),asked_blocks]
        · obtain rfl := Option.some.inj hb
          simp
        · obtain rfl := Option.some.inj hb
          simpa using hlive
        · obtain rfl := Option.some.inj hb
          rw [put_other (Ne.symm hsame),free_self]

theorem Changes.deallocate {p : ℕ} {m : Memory κ α} (h : (m.blocks p).isSome) :
    ∃ m', m.deallocate p = some m' ∧ Changes (some p) none m m' := by
  refine ⟨m.free p,if_pos h,fun b hb _ => ?_,nofun,nofun,fun b hb _ => ?_⟩
  · exact Memory.free_other (fun heq => hb (by rw [heq])) m
  · obtain rfl := Option.some.inj hb
    exact Memory.free_self _ m

theorem Changes.store {p offset : ℕ} {cells block : List α} {m : Memory κ α} (hblock : m.blocks p = some block)
    (hfits : offset + cells.length ≤ block.length) :
    ∃ m', m.store p offset cells = some m' ∧ Changes (some p) (some p) m m' ∧
      m'.blocks p = some (overwritten block offset cells) := by
  unfold Memory.store
  rw [hblock]
  refine ⟨_,if_pos hfits,⟨fun b hb _ => ?_,fun a ha => ?_,fun a ha hne => absurd ha hne,
    fun b hb hne => absurd hb hne⟩,by simp⟩
  · exact Memory.put_other (fun heq => hb (by rw [heq])) _ m
  · obtain rfl := Option.some.inj ha
    simp

/-- A call on the block behind a pointer, and then another on the block behind what became of it. -/
theorem Changes.trans {p q r : Option ℕ} {m m' m'' : Memory κ α} (h : Changes p q m m') (h' : Changes q r m' m'') :
    Changes p r m m'' where
  others b hp hr := by
    by_cases hq : q = some b
    · rw [h'.freed b hq hr,h.fresh b hq hp]
    · rw [h'.others b hq hr,h.others b hp hq]
  live := h'.live
  fresh a ha hp := by
    by_cases hq : q = some a
    · exact h.fresh a hq hp
    · rw [← h.others a hp hq]
      exact h'.fresh a ha hq
  freed b hb hr := by
    by_cases hq : q = some b
    · exact h'.freed b hq hr
    · rw [h'.others b hq hr]
      exact h.freed b hb hq

/-! ### Owners -/

/-- Each owner holds at most one block, no two hold the same, and there are no others. -/
structure Owned (owner : ι → Option ℕ) (m : Memory κ α) : Prop where
  live : ∀ i a, owner i = some a → (m.blocks a).isSome
  unique : ∀ i j a, owner i = some a → owner j = some a → i = j
  covered : ∀ a, (m.blocks a).isSome → ∃ i, owner i = some a

section Owned

variable {owner : ι → Option ℕ} {m m' : Memory κ α}

theorem Owned.empty (grants : ℕ → κ → Option (ℕ × (ℕ → α))) :
    Owned (fun _ : ι => none) ⟨fun _ => none,grants,0⟩ := ⟨nofun,nofun,nofun⟩

/-- Without owners there are no blocks. -/
theorem Owned.none_live (h : Owned owner m) (hnone : ∀ i, owner i = none) (a : ℕ) : m.blocks a = none := by
  by_contra hlive
  obtain ⟨i,hi⟩ := h.covered a (Option.isSome_iff_ne_none.mpr hlive)
  rw [hnone i] at hi
  cases hi

variable {i : ι} {q : Option ℕ}

/-- The blocks of the others are not touched. -/
theorem Owned.frame (h : Owned owner m) (hchanges : Changes (owner i) q m m') {j : ι} (hj : j ≠ i) {b : ℕ}
    (hb : owner j = some b) : m'.blocks b = m.blocks b := by
  have hother : owner i ≠ some b := fun hi => hj (h.unique j i b hb hi)
  refine hchanges.others b hother fun hq => ?_
  have hnone := hchanges.fresh b hq hother
  have hlive := h.live j b hb
  rw [hnone] at hlive
  cases hlive

variable [DecidableEq ι]

/-- A call on the block of one owner. -/
theorem Owned.change (h : Owned owner m) (hchanges : Changes (owner i) q m m') :
    Owned (Function.update owner i q) m' where
  live j a ha := by
    by_cases hj : j = i
    · subst hj
      rw [Function.update_self] at ha
      exact hchanges.live a ha
    · rw [Function.update_of_ne hj] at ha
      rw [h.frame hchanges hj ha]
      exact h.live j a ha
  unique j k a hj hk := by
    -- Nobody else holds the block that the owner gets.
    have hnew : ∀ j, j ≠ i → owner j = some a → q ≠ some a := by
      intro j hji hja hq
      have hother : owner i ≠ some a := fun hi => hji (h.unique j i a hja hi)
      have hlive := h.live j a hja
      rw [hchanges.fresh a hq hother] at hlive
      cases hlive
    by_cases hji : j = i <;> by_cases hki : k = i
    · rw [hji,hki]
    · subst hji
      rw [Function.update_self] at hj
      rw [Function.update_of_ne hki] at hk
      exact absurd hj (hnew k hki hk)
    · subst hki
      rw [Function.update_self] at hk
      rw [Function.update_of_ne hji] at hj
      exact absurd hk (hnew j hji hj)
    · rw [Function.update_of_ne hji] at hj
      rw [Function.update_of_ne hki] at hk
      exact h.unique j k a hj hk
  covered a ha := by
    by_cases hq : q = some a
    · exact ⟨i,by rw [Function.update_self,hq]⟩
    · have hother : owner i ≠ some a := fun hi => by
        rw [hchanges.freed a hi hq] at ha
        cases ha
      rw [hchanges.others a hother hq] at ha
      obtain ⟨j,hj⟩ := h.covered a ha
      have hji : j ≠ i := fun hji => hother (hji ▸ hj)
      exact ⟨j,by rw [Function.update_of_ne hji,hj]⟩

/-- One owner gives its block to another, which has none. -/
theorem Owned.give (h : Owned owner m) {j : ι} (hi : owner i = none) (hij : j ≠ i) :
    Owned (Function.update (Function.update owner i (owner j)) j none) m := by
  have howner : ∀ k a, Function.update (Function.update owner i (owner j)) j none k = some a →
      k = i ∧ owner j = some a ∨ k ≠ i ∧ k ≠ j ∧ owner k = some a := by
    intro k a hk
    by_cases hkj : k = j
    · subst hkj
      rw [Function.update_self] at hk
      cases hk
    · rw [Function.update_of_ne hkj] at hk
      by_cases hki : k = i
      · subst hki
        rw [Function.update_self] at hk
        exact .inl ⟨rfl,hk⟩
      · rw [Function.update_of_ne hki] at hk
        exact .inr ⟨hki,hkj,hk⟩
  refine ⟨fun k a hk => ?_,fun k l a hk hl => ?_,fun a ha => ?_⟩
  · obtain ⟨_,hj⟩ | ⟨_,_,hka⟩ := howner k a hk
    · exact h.live j a hj
    · exact h.live k a hka
  · obtain ⟨rfl,hj⟩ | ⟨hki,hkj,hka⟩ := howner k a hk
    · obtain ⟨rfl,_⟩ | ⟨_,hlj,hla⟩ := howner l a hl
      · rfl
      · exact absurd (h.unique l j a hla hj) hlj
    · obtain ⟨rfl,hj⟩ | ⟨_,_,hla⟩ := howner l a hl
      · exact absurd (h.unique k j a hka hj) hkj
      · exact h.unique k l a hka hla
  · obtain ⟨k,hk⟩ := h.covered a ha
    by_cases hkj : k = j
    · subst hkj
      exact ⟨i,by rw [Function.update_of_ne (Ne.symm hij),Function.update_self,hk]⟩
    · have hki : k ≠ i := fun hki => by
        rw [hki,hi] at hk
        cases hk
      exact ⟨k,by rw [Function.update_of_ne hkj,Function.update_of_ne hki,hk]⟩

end Owned

end Blocks
end EspCompressor
