import EspCompressor.LzAccess

/-! The decoder in the arithmetic of a 32-bit target, where sums of `size_t` wrap around, against the
decoder over unbounded integers: which payloads make one of its sums leave the range. -/
namespace EspCompressor
namespace Codec
namespace Narrow

open MemoryBuffer (resize)
open LzSequence (expand copyBack copyBack_length)
open LzLite (lengthField takeLength takeOffset SequenceBytes LengthBytes lengthField_iff takeOffset_iff
  step step_more_sequence)

/-- How many values `size_t` has on the target. -/
def sizeRange : ℕ := 4294967296

/-- The decoder's state, and whether a sum has left the range of `size_t`. -/
structure Sized where
  state : BufferState
  exceeded : Bool := false

variable {ρ α β : Type}

/-- A statement that adds nothing up. -/
def plain (m : Proc ρ BufferState α) : Proc ρ Sized α := fun s =>
  ((m s.state).1,⟨(m s.state).2,s.exceeded⟩)

/-- `a + b` in a `size_t` of `R` values. -/
def add (R a b : ℕ) : Proc ρ Sized ℕ := fun s =>
  (.done ((a + b) % R),⟨s.state,s.exceeded || decide (R ≤ a + b)⟩)

/-- The decoder's statements where `size_t` has `R` values. -/
def sized (R : ℕ) : Machine Sized where
  access _ m := plain m
  add := add R

variable {R : ℕ}

section Statements

variable (input : List UInt8) (n : ℕ)

theorem sized_extendRound (p : ℕ × ℕ) : (sized R).extendRound input p =
    (match input[p.1]? with
    | none => Proc.ret .corruptData
    | some extra => do
      let inputOffset ← add R p.1 1
      let value ← add R p.2 extra.toNat
      pure (if extra = 255 then .inl (inputOffset,value) else .inr (inputOffset,value))) := by
  unfold Machine.extendRound
  cases input[p.1]? <;> rfl

/-- No sum is made while a match is copied. -/
theorem sized_copyMatch (outputOffset offset k : ℕ) :
    (sized R).copyMatch outputOffset offset k = plain (copyMatch outputOffset offset k) := by
  induction k with
  | zero => rfl
  | succ k ih =>
    funext s
    rw [Machine.copyMatch,ih,copyMatch_succ,plain,Proc.bind_apply,Proc.bind_apply,plain]
    rcases copyMatch outputOffset offset k s.state with ⟨o,t⟩
    cases o <;> rfl

theorem sized_decodeMatch (token : UInt8) (v : DecodeVars) : (sized R).decodeMatch input n token v = (do
    Proc.returnIf (v.outputOffset = n) (if v.inputOffset = input.length then .ok else .corruptData)
    let afterOffset ← add R v.inputOffset 2
    Proc.returnIf (input.length < afterOffset) .corruptData
    let low ← plain (byteAt input v.inputOffset)
    let high ← plain (byteAt input (v.inputOffset + 1))
    let offset := low.toNat ||| high.toNat <<< 8
    Proc.returnIf (offset = 0 ∨ v.outputOffset < offset) .corruptData
    let matched ← (sized R).readLength input (token &&& 0x0F).toNat kMinMatch afterOffset
    let outputEnd ← add R v.outputOffset matched.2
    Proc.returnIf (n < outputEnd) .corruptData
    plain (copyMatch v.outputOffset offset matched.2)
    pure (.inl ⟨matched.1,outputEnd⟩)) := by
  unfold Machine.decodeMatch
  simp only [sized_copyMatch]
  rfl

theorem sized_decodeStep (v : DecodeVars) : (sized R).decodeStep input n v =
    (match input[v.inputOffset]? with
    | none => pure (.inr v)
    | some token => do
      let afterToken ← add R v.inputOffset 1
      let literals ← (sized R).readLength input (token >>> 4 &&& 0x0F).toNat 0 afterToken
      let inputEnd ← add R literals.1 literals.2
      Proc.returnIf (input.length < inputEnd) .corruptData
      let outputEnd ← add R v.outputOffset literals.2
      Proc.returnIf (n < outputEnd) .corruptData
      plain (copyLiterals input literals.1 v.outputOffset literals.2)
      (sized R).decodeMatch input n token ⟨inputEnd,outputEnd⟩) := by
  unfold Machine.decodeStep
  cases input[v.inputOffset]? <;> rfl

theorem sized_decompressLzLiteBlock : (sized R).decompressLzLiteBlock input n = (do
    plain (Proc.modify fun s => ⟨s.buffer.clear,s.heap⟩)
    let resized ← plain (Proc.lift (resize n))
    Proc.returnIf (resized = false) (if n = 0 then .ok else .noMemory)
    let v ← Proc.loop ((sized R).decodeStep input n) (input.length + 1) ⟨0,0⟩
    pure (if v.outputOffset = n then .ok else .corruptData)) := rfl

end Statements

/-! ### Two ways to go on -/

/-- The statement ends as the unbounded one does, and no sum has left the range. -/
def Agrees (m : Proc ρ Sized α) (n : Proc ρ BufferState α) (s : BufferState) : Prop :=
  m ⟨s,false⟩ = ((n s).1,⟨(n s).2,false⟩)

/-- A sum has left the range. -/
def Exceeds (m : Proc ρ Sized α) (s : BufferState) : Prop := (m ⟨s,false⟩).2.exceeded = true

/-- Once a sum has left the range, that is remembered. -/
def Sticky (m : Proc ρ Sized α) : Prop := ∀ s, s.exceeded = true → (m s).2.exceeded = true

section Sticky

theorem plain_sticky (m : Proc ρ BufferState α) : Sticky (plain m) := fun _ h => h

theorem pure_sticky (a : α) : Sticky (pure a : Proc ρ Sized α) := fun _ h => h

theorem add_sticky (a b : ℕ) : Sticky (add R a b : Proc ρ Sized ℕ) := fun s h => by
  change (s.exceeded || _) = true
  rw [h,Bool.true_or]

theorem returnIf_sticky (c : Prop) [Decidable c] (r : ρ) : Sticky (Proc.returnIf c r) := fun s h => by
  unfold Proc.returnIf
  split_ifs <;> exact h

theorem Sticky.bind {m : Proc ρ Sized α} {f : α → Proc ρ Sized β} (hm : Sticky m)
    (hf : ∀ a, Sticky (f a)) : Sticky (m >>= f) := fun s h => by
  have hstart := hm s h
  rw [Proc.bind_apply]
  generalize m s = x at hstart ⊢
  rcases x with ⟨o,s'⟩
  cases o with
  | done a => exact hf a s' hstart
  | returned r => exact hstart
  | pending => exact hstart
  | undefined => exact hstart

theorem Sticky.loop {body : α → Proc ρ Sized (α ⊕ β)} (h : ∀ a, Sticky (body a)) (n : ℕ) (a : α) :
    Sticky (Proc.loop body n a) := by
  induction n generalizing a with
  | zero => exact fun _ h => h
  | succ n ih =>
    refine (h a).bind fun c => ?_
    cases c with
    | inl a' => exact ih a'
    | inr b => exact pure_sticky b

/-- After a round. -/
theorem Sticky.continue {body : α → Proc ρ Sized (α ⊕ β)} (h : ∀ a, Sticky (body a)) (n : ℕ)
    (c : α ⊕ β) : Sticky (match c with
      | .inl a => Proc.loop body n a
      | .inr b => pure b) := by
  cases c with
  | inl a => exact Sticky.loop h n a
  | inr b => exact pure_sticky b

theorem extendRound_sticky (input : List UInt8) (p : ℕ × ℕ) : Sticky ((sized R).extendRound input p) := by
  rw [sized_extendRound]
  cases input[p.1]? with
  | none => exact fun _ h => h
  | some extra => exact (add_sticky _ _).bind fun _ => (add_sticky _ _).bind fun _ => pure_sticky _

theorem readLength_sticky (input : List UInt8) (bits base inputOffset : ℕ) :
    Sticky ((sized R).readLength input bits base inputOffset) := by
  unfold Machine.readLength
  split_ifs
  · exact Sticky.loop (extendRound_sticky input) _ _
  · exact pure_sticky _

theorem decodeMatch_sticky (input : List UInt8) (n : ℕ) (token : UInt8) (v : DecodeVars) :
    Sticky ((sized R).decodeMatch input n token v) := by
  rw [sized_decodeMatch]
  exact (returnIf_sticky _ _).bind fun _ => (add_sticky _ _).bind fun _ => (returnIf_sticky _ _).bind fun _ =>
    (plain_sticky _).bind fun _ => (plain_sticky _).bind fun _ => (returnIf_sticky _ _).bind fun _ =>
    (readLength_sticky _ _ _ _).bind fun _ => (add_sticky _ _).bind fun _ =>
    (returnIf_sticky _ _).bind fun _ => (plain_sticky _).bind fun _ => pure_sticky _

end Sticky

section Rules

variable {m : Proc ρ Sized α} {n : Proc ρ BufferState α} {s : BufferState}

theorem plain_agrees (n : Proc ρ BufferState α) (s : BufferState) : Agrees (plain n) n s := rfl

theorem pure_agrees (a : α) (s : BufferState) : Agrees (pure a : Proc ρ Sized α) (pure a) s := rfl

theorem returnIf_agrees (c : Prop) [Decidable c] (r : ρ) (s : BufferState) :
    Agrees (Proc.returnIf c r) (Proc.returnIf c r) s := by
  unfold Agrees Proc.returnIf
  split_ifs <;> rfl

theorem Agrees.bind {f : α → Proc ρ Sized β} {g : α → Proc ρ BufferState β} (h : Agrees m n s)
    (hf : ∀ a t, n s = (.done a,t) → Agrees (f a) (g a) t) : Agrees (m >>= f) (n >>= g) s := by
  unfold Agrees at h ⊢
  rw [Proc.bind_apply,Proc.bind_apply,h]
  rcases hn : n s with ⟨o,t⟩
  cases o with
  | done a => exact hf a t hn
  | returned r => rfl
  | pending => rfl
  | undefined => rfl

theorem Exceeds.bind {f : α → Proc ρ Sized β} (h : Exceeds m s) (hf : ∀ a, Sticky (f a)) :
    Exceeds (m >>= f) s := by
  unfold Exceeds at h ⊢
  rw [Proc.bind_apply]
  rcases hm : m ⟨s,false⟩ with ⟨o,s'⟩
  rw [hm] at h
  cases o with
  | done a => exact hf a s' h
  | returned r => exact h
  | pending => exact h
  | undefined => exact h

/-- A sum that leaves the range later. -/
theorem Agrees.bind_exceeds {f : α → Proc ρ Sized β} {a : α} {t : BufferState} (h : Agrees m n s)
    (hn : n s = (.done a,t)) (hf : Exceeds (f a) t) : Exceeds (m >>= f) s := by
  unfold Agrees at h
  unfold Exceeds at hf ⊢
  rw [Proc.bind_apply,h,hn]
  exact hf

theorem add_agrees {a b : ℕ} (hlt : a + b < R) {f : ℕ → Proc ρ Sized β}
    {g : Proc ρ BufferState β} (h : Agrees (f (a + b)) g s) : Agrees (add R a b >>= f) g s := by
  have hadd : (add R a b : Proc ρ Sized ℕ) ⟨s,false⟩ = (.done (a + b),⟨s,false⟩) := by
    unfold add
    rw [Nat.mod_eq_of_lt hlt,decide_eq_false (not_le.mpr hlt)]
    rfl
  unfold Agrees at h ⊢
  rw [Proc.bind_apply,hadd]
  exact h

theorem add_exceeds {a b : ℕ} (hle : R ≤ a + b) {f : ℕ → Proc ρ Sized β}
    (hf : ∀ x, Sticky (f x)) : Exceeds (add R a b >>= f) s := by
  have hadd : Exceeds (add R a b : Proc ρ Sized ℕ) s := decide_eq_true hle
  exact hadd.bind hf

theorem add_exceeds_later {a b : ℕ} (hlt : a + b < R) {f : ℕ → Proc ρ Sized β}
    (h : Exceeds (f (a + b)) s) : Exceeds (add R a b >>= f) s := by
  have hadd : (add R a b : Proc ρ Sized ℕ) ⟨s,false⟩ = (.done (a + b),⟨s,false⟩) := by
    unfold add
    rw [Nat.mod_eq_of_lt hlt,decide_eq_false (not_le.mpr hlt)]
    rfl
  unfold Exceeds at h ⊢
  rw [Proc.bind_apply,hadd]
  exact h

theorem returnIf_exceeds_later {c : Prop} [Decidable c] {r : ρ} {f : Unit → Proc ρ Sized β} (hc : ¬c)
    (h : Exceeds (f ()) s) : Exceeds (Proc.returnIf c r >>= f) s := by
  rw [Proc.returnIf,if_neg hc]
  exact h

end Rules

/-! ### Length fields -/

/-- What the bytes of an extended length add up to, whether or not the length is complete. -/
def runSum : List UInt8 → ℕ → ℕ
  | [], value => value
  | b :: bs, value => if b = 255 then runSum bs (value + 255) else value + b.toNat

/-- What a length field announces, whether or not it is complete. -/
def announced (bits base : ℕ) (rest : List UInt8) : ℕ :=
  if bits = 15 then runSum rest (15 + base) else bits + base

theorem le_runSum (rest : List UInt8) (value : ℕ) : value ≤ runSum rest value := by
  induction rest generalizing value with
  | nil => exact le_refl _
  | cons b bs ih =>
    have htail := ih (value + 255)
    unfold runSum
    split_ifs <;> omega

theorem runSum_le (rest : List UInt8) (value : ℕ) : runSum rest value ≤ value + 255 * rest.length := by
  induction rest generalizing value with
  | nil => exact Nat.le_add_right _ _
  | cons b bs ih =>
    have htail := ih (value + 255)
    have hb := b.toNat_lt
    unfold runSum
    rw [List.length_cons]
    split_ifs <;> omega

/-- A byte that leaves the range is not made up for. -/
theorem le_runSum_cons (b : UInt8) (rest : List UInt8) (value : ℕ) :
    value + b.toNat ≤ runSum (b :: rest) value := by
  have hmono := le_runSum rest (value + 255)
  unfold runSum
  split_ifs with hb
  · rw [hb]
    exact hmono
  · exact le_rfl

theorem takeLength_runSum {rest rest' : List UInt8} {acc value : ℕ}
    (h : takeLength rest acc = some (value,rest')) : runSum rest acc = value := by
  induction rest generalizing acc with
  | nil => simp [takeLength] at h
  | cons b bs ih =>
    unfold takeLength at h
    unfold runSum
    split_ifs at h ⊢ with hb
    · exact ih h
    · exact (Prod.mk.inj (Option.some.inj h)).1

/-- A complete field announces its length. -/
theorem announced_eq {bits base value : ℕ} {rest rest' : List UInt8}
    (h : lengthField bits base rest = some (value,rest')) : announced bits base rest = value := by
  unfold lengthField at h
  unfold announced
  split_ifs at h ⊢
  · exact takeLength_runSum h
  · exact (Prod.mk.inj (Option.some.inj h)).1

/-- The rounds of `readExtendedLength` over unbounded integers. -/
def unboundedRound (input : List UInt8) (p : ℕ × ℕ) :
    Proc CompressionError BufferState ((ℕ × ℕ) ⊕ (ℕ × ℕ)) :=
  match input[p.1]? with
  | none => Proc.ret .corruptData
  | some extra =>
    if extra = 255 then pure (.inl (p.1 + 1,p.2 + 255)) else pure (.inr (p.1 + 1,p.2 + extra.toNat))

theorem unboundedRound_of_lt {input : List UInt8} {i : ℕ} (hi : i < input.length) (value : ℕ)
    (s : BufferState) : unboundedRound input (i,value) s =
      (.done (if input[i] = 255 then .inl (i + 1,value + 255) else .inr (i + 1,value + input[i].toNat)),s) := by
  unfold unboundedRound
  rw [List.getElem?_eq_getElem hi]
  dsimp only
  split_ifs <;> rfl

theorem extendRound_agrees {input : List UInt8} (hN : 100 < R ∧ input.length < R) {i value : ℕ}
    (hi : i < input.length) (hsum : value + input[i].toNat < R) (s : BufferState) :
    Agrees ((sized R).extendRound input (i,value)) (unboundedRound input (i,value)) s := by
  rw [sized_extendRound]
  unfold unboundedRound
  rw [List.getElem?_eq_getElem hi]
  refine add_agrees (by omega) (add_agrees hsum ?_)
  dsimp only
  by_cases hb : input[i] = 255
  · rw [if_pos hb,if_pos hb,hb]
    rfl
  · rw [if_neg hb,if_neg hb]
    exact pure_agrees _ s

theorem extendRound_exceeds {input : List UInt8} (hN : 100 < R ∧ input.length < R) {i value : ℕ}
    (hi : i < input.length) (hsum : R ≤ value + input[i].toNat) (s : BufferState) :
    Exceeds ((sized R).extendRound input (i,value)) s := by
  rw [sized_extendRound]
  rw [List.getElem?_eq_getElem hi]
  exact add_exceeds_later (by omega) (add_exceeds hsum fun _ => pure_sticky _)

/-- The length that is read leaves the range exactly if its bytes add up to more. -/
theorem extendLoop_cases {input : List UInt8} (hN : 100 < R ∧ input.length < R) (s : BufferState) (k : ℕ)
    {i value : ℕ} (hi : i ≤ input.length) (hk : input.length < i + k) (hvalue : value < R) :
    (runSum (input.drop i) value < R → Agrees (Proc.loop ((sized R).extendRound input) k (i,value))
      (Proc.loop (unboundedRound input) k (i,value)) s) ∧
    (R ≤ runSum (input.drop i) value → Exceeds (Proc.loop ((sized R).extendRound input) k (i,value)) s) := by
  induction k generalizing i value with
  | zero => omega
  | succ k ih =>
    by_cases hlt : i < input.length
    · rw [List.drop_eq_getElem_cons hlt]
      by_cases hsum : value + input[i].toNat < R
      · have hround := extendRound_agrees hN hlt hsum s
        have hunbounded := unboundedRound_of_lt hlt value s
        by_cases hb : input[i] = 255
        · have hvalue' : value + 255 < R := by
            rw [hb] at hsum
            exact hsum
          have hnext := ih (show i + 1 ≤ input.length from hlt) (by omega) hvalue'
          rw [if_pos hb] at hunbounded
          refine ⟨fun hless => hround.bind fun c t ht => ?_,fun hmore =>
            hround.bind_exceeds hunbounded (hnext.2 ?_)⟩
          · rw [hunbounded] at ht
            obtain ⟨hc,rfl⟩ := Prod.mk.inj ht
            obtain rfl := Outcome.done.inj hc
            rw [runSum,if_pos hb] at hless
            exact hnext.1 hless
          · rwa [runSum,if_pos hb] at hmore
        · rw [if_neg hb] at hunbounded
          refine ⟨fun _ => hround.bind fun c t ht => ?_,fun hmore => ?_⟩
          · rw [hunbounded] at ht
            obtain ⟨hc,rfl⟩ := Prod.mk.inj ht
            obtain rfl := Outcome.done.inj hc
            exact pure_agrees _ _
          · rw [runSum,if_neg hb] at hmore
            omega
      · have hexceeds : Exceeds (Proc.loop ((sized R).extendRound input) (k + 1) (i,value)) s := by
          exact (extendRound_exceeds hN hlt (not_lt.mp hsum) s).bind
            (Sticky.continue (extendRound_sticky input) k)
        have hcons := le_runSum_cons input[i] (input.drop (i + 1)) value
        exact ⟨fun hless => absurd hless (by omega),fun _ => hexceeds⟩
    · have hnone : input[i]? = none := List.getElem?_eq_none (not_lt.mp hlt)
      rw [List.drop_eq_nil_of_le (not_lt.mp hlt)]
      refine ⟨fun _ => ?_,fun hmore => absurd hmore (not_le.mpr hvalue)⟩
      refine Agrees.bind (n := unboundedRound input (i,value)) ?_ fun c t ht => ?_
      · unfold Agrees unboundedRound
        rw [sized_extendRound,hnone]
        rfl
      · unfold unboundedRound at ht
        rw [hnone] at ht
        simp [Proc.ret] at ht

theorem readLength_cases {input : List UInt8} (hN : 100 < R ∧ input.length < R) {bits base inputOffset : ℕ}
    (hbase : base ≤ 3) (hbits : bits < 16) (hi : inputOffset ≤ input.length) (s : BufferState) :
    (announced bits base (input.drop inputOffset) < R →
      Agrees ((sized R).readLength input bits base inputOffset) (Codec.readLength input bits base inputOffset) s) ∧
    (R ≤ announced bits base (input.drop inputOffset) →
      Exceeds ((sized R).readLength input bits base inputOffset) s) := by
  have hrange := hN.1
  rw [readLength_eq,readExtendedLength_eq]
  unfold announced Machine.readLength Machine.readExtendedLength
  by_cases hfull : bits = 15
  · simp only [if_pos hfull]
    exact extendLoop_cases hN s (input.length + 1) hi (by omega) (by omega)
  · simp only [if_neg hfull]
    exact ⟨fun _ => pure_agrees _ s,fun hmore => by omega⟩

/-! ### Payloads that leave the range -/

/-- After the literals of a sequence, at `position`: the two bytes of the offset, the length of the
match or the end of its copy lie beyond the range. -/
def MatchExceeds (R n position : ℕ) (token : UInt8) (rest out : List UInt8) : Prop :=
  out.length ≠ n ∧ (R ≤ position + 2 ∨ ∃ offset rest', takeOffset rest = some (offset,rest') ∧
    1 ≤ offset ∧ offset ≤ out.length ∧
    (R ≤ announced (token &&& 0x0F).toNat kMinMatch rest' ∨
      ∃ length rest'', lengthField (token &&& 0x0F).toNat kMinMatch rest' = some (length,rest'') ∧
        R ≤ out.length + length))

/-- The sequence whose token is at `position` announces literals that, alone or counted from where
they start in the input or in the output, end beyond the range; or its match does. -/
def SequenceExceeds (R n position : ℕ) (token : UInt8) (tail out : List UInt8) : Prop :=
  R ≤ announced (token >>> 4 &&& 0x0F).toNat 0 tail ∨
    ∃ length rest, lengthField (token >>> 4 &&& 0x0F).toNat 0 tail = some (length,rest) ∧
      (R ≤ position + 1 + (tail.length - rest.length) + length ∨
        length ≤ rest.length ∧ (R ≤ out.length + length ∨ out.length + length ≤ n ∧
          MatchExceeds R n (position + 1 + (tail.length - rest.length) + length) token
            (rest.drop length) (out ++ rest.take length)))

/-- After valid sequences comes one that leaves the range. -/
inductive Oversized (R n : ℕ) : ℕ → List UInt8 → List UInt8 → Prop
  | here {position : ℕ} {token : UInt8} {tail out : List UInt8} :
      SequenceExceeds R n position token tail out → Oversized R n position (token :: tail) out
  | later {position : ℕ} {s : LzSequence UInt8} {bytes rest out : List UInt8} :
      SequenceBytes s bytes → s.Valid kMinMatch 0xFFFF out → (expand out s).length ≤ n →
      Oversized R n (position + bytes.length) rest (expand out s) → Oversized R n position (bytes ++ rest) out

theorem returnIf_done {c : Prop} [Decidable c] {r : ρ} {s t : BufferState} {u : Unit}
    (h : Proc.returnIf c r s = (.done u,t)) : ¬c ∧ t = s := by
  unfold Proc.returnIf at h
  split_ifs at h with hc
  · simp [Proc.ret] at h
  · exact ⟨hc,(Prod.mk.inj h).2.symm⟩

theorem byteAt_done {input : List UInt8} {i : ℕ} {b : UInt8} {s t : BufferState}
    (h : byteAt input i s = (.done b,t)) : input[i]? = some b ∧ t = s := by
  unfold byteAt at h
  cases hread : input[i]? with
  | none =>
    rw [hread] at h
    simp [Proc.undef] at h
  | some b' =>
    rw [hread] at h
    obtain ⟨hdone,rfl⟩ := Prod.mk.inj h
    exact ⟨congrArg some (Outcome.done.inj hdone),rfl⟩

theorem readLength_done {input : List UInt8} {bits base inputOffset : ℕ} {p : ℕ × ℕ}
    {s t : BufferState} (hi : inputOffset ≤ input.length)
    (h : Codec.readLength input bits base inputOffset s = (.done p,t)) :
    t = s ∧ p.1 ≤ input.length ∧
      lengthField bits base (input.drop inputOffset) = some (p.2,input.drop p.1) := by
  have hdone := Proc.wp_of_done (readLength_spec bits base hi s) h
  exact hdone

/-- A complete field is read. -/
theorem readLength_of_field {input : List UInt8} {bits base inputOffset length : ℕ}
    {rest : List UInt8} (hi : inputOffset ≤ input.length)
    (h : lengthField bits base (input.drop inputOffset) = some (length,rest)) (s : BufferState) :
    ∃ next, Codec.readLength input bits base inputOffset s = (.done (next,length),s) ∧
      next ≤ input.length ∧ input.drop next = rest := by
  have hspec := readLength_spec bits base hi s
  unfold Proc.wp at hspec
  rcases hread : Codec.readLength input bits base inputOffset s with ⟨o,t⟩
  rw [hread,h] at hspec
  cases o with
  | done p =>
    obtain ⟨rfl,hle,hfield⟩ := hspec
    obtain ⟨hlength,hrest⟩ := Prod.mk.inj (Option.some.inj hfield)
    exact ⟨p.1,by rw [hlength],hle,hrest.symm⟩
  | returned r => exact absurd hspec.2.2 (by simp)
  | pending => exact hspec.elim
  | undefined => exact hspec.elim

theorem low_lt (token : UInt8) : (token &&& 0x0F).toNat < 16 := by
  rw [UInt8.toNat_and]
  exact lt_of_le_of_lt Nat.and_le_right (by decide)

theorem high_lt (token : UInt8) : (token >>> 4 &&& 0x0F).toNat < 16 := by
  rw [UInt8.toNat_and]
  exact lt_of_le_of_lt Nat.and_le_right (by decide)

theorem takeOffset_drop {input : List UInt8} {i : ℕ} {low high : UInt8}
    (hlow : input[i]? = some low) (hhigh : input[i + 1]? = some high) :
    takeOffset (input.drop i) = some (low.toNat ||| high.toNat <<< 8,input.drop (i + 2)) := by
  obtain ⟨h₀,rfl⟩ := List.getElem?_eq_some_iff.mp hlow
  obtain ⟨h₁,rfl⟩ := List.getElem?_eq_some_iff.mp hhigh
  rw [List.drop_eq_getElem_cons h₀,List.drop_eq_getElem_cons h₁]
  rfl

theorem decodeMatch_agrees {input out : List UInt8} {n : ℕ} (hN : 100 < R ∧ input.length < R)
    (token : UInt8) {v : DecodeVars} (hout : v.outputOffset = out.length)
    (h : ¬MatchExceeds R n v.inputOffset token (input.drop v.inputOffset) out) (s : BufferState) :
    Agrees ((sized R).decodeMatch input n token v) (Codec.decodeMatch input n token v) s := by
  rw [sized_decodeMatch,decodeMatch_eq]
  refine (returnIf_agrees _ _ s).bind fun _ s₁ h₁ => ?_
  obtain ⟨hopen,rfl⟩ := returnIf_done h₁
  rw [MatchExceeds,not_and] at h
  have hin := h (hout ▸ hopen)
  rw [not_or,not_le] at hin
  refine add_agrees hin.1 ((returnIf_agrees _ _ s₁).bind fun _ s₂ h₂ => ?_)
  obtain ⟨hlong,rfl⟩ := returnIf_done h₂
  refine (plain_agrees _ s₂).bind fun low s₃ h₃ => ?_
  obtain ⟨hlow,rfl⟩ := byteAt_done h₃
  refine (plain_agrees _ s₃).bind fun high s₄ h₄ => ?_
  obtain ⟨hhigh,rfl⟩ := byteAt_done h₄
  refine (returnIf_agrees _ _ s₄).bind fun _ s₅ h₅ => ?_
  obtain ⟨hoffset,rfl⟩ := returnIf_done h₅
  have htake := takeOffset_drop hlow hhigh
  have hmatch : ¬(R ≤ announced (token &&& 0x0F).toNat kMinMatch (input.drop (v.inputOffset + 2)) ∨
      ∃ length rest'', lengthField (token &&& 0x0F).toNat kMinMatch (input.drop (v.inputOffset + 2)) =
        some (length,rest'') ∧ R ≤ out.length + length) := fun hbad =>
    hin.2 ⟨_,_,htake,by omega,by omega,hbad⟩
  rw [not_or,not_le] at hmatch
  have hread := (readLength_cases hN (le_refl 3) (low_lt token) (not_lt.mp hlong) s₅).1 hmatch.1
  refine hread.bind fun p s₆ h₆ => ?_
  obtain ⟨rfl,-,hfield⟩ := readLength_done (not_lt.mp hlong) h₆
  have hsum : v.outputOffset + p.2 < R := by
    rw [hout]
    exact not_le.mp fun hle => hmatch.2 ⟨_,_,hfield,hle⟩
  refine add_agrees hsum ((returnIf_agrees _ _ s₆).bind fun _ s₇ _ => ?_)
  exact (plain_agrees _ s₇).bind fun _ s₈ _ => pure_agrees _ s₈

theorem decodeMatch_exceeds {input out : List UInt8} {n : ℕ} (hN : 100 < R ∧ input.length < R)
    (token : UInt8) {v : DecodeVars} (hout : v.outputOffset = out.length)
    (h : MatchExceeds R n v.inputOffset token (input.drop v.inputOffset) out) (s : BufferState) :
    Exceeds ((sized R).decodeMatch input n token v) s := by
  obtain ⟨hopen,hmore⟩ := h
  rw [sized_decodeMatch]
  refine returnIf_exceeds_later (hout ▸ hopen) ?_
  have hafter (low high : UInt8) (next : ℕ) : Sticky (do
      Proc.returnIf ((low.toNat ||| high.toNat <<< 8) = 0 ∨
        v.outputOffset < (low.toNat ||| high.toNat <<< 8)) .corruptData
      let matched ← (sized R).readLength input (token &&& 0x0F).toNat kMinMatch next
      let outputEnd ← add R v.outputOffset matched.2
      Proc.returnIf (n < outputEnd) .corruptData
      plain (copyMatch v.outputOffset (low.toNat ||| high.toNat <<< 8) matched.2)
      pure (.inl ⟨matched.1,outputEnd⟩ : DecodeVars ⊕ DecodeVars)) :=
    (returnIf_sticky _ _).bind fun _ => (readLength_sticky _ _ _ _).bind fun _ =>
      (add_sticky _ _).bind fun _ => (returnIf_sticky _ _).bind fun _ =>
      (plain_sticky _).bind fun _ => pure_sticky _
  by_cases hposition : R ≤ v.inputOffset + 2
  · exact add_exceeds hposition fun next => (returnIf_sticky _ _).bind fun _ =>
      (plain_sticky _).bind fun low => (plain_sticky _).bind fun high => hafter low high next
  obtain ⟨offset,rest',htake,hpos,hback,hlength⟩ := hmore.resolve_left hposition
  obtain ⟨low,high,hdrop,hvalue⟩ := takeOffset_iff.mp htake
  have hlen := congrArg List.length hdrop
  simp only [List.length_drop,List.length_cons] at hlen
  have hlow : input[v.inputOffset]? = some low := by
    rw [← List.head?_drop,hdrop]
    rfl
  have hhigh : input[v.inputOffset + 1]? = some high := by
    rw [← List.head?_drop,← List.drop_drop,hdrop]
    rfl
  have hboth := takeOffset_drop hlow hhigh
  rw [htake] at hboth
  obtain ⟨hoffset,hrest⟩ := Prod.mk.inj (Option.some.inj hboth)
  have hbyte {i : ℕ} {b : UInt8} (hb : input[i]? = some b) : byteAt input i s = (.done b,s) := by
    unfold byteAt
    rw [hb]
    rfl
  refine add_exceeds_later (not_le.mp hposition) (returnIf_exceeds_later (by omega) ?_)
  refine (plain_agrees _ s).bind_exceeds (hbyte hlow) ((plain_agrees _ s).bind_exceeds (hbyte hhigh) ?_)
  refine returnIf_exceeds_later (by rw [← hoffset]; omega) ?_
  have hread := readLength_cases hN (le_refl 3) (low_lt token)
    (show v.inputOffset + 2 ≤ input.length by omega) s
  rw [← hrest] at hread
  by_cases hannounced : R ≤ announced (token &&& 0x0F).toNat kMinMatch rest'
  · exact (hread.2 hannounced).bind fun _ => (add_sticky _ _).bind fun _ =>
      (returnIf_sticky _ _).bind fun _ => (plain_sticky _).bind fun _ => pure_sticky _
  · obtain ⟨length,rest'',hfield,hsum⟩ := hlength.resolve_left hannounced
    rw [hrest] at hfield
    obtain ⟨next,hdone,-,-⟩ := readLength_of_field (by omega) hfield s
    refine (hread.1 (not_le.mp hannounced)).bind_exceeds hdone (add_exceeds ?_ fun _ =>
      (returnIf_sticky _ _).bind fun _ => (plain_sticky _).bind fun _ => pure_sticky _)
    rwa [hout]

theorem decodeStep_agrees {input out : List UInt8} {n : ℕ} (hN : 100 < R ∧ input.length < R) {v : DecodeVars}
    (hin : v.inputOffset < input.length) (hout : v.outputOffset = out.length)
    (h : ¬SequenceExceeds R n v.inputOffset input[v.inputOffset] (input.drop (v.inputOffset + 1)) out)
    (s : BufferState) : Agrees ((sized R).decodeStep input n v) (Codec.decodeStep input n v) s := by
  rw [sized_decodeStep,decodeStep_eq]
  rw [List.getElem?_eq_getElem hin]
  dsimp only
  generalize input[v.inputOffset] = token at h ⊢
  rw [SequenceExceeds,not_or,not_le] at h
  obtain ⟨hannounced,hliterals⟩ := h
  refine add_agrees (by omega) ?_
  refine ((readLength_cases hN (by omega) (high_lt token) hin s).1 hannounced).bind fun p s₁ h₁ => ?_
  obtain ⟨rfl,hnext,hfield⟩ := readLength_done hin h₁
  have hlen : v.inputOffset + 1 + ((input.drop (v.inputOffset + 1)).length - (input.drop p.1).length) = p.1 := by
    have hsuffix := (LzLite.lengthField_suffix hfield).length_le
    simp only [List.length_drop] at hsuffix ⊢
    omega
  have hbad := mt (fun hbad => (⟨p.2,input.drop p.1,hfield,hbad⟩ : ∃ _ _, _)) hliterals
  rw [hlen,not_or,not_le] at hbad
  rw [← Proc.returnIf_or]
  refine add_agrees hbad.1 ((returnIf_agrees _ _ s₁).bind fun _ s₂ h₂ => ?_)
  obtain ⟨hfits,rfl⟩ := returnIf_done h₂
  have hfits : p.1 + p.2 ≤ input.length := not_lt.mp hfits
  have hrest := not_and.mp hbad.2 (by rw [List.length_drop]; omega)
  rw [not_or,not_le,← hout] at hrest
  refine add_agrees hrest.1 ((returnIf_agrees _ _ s₂).bind fun _ s₃ h₃ => ?_)
  obtain ⟨hroom,rfl⟩ := returnIf_done h₃
  have hcopy : copyLiterals input p.1 v.outputOffset p.2 =
      storeBytes v.outputOffset ((input.drop p.1).take p.2) := if_pos hfits
  rw [hcopy]
  have hproduced : v.outputOffset + p.2 = (out ++ (input.drop p.1).take p.2).length := by
    rw [List.length_append,List.length_take,List.length_drop,hout]
    omega
  have hmatch := not_and.mp hrest.2 (not_lt.mp hroom)
  rw [List.drop_drop] at hmatch
  exact (plain_agrees _ s₃).bind fun _ s₄ _ =>
    decodeMatch_agrees (v := ⟨p.1 + p.2,v.outputOffset + p.2⟩) hN token hproduced hmatch s₄

theorem decodeStep_exceeds {input out : List UInt8} {n : ℕ} (hN : 100 < R ∧ input.length < R) {v : DecodeVars}
    (hin : v.inputOffset < input.length) (hout : v.outputOffset = out.length) {s : BufferState}
    (hp : Produced n out s)
    (h : SequenceExceeds R n v.inputOffset input[v.inputOffset] (input.drop (v.inputOffset + 1)) out) :
    Exceeds ((sized R).decodeStep input n v) s := by
  rw [sized_decodeStep]
  rw [List.getElem?_eq_getElem hin]
  dsimp only
  generalize input[v.inputOffset] = token at h ⊢
  have hread := readLength_cases hN (show (0 : ℕ) ≤ 3 by omega) (high_lt token) (Nat.succ_le_of_lt hin) s
  have hcopied (literals : ℕ × ℕ) (inputEnd outputEnd : ℕ) : Sticky (do
      plain (copyLiterals input literals.1 v.outputOffset literals.2)
      (sized R).decodeMatch input n token ⟨inputEnd,outputEnd⟩) :=
    (plain_sticky _).bind fun _ => decodeMatch_sticky _ _ _ _
  have hsecond (literals : ℕ × ℕ) (inputEnd : ℕ) : Sticky (do
      Proc.returnIf (input.length < inputEnd) .corruptData
      let outputEnd ← add R v.outputOffset literals.2
      Proc.returnIf (n < outputEnd) .corruptData
      plain (copyLiterals input literals.1 v.outputOffset literals.2)
      (sized R).decodeMatch input n token ⟨inputEnd,outputEnd⟩) :=
    (returnIf_sticky _ _).bind fun _ => (add_sticky _ _).bind fun _ =>
      (returnIf_sticky _ _).bind fun _ => hcopied literals _ _
  refine add_exceeds_later (by omega) ?_
  by_cases hannounced : R ≤ announced (token >>> 4 &&& 0x0F).toNat 0 (input.drop (v.inputOffset + 1))
  · exact (hread.2 hannounced).bind fun literals => (add_sticky _ _).bind fun _ => hsecond literals _
  obtain ⟨length,rest,hfield,hliterals⟩ := h.resolve_left hannounced
  obtain ⟨next,hdone,hnext,rfl⟩ := readLength_of_field (Nat.succ_le_of_lt hin) hfield s
  have hlen : v.inputOffset + 1 + ((input.drop (v.inputOffset + 1)).length - (input.drop next).length) = next := by
    have hsuffix := (LzLite.lengthField_suffix hfield).length_le
    simp only [List.length_drop] at hsuffix ⊢
    omega
  rw [hlen] at hliterals
  refine (hread.1 (not_le.mp hannounced)).bind_exceeds hdone ?_
  by_cases hinput : R ≤ next + length
  · exact add_exceeds hinput fun _ => hsecond (next,length) _
  obtain ⟨hfits,houtput⟩ := hliterals.resolve_left hinput
  rw [List.length_drop] at hfits
  refine add_exceeds_later (not_le.mp hinput) (returnIf_exceeds_later (by omega) ?_)
  by_cases hover : R ≤ out.length + length
  · exact add_exceeds (by rwa [hout]) fun _ => (returnIf_sticky _ _).bind fun _ => hcopied (next,length) _ _
  obtain ⟨hroom,hmatch⟩ := houtput.resolve_left hover
  refine add_exceeds_later (by rw [hout]; exact not_le.mp hover)
    (returnIf_exceeds_later (by rw [hout]; exact not_lt.mpr hroom) ?_)
  have htaken : ((input.drop next).take length).length = length := by
    rw [List.length_take,List.length_drop]
    omega
  have hstore : copyLiterals input next v.outputOffset length s = (.done (),
      ⟨s.buffer.store v.outputOffset ((input.drop next).take length),s.heap⟩) := by
    have hsize := hp.size_eq
    have hfrom : copyLiterals input next v.outputOffset length =
        storeBytes v.outputOffset ((input.drop next).take length) := if_pos (by omega)
    rw [hfrom]
    exact if_pos (by rw [htaken,hsize,hout]; exact hroom)
  have hproduced : v.outputOffset + length = (out ++ (input.drop next).take length).length := by
    rw [List.length_append,htaken,hout]
  rw [List.drop_drop] at hmatch
  exact (plain_agrees _ s).bind_exceeds hstore
    (decodeMatch_exceeds (v := ⟨next + length,v.outputOffset + length⟩) hN token hproduced hmatch _)

theorem decodeStep_sticky (input : List UInt8) (n : ℕ) (v : DecodeVars) : Sticky ((sized R).decodeStep input n v) := by
  rw [sized_decodeStep]
  cases input[v.inputOffset]? with
  | none => exact pure_sticky _
  | some token =>
    exact (add_sticky _ _).bind fun _ => (readLength_sticky _ _ _ _).bind fun _ =>
      (add_sticky _ _).bind fun _ => (returnIf_sticky _ _).bind fun _ => (add_sticky _ _).bind fun _ =>
      (returnIf_sticky _ _).bind fun _ => (plain_sticky _).bind fun _ => decodeMatch_sticky _ _ _ _

/-- A round takes a valid sequence off. -/
theorem decodeStep_of_sequence {input out bytes rest : List UInt8} {n : ℕ} {v : DecodeVars} {s : BufferState}
    {q : LzSequence UInt8} (hin : v.inputOffset < input.length) (hout : v.outputOffset = out.length)
    (hp : Produced n out s)
    (hrest : input[v.inputOffset] :: input.drop (v.inputOffset + 1) = bytes ++ rest)
    (hq : SequenceBytes q bytes) (hvalid : q.Valid kMinMatch 0xFFFF out) (hroom : (expand out q).length ≤ n) :
    ∃ v' t, Codec.decodeStep input n v s = (.done (.inl v'),t) ∧
      v'.inputOffset = v.inputOffset + bytes.length ∧ input.drop v'.inputOffset = rest ∧
      v'.outputOffset = (expand out q).length ∧ Produced n (expand out q) t := by
  have hspec := decodeStep_spec hin hout hp
  have hlen := congrArg List.length hrest
  simp only [List.length_cons,List.length_append,List.length_drop] at hlen
  unfold Proc.wp at hspec
  rcases hrun : Codec.decodeStep input n v s with ⟨o,t⟩
  rw [hrun,step_more_sequence.mpr ⟨q,bytes,hrest,hq,hvalid,rfl,hroom⟩] at hspec
  cases o with
  | done c =>
    obtain ⟨v',out',rfl,hends,hle,hout',hp',-⟩ := hspec
    obtain ⟨rfl,rfl⟩ := LzLite.Step.more.inj hends
    rw [List.length_drop] at hlen
    exact ⟨v',t,rfl,by omega,rfl,hout',hp'⟩
  | returned r => exact absurd hspec.2 (by simp)
  | pending => exact hspec.elim
  | undefined => exact hspec.elim

/-- The loop leaves the range exactly if a sequence after valid ones does. -/
theorem decodeLoop_cases {input : List UInt8} {n : ℕ} (hN : 100 < R ∧ input.length < R) (k : ℕ)
    {v : DecodeVars} {out : List UInt8} {s : BufferState} (hin : v.inputOffset ≤ input.length)
    (hk : input.length < v.inputOffset + k) (hout : v.outputOffset = out.length)
    (hp : Produced n out s) :
    (¬Oversized R n v.inputOffset (input.drop v.inputOffset) out →
      Agrees (Proc.loop ((sized R).decodeStep input n) k v) (Proc.loop (Codec.decodeStep input n) k v) s) ∧
    (Oversized R n v.inputOffset (input.drop v.inputOffset) out →
      Exceeds (Proc.loop ((sized R).decodeStep input n) k v) s) := by
  induction k generalizing v out s with
  | zero => omega
  | succ k ih =>
    by_cases hlt : v.inputOffset < input.length
    · have hspec := decodeStep_spec hlt hout hp
      rw [List.drop_eq_getElem_cons hlt]
      by_cases hseq : SequenceExceeds R n v.inputOffset input[v.inputOffset] (input.drop (v.inputOffset + 1)) out
      · exact ⟨fun hnone => absurd (.here hseq) hnone,fun _ =>
          (decodeStep_exceeds hN hlt hout hp hseq).bind (Sticky.continue (decodeStep_sticky input n) k)⟩
      have hstep := decodeStep_agrees hN hlt hout hseq s
      constructor
      · intro hnone
        refine hstep.bind fun c t ht => ?_
        obtain ⟨v',out',rfl,hmore,hle,hout',hp',-⟩ := Proc.wp_of_done hspec ht
        have hsuffix := (LzLite.step_more_suffix hmore).length_le
        obtain ⟨q,bytes,hbytes,hq,hvalid,rfl,hroom⟩ := step_more_sequence.mp hmore
        simp only [List.length_drop] at hsuffix
        have hlen := congrArg List.length hbytes
        simp only [List.length_cons,List.length_append,List.length_drop] at hlen
        refine (ih hle (by omega) hout' hp').1 fun hover => hnone ?_
        rw [hbytes]
        refine .later hq hvalid hroom ?_
        rwa [show v.inputOffset + bytes.length = v'.inputOffset by omega]
      · intro hover
        generalize hrest : input[v.inputOffset] :: input.drop (v.inputOffset + 1) = rest at hover
        cases hover with
        | here hbad =>
          obtain ⟨rfl,rfl⟩ := List.cons.inj hrest
          exact absurd hbad hseq
        | @later _ q bytes rest' _ hq hvalid hroom hlater =>
          have hpos := List.length_pos_of_ne_nil hq.ne_nil
          have hlen := congrArg List.length hrest
          simp only [List.length_cons,List.length_append,List.length_drop] at hlen
          obtain ⟨v',t,hrun,hoffset,hdrop,hout',hp'⟩ :=
            decodeStep_of_sequence hlt hout hp hrest hq hvalid hroom
          refine hstep.bind_exceeds hrun ((ih (by omega) (by omega) hout' hp').2 ?_)
          rwa [hdrop,hoffset]
    · have hdone : v.inputOffset = input.length := by omega
      have hnone : input[v.inputOffset]? = none := List.getElem?_eq_none (not_lt.mp hlt)
      rw [List.drop_eq_nil_of_le (not_lt.mp hlt)]
      refine ⟨fun _ => ?_,fun hover => ?_⟩
      · refine Agrees.bind (n := Codec.decodeStep input n v) ?_ fun c t ht => ?_
        · rw [sized_decodeStep,decodeStep_eq]
          rw [hnone]
          exact pure_agrees _ s
        · rw [decodeStep_eq] at ht
          rw [hnone] at ht
          obtain ⟨hc,rfl⟩ := Prod.mk.inj ht
          obtain rfl := Outcome.done.inj hc
          exact pure_agrees _ _
      · generalize hrest : ([] : List UInt8) = rest at hover
        cases hover with
        | here _ => exact absurd hrest (by simp)
        | later hq _ _ _ => exact absurd (List.append_eq_nil_iff.mp hrest.symm).1 hq.ne_nil

/-! ### The whole decoder -/

/-- The output buffer can be had. -/
def Granted (n : ℕ) (s : BufferState) : Prop := (resize n ⟨s.buffer.clear,s.heap⟩).1 = true

theorem Granted.produced {n : ℕ} {s : BufferState} (h : Granted n s) :
    Produced n [] (resize n ⟨s.buffer.clear,s.heap⟩).2 :=
  ⟨((MemoryBuffer.resize_spec n ⟨s.buffer.clear,s.heap⟩).2.1 h).1,Nat.zero_le _,rfl⟩

theorem decompressLzLiteBlock_agrees {payload : List UInt8} {n : ℕ} {s : BufferState}
    (hN : 100 < R ∧ payload.length < R) (h : Granted n s → ¬Oversized R n 0 payload []) :
    Agrees ((sized R).decompressLzLiteBlock payload n) (Codec.decompressLzLiteBlock payload n) s := by
  rw [sized_decompressLzLiteBlock,decompressLzLiteBlock_eq]
  refine (plain_agrees _ s).bind fun _ s₁ h₁ => ?_
  obtain ⟨-,rfl⟩ := Prod.mk.inj h₁
  refine (plain_agrees _ _).bind fun resized s₂ h₂ => ?_
  obtain ⟨hresized,rfl⟩ := Prod.mk.inj h₂
  have hresized := Outcome.done.inj hresized
  refine (returnIf_agrees _ _ _).bind fun _ s₃ h₃ => ?_
  obtain ⟨hgranted,rfl⟩ := returnIf_done h₃
  have hgranted : Granted n s := hresized.trans (by simpa using hgranted)
  have hloop := decodeLoop_cases (v := ⟨0,0⟩) hN (payload.length + 1) (Nat.zero_le _) (by simp) rfl
    hgranted.produced
  exact (hloop.1 (h hgranted)).bind fun v s₄ _ => pure_agrees _ s₄

theorem decompressLzLiteBlock_exceeds {payload : List UInt8} {n : ℕ} {s : BufferState}
    (hN : 100 < R ∧ payload.length < R) (hgranted : Granted n s) (hover : Oversized R n 0 payload []) :
    Exceeds ((sized R).decompressLzLiteBlock payload n) s := by
  have hloop := decodeLoop_cases (v := ⟨0,0⟩) hN (payload.length + 1) (Nat.zero_le _) (by simp) rfl
    hgranted.produced
  have hresize : (Proc.lift (resize n) : Proc CompressionError BufferState Bool)
      ⟨s.buffer.clear,s.heap⟩ = (.done true,(resize n ⟨s.buffer.clear,s.heap⟩).2) := by
    rw [← hgranted]
    rfl
  rw [sized_decompressLzLiteBlock]
  refine (plain_agrees _ s).bind_exceeds rfl ((plain_agrees _ _).bind_exceeds hresize ?_)
  exact returnIf_exceeds_later (by simp) ((hloop.2 hover).bind fun _ => pure_sticky _)

/-- No sum leaves the range of `size_t`, the decoder ends as over unbounded integers, and no access
is outside a buffer. -/
structure Exact (R : ℕ) (payload : List UInt8) (n : ℕ) (s : BufferState) : Prop where
  inRange : ((sized R).decompressLzLiteBlock payload n ⟨s,false⟩).2.exceeded = false
  sameOutcome : ((sized R).decompressLzLiteBlock payload n ⟨s,false⟩).1 = (Codec.decompressLzLiteBlock payload n s).1
  sameState : ((sized R).decompressLzLiteBlock payload n ⟨s,false⟩).2.state = (Codec.decompressLzLiteBlock payload n s).2
  inBounds : ((sized R).decompressLzLiteBlock payload n ⟨s,false⟩).1 ≠ .undefined

theorem Exact.of_agrees {payload : List UInt8} {n : ℕ} {s : BufferState}
    (h : Agrees ((sized R).decompressLzLiteBlock payload n) (Codec.decompressLzLiteBlock payload n) s) :
    Exact R payload n s := by
  have hspec := decompressLzLiteBlock_spec payload n s
  unfold Agrees at h
  unfold Proc.wp at hspec
  refine ⟨by rw [h],by rw [h],by rw [h],fun hundefined => ?_⟩
  rw [h] at hundefined
  rcases hrun : Codec.decompressLzLiteBlock payload n s with ⟨o,t⟩
  rw [hrun] at hspec hundefined
  rw [show o = .undefined from hundefined] at hspec
  exact hspec

/-! ### Short payloads -/

theorem length_le_of_field {base bits value : ℕ} {bytes : List UInt8} (h : LengthBytes base bits bytes value)
    (hbits : bits < 16) : value ≤ 14 + base + 255 * bytes.length := by
  cases h with
  | short hne =>
    rw [List.length_nil]
    omega
  | extended k hlast =>
    have hlt := UInt8.toNat_lt ‹UInt8›
    have hne : (‹UInt8›).toNat ≠ 255 := fun h => hlast (UInt8.toNat.inj h)
    rw [List.length_append,List.length_replicate,List.length_singleton]
    omega

theorem announced_le (bits base : ℕ) (rest : List UInt8) (hbits : bits < 16) :
    announced bits base rest ≤ 15 + base + 255 * rest.length := by
  have hsum := runSum_le rest (15 + base)
  unfold announced
  split_ifs <;> omega

theorem MatchExceeds.long {n position : ℕ} {token : UInt8} {rest out : List UInt8}
    (h : MatchExceeds R n position token rest out) (hposition : 1 ≤ position)
    (hout : out.length ≤ 255 * position) : R < 256 * (position + rest.length) := by
  have hmin : kMinMatch = 3 := rfl
  obtain ⟨-,hend | ⟨offset,rest',htake,-,-,hlength⟩⟩ := h
  · omega
  obtain ⟨low,high,rfl,-⟩ := takeOffset_iff.mp htake
  rw [List.length_cons,List.length_cons]
  rcases hlength with hannounced | ⟨length,rest'',hfield,hsum⟩
  · have hle := announced_le _ kMinMatch rest' (low_lt token)
    omega
  · obtain ⟨bytes,rfl,hbytes⟩ := lengthField_iff.mp hfield
    have hle := length_le_of_field hbytes (low_lt token)
    rw [List.length_append]
    omega

theorem SequenceExceeds.long {n position : ℕ} {token : UInt8} {tail out : List UInt8}
    (h : SequenceExceeds R n position token tail out) (hout : out.length ≤ 255 * position) :
    R < 256 * (position + (token :: tail).length) := by
  rw [List.length_cons]
  rcases h with hannounced | ⟨length,rest,hfield,hliterals⟩
  · have hle := announced_le _ 0 tail (high_lt token)
    omega
  obtain ⟨bytes,rfl,hbytes⟩ := lengthField_iff.mp hfield
  have hle := length_le_of_field hbytes (high_lt token)
  rw [List.length_append] at hliterals ⊢
  rcases hliterals with hinput | ⟨hfits,houtput | ⟨-,hmatch⟩⟩
  · omega
  · omega
  · have htaken : (rest.take length).length = length := by
      rw [List.length_take]
      omega
    have hlong := hmatch.long (by omega) (by rw [List.length_append,htaken]; omega)
    rw [List.length_drop] at hlong
    omega

/-- Each byte of a payload stands for at most 255 bytes of output. -/
theorem expand_length_le {s : LzSequence UInt8} {bytes out : List UInt8} (hs : SequenceBytes s bytes)
    (hvalid : s.Valid kMinMatch 0xFFFF out) :
    (expand out s).length ≤ out.length + 255 * bytes.length := by
  have hmin : kMinMatch = 3 := rfl
  rw [hvalid.expand_length]
  cases hs with
  | mk token low high hliterals hoffset hmatch =>
    have hlength := length_le_of_field hmatch (low_lt token)
    simp only [List.length_cons,List.length_append]
    omega

/-- Only a payload longer than a 256th of the range leaves it. -/
theorem Oversized.long {n position : ℕ} {rest out : List UInt8} (h : Oversized R n position rest out)
    (hout : out.length ≤ 255 * position) : R < 256 * (position + rest.length) := by
  induction h with
  | here hseq => exact hseq.long hout
  | later hs hvalid _ _ ih =>
    have hexpand := expand_length_le hs hvalid
    have hlong := ih (by omega)
    rw [List.length_append]
    omega

/-- A payload of at most a 256th of the range keeps the decoder in it. -/
theorem exact_of_length_le {payload : List UInt8} (n : ℕ) (s : BufferState) (hR : 100 < R)
    (h : 256 * payload.length ≤ R) : Exact R payload n s := by
  refine .of_agrees (decompressLzLiteBlock_agrees (by omega) fun _ hover => ?_)
  have hlong := hover.long (Nat.zero_le _)
  omega

/-- For the stored and original sizes that the block header's checks let through, the decoder in
32-bit arithmetic is the unbounded one exactly if no sequence after valid ones announces a length
that, alone or added to a position, leaves the range; it is for all payloads of at most 2^24 bytes. -/
theorem exact_iff (payload : List UInt8) (n : ℕ) (s : BufferState) (hstored : payload.length ≤ n)
    (horiginal : n < sizeRange) :
    (Exact sizeRange payload n s ↔ (Granted n s → ¬Oversized sizeRange n 0 payload [])) ∧
      (payload.length ≤ 16777216 → Exact sizeRange payload n s) := by
  have hrange : sizeRange = 4294967296 := rfl
  refine ⟨⟨fun h hgranted hover => ?_,fun h => ?_⟩,fun h => ?_⟩
  · have hexceeds := decompressLzLiteBlock_exceeds (by omega) hgranted hover
    unfold Exceeds at hexceeds
    rw [h.inRange] at hexceeds
    exact absurd hexceeds (by simp)
  · exact .of_agrees (decompressLzLiteBlock_agrees (by omega) h)
  · exact exact_of_length_le n s (by omega) (by omega)

/-! ### The target of a heap -/

theorem wrapping_coupled {h : Heap} {w : ℕ} (hw : h.sizeBits = some w) :
    (wrapping h).Coupled (sized (2 ^ w)) fun s t => s = t.state where
  access _ m := by
    refine ⟨fun _ => trivial,?_⟩
    rintro _ t rfl
    change Proc.Paired _ _ (m t.state) ((m t.state).1,Sized.mk (m t.state).2 t.exceeded)
    rcases m t.state with ⟨o,s⟩
    cases o with
    | done a => exact .done rfl
    | returned r => exact .returned rfl
    | pending => exact .pending rfl
    | undefined => exact .undefined
  add a b := by
    refine ⟨fun _ => trivial,?_⟩
    rintro _ t rfl
    have hwrap : h.wrap (a + b) = (a + b) % 2 ^ w := by rw [Heap.wrap,hw]
    change Proc.Paired _ _ (.done (h.wrap (a + b)),t.state)
      (.done ((a + b) % 2 ^ w),Sized.mk t.state (t.exceeded || decide (2 ^ w ≤ a + b)))
    rw [hwrap]
    exact .done rfl

/-- What a procedure alongside another one does. -/
theorem eq_of_alongside {m : Proc ρ BufferState α} {n : Proc ρ Sized α}
    (h : Proc.Alongside (fun s t => s = t.state) m n) {s : BufferState} (hdefined : (n ⟨s,false⟩).1 ≠ .undefined) :
    m s = ((n ⟨s,false⟩).1,(n ⟨s,false⟩).2.state) := by
  have hends := h.ends s ⟨s,false⟩ rfl
  generalize m s = x at hends ⊢
  generalize n ⟨s,false⟩ = y at hends hdefined ⊢
  cases hends with
  | done hsame => exact Prod.ext rfl hsame
  | returned hsame => exact Prod.ext rfl hsame
  | pending hsame => exact Prod.ext rfl hsame
  | undefined => exact absurd rfl hdefined
  | stopped hstop _ => exact hstop.elim

/-- On a payload whose sums the target holds, its decoder is the unbounded one. -/
theorem decompressLzLiteBlockOn_eq {h : Heap} {payload : List UInt8} (hsums : h.HoldsSums payload.length)
    (hle : payload.length ≤ uint32Max) (n : ℕ) :
    decompressLzLiteBlockOn h payload n = Codec.decompressLzLiteBlock payload n := by
  unfold decompressLzLiteBlockOn
  cases hw : h.sizeBits with
  | none =>
    have hsame : wrapping h = unbounded := by
      unfold wrapping unbounded Heap.wrap
      simp only [hw]
    rw [hsame]
    rfl
  | some w =>
    by_cases hnil : payload = []
    · subst hnil
      rfl
    have hpos := List.length_pos_of_ne_nil hnil
    have hR := hsums w hw
    rw [min_eq_left hle] at hR
    funext s
    have hexact : Exact (2 ^ w) payload n s := exact_of_length_le n s (by omega) hR
    rw [eq_of_alongside ((wrapping_coupled hw).decompressLzLiteBlock payload n) hexact.inBounds,
      hexact.sameOutcome,hexact.sameState]

/-! ### A copy outside the buffers -/

theorem bind_undefined {m : Proc ρ Sized α} {f : α → Proc ρ Sized β} {s s' : Sized} {a : α}
    (hm : m s = (.done a,s')) (h : (f a s').1 = .undefined) : ((m >>= f) s).1 = .undefined := by
  rw [Proc.bind_apply,hm]
  exact h

/-- Where the end of the literals wraps around in the input and lies within the block, wrapped around
or not, in the output, `memcpy` reads behind the input. -/
theorem decodeStep_undefined {input rest : List UInt8} {n length : ℕ} {v : DecodeVars}
    (hN : 100 < R ∧ input.length < R) (hin : v.inputOffset < input.length)
    (hfield : lengthField (input[v.inputOffset] >>> 4 &&& 0x0F).toNat 0
      (input.drop (v.inputOffset + 1)) = some (length,rest)) (hlt : length < R)
    (hinput : R ≤ input.length - rest.length + length)
    (houtput : (v.outputOffset + length) % R ≤ n) (s : BufferState) :
    ((sized R).decodeStep input n v ⟨s,false⟩).1 = .undefined := by
  rw [sized_decodeStep]
  rw [List.getElem?_eq_getElem hin]
  dsimp only
  generalize input[v.inputOffset] = token at hfield ⊢
  have htoken : (v.inputOffset + 1) % R = v.inputOffset + 1 := Nat.mod_eq_of_lt (by omega)
  obtain ⟨next,hdone,hnext,rfl⟩ := readLength_of_field (Nat.succ_le_of_lt hin) hfield s
  rw [List.length_drop] at hinput
  have hread := (readLength_cases hN (show (0 : ℕ) ≤ 3 by omega) (high_lt token)
    (Nat.succ_le_of_lt hin) s).1 (by rwa [announced_eq hfield])
  rw [Agrees,hdone] at hread
  have hwrapped : (next + length) % R = next + length - R := by
    rw [Nat.mod_eq_sub_mod (by omega),Nat.mod_eq_of_lt (by omega)]
  have hadd : (add R v.inputOffset 1 : Proc CompressionError Sized ℕ) ⟨s,false⟩ =
      (.done (v.inputOffset + 1),⟨s,false⟩) := by
    unfold add
    rw [htoken,decide_eq_false (by omega)]
    rfl
  refine bind_undefined hadd (bind_undefined hread (bind_undefined rfl ?_))
  rw [Proc.returnIf,if_neg (by dsimp only; omega)]
  refine bind_undefined rfl (bind_undefined rfl ?_)
  rw [Proc.returnIf,if_neg (not_lt.mpr houtput)]
  refine bind_undefined rfl ?_
  have hcopy : copyLiterals input next v.outputOffset length = Proc.undef := if_neg (by omega)
  rw [hcopy]
  rfl

/-- A valid sequence whose ends in the input and in the output are within the range makes no sum
leave it. -/
theorem sequence_within {n position : ℕ} {token : UInt8} {tail bytes rest out : List UInt8}
    {q : LzSequence UInt8} (hbytes : token :: tail = bytes ++ rest) (hq : SequenceBytes q bytes)
    (hinput : position + bytes.length < R)
    (houtput : out.length + q.literals.length + q.length < R) :
    ¬SequenceExceeds R n position token tail out := by
  cases hq with
  | @mk token' low high literalBytes matchBytes hliteral hoffset hmatch =>
    rw [List.cons_append] at hbytes
    obtain ⟨rfl,rfl⟩ := List.cons.inj hbytes
    simp only [List.length_cons,List.length_append] at hinput
    have hliterals : lengthField (token >>> 4 &&& 0x0F).toNat 0
        (literalBytes ++ (q.literals ++ low :: high :: matchBytes) ++ rest) =
        some (q.literals.length,q.literals ++ low :: high :: matchBytes ++ rest) :=
      lengthField_iff.mpr ⟨literalBytes,by rw [List.append_assoc],hliteral⟩
    rintro (hannounced | ⟨length,rest',hfield,hmore⟩)
    · rw [announced_eq hliterals] at hannounced
      omega
    rw [hliterals] at hfield
    obtain ⟨rfl,rfl⟩ := Prod.mk.inj (Option.some.inj hfield)
    have hposition : position + 1 + ((literalBytes ++ (q.literals ++ low :: high :: matchBytes) ++ rest).length -
        (q.literals ++ low :: high :: matchBytes ++ rest).length) = position + 1 + literalBytes.length := by
      simp only [List.length_append,List.length_cons]
      omega
    rw [hposition,List.append_assoc,List.drop_left] at hmore
    rcases hmore with hend | ⟨-,hend | ⟨-,-,hend | ⟨offset,rest'',htake,-,-,hlength⟩⟩⟩
    · omega
    · omega
    · omega
    · obtain ⟨-,rfl⟩ := Prod.mk.inj (Option.some.inj htake)
      have hmatched : lengthField (token &&& 0x0F).toNat kMinMatch (matchBytes ++ rest) =
          some (q.length,rest) := lengthField_iff.mpr ⟨matchBytes,rfl,hmatch⟩
      rcases hlength with hannounced | ⟨length,rest'',hfield,hend⟩
      · rw [List.append_eq,announced_eq hmatched] at hannounced
        omega
      · rw [List.append_eq,hmatched] at hfield
        obtain ⟨rfl,-⟩ := Prod.mk.inj (Option.some.inj hfield)
        rw [List.length_append,List.length_take,List.length_append] at hend
        omega

/-- After a sequence within the range, one whose literals wrap around makes the decoder copy outside
its buffers. -/
theorem decompressLzLiteBlock_undefined {payload bytes tail rest : List UInt8} {token : UInt8}
    {n length : ℕ} {q : LzSequence UInt8} {s : BufferState} (hN : 100 < R ∧ payload.length < R)
    (hn : n < R) (hgranted : Granted n s) (hpayload : payload = bytes ++ token :: tail)
    (hq : SequenceBytes q bytes) (hvalid : q.Valid kMinMatch 0xFFFF []) (hroom : (expand [] q).length ≤ n)
    (hfield : lengthField (token >>> 4 &&& 0x0F).toNat 0 tail = some (length,rest))
    (hlt : length < R) (hinput : R ≤ payload.length - rest.length + length)
    (houtput : ((expand [] q).length + length) % R ≤ n) :
    ((sized R).decompressLzLiteBlock payload n ⟨s,false⟩).1 = .undefined := by
  have hlen := congrArg List.length hpayload
  rw [List.length_append,List.length_cons] at hlen
  have hpos := List.length_pos_of_ne_nil hq.ne_nil
  have hin : 0 < payload.length := by omega
  have hfirst : payload[0] :: payload.drop 1 = bytes ++ token :: tail := by
    rw [← hpayload,← List.drop_eq_getElem_cons hin,List.drop_zero]
  have hexpand := hvalid.expand_length
  rw [List.length_nil] at hexpand
  have hwithin : ¬SequenceExceeds R n 0 payload[0] (payload.drop 1) [] :=
    sequence_within hfirst hq (by omega) (by rw [List.length_nil]; omega)
  obtain ⟨v,t,hrun,hoffset,hdrop,hout,hp⟩ := decodeStep_of_sequence (v := ⟨0,0⟩) hin rfl
    hgranted.produced hfirst hq hvalid hroom
  have hstep := decodeStep_agrees (v := ⟨0,0⟩) hN hin rfl hwithin
    (resize n ⟨s.buffer.clear,s.heap⟩).2
  rw [Agrees,hrun] at hstep
  have hoffset : v.inputOffset = bytes.length := by
    rw [hoffset]
    exact Nat.zero_add _
  have hv : v.inputOffset < payload.length := by omega
  rw [List.drop_eq_getElem_cons hv] at hdrop
  obtain ⟨htoken,htail⟩ := List.cons.inj hdrop
  have hlast := decodeStep_undefined (n := n) hN hv (by rwa [htoken,htail]) hlt hinput
    (by rwa [hout]) t
  have hresize : (Proc.lift (resize n) : Proc CompressionError BufferState Bool)
      ⟨s.buffer.clear,s.heap⟩ = (.done true,(resize n ⟨s.buffer.clear,s.heap⟩).2) := by
    rw [← hgranted]
    rfl
  have hlift : plain (Proc.lift (resize n) : Proc CompressionError BufferState Bool)
      ⟨⟨s.buffer.clear,s.heap⟩,false⟩ = (.done true,⟨(resize n ⟨s.buffer.clear,s.heap⟩).2,false⟩) := by
    rw [plain,hresize]
  obtain ⟨k,hk⟩ : ∃ k, payload.length = k + 1 := ⟨payload.length - 1,by omega⟩
  rw [sized_decompressLzLiteBlock]
  refine bind_undefined rfl (bind_undefined hlift ?_)
  rw [Proc.returnIf,if_neg (by simp)]
  refine bind_undefined rfl ?_
  rw [Proc.bind_apply,hk,Proc.loop,Proc.bind_apply,hstep]
  dsimp only
  rw [Proc.loop,Proc.bind_apply]
  generalize (sized R).decodeStep payload n v ⟨t,false⟩ = x at hlast ⊢
  obtain ⟨o,t'⟩ := x
  obtain rfl : o = .undefined := hlast
  rfl

/-- One letter, and a match that copies it 2^24 - 1 times. -/
def longMatch : List UInt8 := 0x1F :: 0 :: 1 :: 0 :: (List.replicate 65792 255 ++ [237])

/-- A literal length of 2^32 - 2^24, and no literals. -/
def hugeLiterals : List UInt8 := 0xF0 :: (List.replicate 16777215 255 ++ [240])

/-- A payload of 16843014 bytes. -/
def wrappingPayload : List UInt8 := longMatch ++ hugeLiterals

/-- `k` bytes of 255 between two others. -/
theorem run_length (first : List UInt8) (k : ℕ) (last : UInt8) :
    (first ++ (List.replicate k 255 ++ [last])).length = first.length + (k + 1) := by
  rw [List.length_append,List.length_append,List.length_replicate,List.length_singleton]

theorem longMatch_length : longMatch.length = 65797 := run_length [0x1F,0,1,0] 65792 237

theorem hugeLiterals_length : hugeLiterals.length = 16777217 := run_length [0xF0] 16777215 240

theorem wrappingPayload_length : wrappingPayload.length = 16843014 := by
  rw [wrappingPayload,List.length_append,longMatch_length,hugeLiterals_length]

/-- One letter and a match of it, whose length has `k` extra bytes of 255. -/
theorem repeated_bytes (k : ℕ) {last : UInt8} (hlast : last ≠ 255) :
    SequenceBytes ⟨[0],1,15 + kMinMatch + 255 * k + last.toNat⟩
      (0x1F :: 0 :: 1 :: 0 :: (List.replicate k 255 ++ [last])) := by
  have hliteral : LengthBytes 0 ((0x1F : UInt8) >>> 4 &&& 0x0F).toNat [] 1 := .short (by decide)
  have hmatch : LengthBytes kMinMatch ((0x1F : UInt8) &&& 0x0F).toNat (List.replicate k 255 ++ [last])
      (15 + kMinMatch + 255 * k + last.toNat) := .extended k hlast
  exact .mk (s := ⟨[0],1,15 + kMinMatch + 255 * k + last.toNat⟩) 0x1F 1 0 hliteral rfl hmatch

theorem longMatch_bytes : SequenceBytes ⟨[0],1,16777215⟩ longMatch := by
  have hne : (237 : UInt8) ≠ 255 := by decide
  have hvalue : 15 + kMinMatch + 255 * 65792 + (237 : UInt8).toNat = 16777215 := rfl
  have h := repeated_bytes 65792 hne
  rw [hvalue] at h
  unfold longMatch
  exact h

theorem hugeLiterals_field : lengthField ((0xF0 : UInt8) >>> 4 &&& 0x0F).toNat 0
    (List.replicate 16777215 255 ++ [240]) = some (4278190080,[]) := by
  have hvalue : 15 + 0 + 255 * 16777215 + (240 : UInt8).toNat = 4278190080 := rfl
  have hlength : LengthBytes 0 15 (List.replicate 16777215 255 ++ [240])
      (15 + 0 + 255 * 16777215 + (240 : UInt8).toNat) := .extended 16777215 (by decide)
  rw [hvalue] at hlength
  have hbits : ((0xF0 : UInt8) >>> 4 &&& 0x0F).toNat = 15 := rfl
  rw [hbits]
  exact lengthField_iff.mpr ⟨_,(List.append_nil _).symm,hlength⟩

theorem longMatch_valid : (⟨[0],1,16777215⟩ : LzSequence UInt8).Valid kMinMatch 0xFFFF [] where
  offset_pos := le_refl _
  offset_le_window := by dsimp only; omega
  offset_le_length := le_refl _
  minMatch_le := by
    have hmin : kMinMatch = 3 := rfl
    dsimp only
    omega

/-- No memory in use, and a 32-bit heap that grants everything. -/
def roomyState : BufferState := ⟨MemoryBuffer.new,⟨some 32,fun _ => some fun _ => 0,0⟩⟩

theorem roomyState_granted (n : ℕ) : Granted n roomyState := by
  by_contra hrefused
  have hnone := ((MemoryBuffer.resize_spec n ⟨roomyState.buffer.clear,roomyState.heap⟩).2.2
    (Bool.eq_false_iff.mpr hrefused)).2
  exact absurd hnone (by simp [roomyState])

theorem wrappingPayload_undefined :
    ((sized sizeRange).decompressLzLiteBlock wrappingPayload 16843014 ⟨roomyState,false⟩).1 = .undefined := by
  have hrange : (16843014 : ℕ) < sizeRange := by decide
  have hrange' : sizeRange = 4294967296 := rfl
  have hlen := wrappingPayload_length
  have hexpand := longMatch_valid.expand_length
  dsimp only at hexpand
  rw [List.length_nil,List.length_singleton] at hexpand
  exact decompressLzLiteBlock_undefined (n := 16843014) (by rw [hlen]; omega) hrange (roomyState_granted _) rfl
    longMatch_bytes longMatch_valid (by omega) hugeLiterals_field (by decide)
    (by rw [hlen,List.length_nil]; omega) (by rw [hexpand,hrange']; decide)

/-- The checks let the payload through, and the decoder copies outside its buffers. -/
theorem wrapping_overruns : wrappingPayload.length ≤ 16843014 ∧ 16843014 < sizeRange ∧
    ((sized sizeRange).decompressLzLiteBlock wrappingPayload 16843014 ⟨roomyState,false⟩).1 = .undefined ∧
    ¬Exact sizeRange wrappingPayload 16843014 roomyState :=
  ⟨wrappingPayload_length.le,by decide,wrappingPayload_undefined,fun h => h.inBounds wrappingPayload_undefined⟩

/-- A letter and a match of it are decoded within the range; the other payload is not. -/
theorem exact_iff_run :
    (Exact sizeRange [0x1F,0,1,0,237] 256 roomyState ∧ ¬Oversized sizeRange 256 0 [0x1F,0,1,0,237] []) ∧
    ¬Exact sizeRange wrappingPayload 16843014 roomyState ∧
      Oversized sizeRange 16843014 0 wrappingPayload [] := by
  constructor
  · obtain ⟨hiff,hshort⟩ := exact_iff [0x1F,0,1,0,237] 256 roomyState (by decide) (by decide)
    have hexact := hshort (by decide)
    exact ⟨hexact,hiff.mp hexact (roomyState_granted 256)⟩
  · obtain ⟨hiff,-⟩ := exact_iff wrappingPayload 16843014 roomyState wrappingPayload_length.le (by decide)
    have hnot : ¬Exact sizeRange wrappingPayload 16843014 roomyState := fun h => h.inBounds wrappingPayload_undefined
    exact ⟨hnot,not_not.mp fun hnone => hnot (hiff.mpr fun _ => hnone)⟩

end Narrow
end Codec
end EspCompressor
