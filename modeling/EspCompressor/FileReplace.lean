import EspCompressor.FileSink
import EspCompressor.IoContracts

/-! What the calls of `FileSink` do to a disk whose calls may fail: which calls they are, and
what is then at the destination and at its two side names. -/
namespace EspCompressor

theorem tempPath_ne (p : Path) : tempPath p ≠ p := by simp [tempPath]
theorem backupPath_ne (p : Path) : backupPath p ≠ p := by simp [backupPath]
theorem tempPath_ne_backupPath (p : Path) : tempPath p ≠ backupPath p := by
  simp [tempPath,backupPath]

/-! ### Frames -/

/-- The paths that a call may change. -/
def FsCall.touches : FsCall → Path → Prop
  | .exists' _,_ => False
  | .mkdir path,q => q = path
  | .openWrite path,q => q = path
  | .write path _,q => q = path
  | .close _,_ => False
  | .remove path,q => q = path
  | .rename pathFrom pathTo,q => q = pathFrom ∨ q = pathTo

theorem FsEvent.Sound.frame {e : FsEvent} (h : e.Sound) {q : Path} (hq : ¬e.call.touches q) :
    e.after q = e.before q := by
  rcases e with ⟨call,ok,before,after⟩
  cases call with
  | exists' path => rw [h.2]
  | mkdir path =>
    cases ok with
    | true => rw [h.2]; exact Function.update_of_ne hq _ _
    | false => rw [h]
  | openWrite path =>
    cases ok with
    | true => rw [h]; exact Function.update_of_ne hq _ _
    | false => rw [h]
  | write path bytes => exact h q hq
  | close path => rw [h]
  | remove path =>
    cases ok with
    | true => rw [h.2]; exact Function.update_of_ne hq _ _
    | false => rw [h]
  | rename pathFrom pathTo =>
    cases ok with
    | true =>
      obtain ⟨content,-,hafter⟩ := h
      obtain ⟨hfrom,hto⟩ := not_or.mp hq
      rw [hafter,Function.update_of_ne hto,Function.update_of_ne hfrom]
    | false => rw [h]

/-- A path that no call touches keeps its content. -/
theorem Chain.frame {d d' : Disk} {es : List FsEvent} (h : Chain d es d') {q : Path}
    (hq : ∀ e ∈ es, ¬e.call.touches q) : d' q = d q := by
  induction h with
  | nil d => rfl
  | cons hsound _ ih =>
    rw [ih fun e he => hq e (List.mem_cons_of_mem _ he)]
    exact hsound.frame (hq _ List.mem_cons_self)

theorem Chain.sound {d d' : Disk} {es : List FsEvent} (h : Chain d es d') :
    ∀ e ∈ es, e.Sound := by
  induction h with
  | nil d => simp
  | cons hsound _ ih => exact List.forall_mem_cons.mpr ⟨hsound,ih⟩

theorem Runs.sound {s s' : DiskState} {e : FsEvent} (h : Runs s [e] s') : e.Sound :=
  h.chain.sound e (List.mem_singleton_self e)

/-! ### Which calls -/

/-- The calls that a sink of `p` makes. -/
def SinkCall (p : Path) : FsCall → Prop
  | .exists' _ => True
  | .mkdir q => q.length < p.length
  | .openWrite q => q = tempPath p
  | .write q _ => q = tempPath p
  | .close q => q = tempPath p
  | .remove q => q = tempPath p ∨ q = backupPath p
  | .rename a c => a = p ∧ c = backupPath p ∨ a = tempPath p ∧ c = p ∨ a = backupPath p ∧ c = p

/-- A call outside `commit`. -/
def Prelude (p : Path) (e : FsEvent) : Prop := SinkCall p e.call ∧ ∀ a c, e.call ≠ .rename a c

/-- A call of a sink of `p` that stages `w`: the staged file is complete when it is moved, and the
backup is moved back only to where nothing is. -/
structure JobEvent (p : Path) (w : List UInt8) (e : FsEvent) : Prop where
  call : SinkCall p e.call
  complete : e.call = .rename (tempPath p) p → e.before (tempPath p) = some (.file w)
  vacant : e.call = .rename (backupPath p) p → e.before p = none

def RollbackFailed (p : Path) (e : FsEvent) : Prop :=
  e.call = .rename (backupPath p) p ∧ e.ok = false

def DropsBackup (p : Path) (e : FsEvent) : Prop := e.call = .remove (backupPath p) ∧ e.ok = true

/-- Every removal that was tried succeeded. -/
def RemovalsSucceed (es : List FsEvent) : Prop := ∀ e ∈ es, ∀ q, e.call = .remove q → e.ok = true

instance (es : List FsEvent) : Decidable (RemovalsSucceed es) :=
  decidable_of_iff (∀ e ∈ es, (match e.call with | .remove _ => e.ok | _ => true) = true) <| by
    refine forall₂_congr fun e _ => ?_
    cases e.call <;> simp

theorem RemovalsSucceed.of_append {es es' : List FsEvent} (h : RemovalsSucceed (es ++ es')) :
    RemovalsSucceed es ∧ RemovalsSucceed es' :=
  ⟨fun e he => h e (List.mem_append_left _ he),fun e he => h e (List.mem_append_right _ he)⟩

theorem Prelude.jobEvent {p : Path} {e : FsEvent} (h : Prelude p e) (w : List UInt8) :
    JobEvent p w e :=
  ⟨h.1,fun hc => absurd hc (h.2 _ _),fun hc => absurd hc (h.2 _ _)⟩

theorem Prelude.not_rollbackFailed {p : Path} {e : FsEvent} (h : Prelude p e) :
    ¬RollbackFailed p e := fun hr => h.2 _ _ hr.1

theorem Prelude.not_touches {p : Path} {e : FsEvent} (h : Prelude p e) : ¬e.call.touches p := by
  rcases e with ⟨call,ok,before,after⟩
  cases call with
  | exists' path => exact id
  | mkdir path => exact fun ht => absurd h.1 (by rw [← show p = path from ht]; exact lt_irrefl _)
  | openWrite path => exact fun ht => tempPath_ne p ((show p = path from ht).trans h.1).symm
  | write path bytes => exact fun ht => tempPath_ne p ((show p = path from ht).trans h.1).symm
  | close path => exact id
  | remove path =>
    intro ht
    rcases h.1 with hp | hp
    · exact tempPath_ne p ((show p = path from ht).trans hp).symm
    · exact backupPath_ne p ((show p = path from ht).trans hp).symm
  | rename a c => exact absurd rfl (h.2 a c)

/-- At other paths a sink makes directories at most. -/
theorem SinkCall.others {p q : Path} {e : FsEvent} (h : SinkCall p e.call) (hsound : e.Sound)
    (hp : q ≠ p) (ht : q ≠ tempPath p) (hb : q ≠ backupPath p) :
    e.after q = e.before q ∨ e.before q = none ∧ e.after q = some .dir := by
  by_cases htouch : e.call.touches q
  · rcases e with ⟨call,ok,before,after⟩
    cases call with
    | exists' path => exact htouch.elim
    | mkdir path =>
      cases ok with
      | true =>
        right
        rw [show q = path from htouch,hsound.2]
        exact ⟨hsound.1,Function.update_self _ _ _⟩
      | false => left; rw [hsound]
    | openWrite path => exact absurd ((show q = path from htouch).trans h) ht
    | write path bytes => exact absurd ((show q = path from htouch).trans h) ht
    | close path => exact htouch.elim
    | remove path =>
      rcases h with h | h
      · exact absurd ((show q = path from htouch).trans h) ht
      · exact absurd ((show q = path from htouch).trans h) hb
    | rename a c =>
      rcases h with ⟨rfl,rfl⟩ | ⟨rfl,rfl⟩ | ⟨rfl,rfl⟩ <;> rcases htouch with h | h <;>
        exact absurd h ‹_›
  · exact .inl (hsound.frame htouch)

theorem Chain.others {p q : Path} {d d' : Disk} {es : List FsEvent} (h : Chain d es d')
    (hcall : ∀ e ∈ es, SinkCall p e.call) (hp : q ≠ p) (ht : q ≠ tempPath p)
    (hb : q ≠ backupPath p) : d' q = d q ∨ d q = none ∧ d' q = some .dir := by
  induction h with
  | nil d => exact .inl rfl
  | @cons e es d hsound _ ih =>
    have htail := ih fun e he => hcall e (List.mem_cons_of_mem _ he)
    have hhead := SinkCall.others (hcall e List.mem_cons_self) hsound hp ht hb
    rcases hhead with hhead | ⟨hnone,hdir⟩
    · rwa [hhead] at htail
    · rcases htail with htail | ⟨htail,-⟩
      · exact .inr ⟨hnone,htail.trans hdir⟩
      · rw [hdir] at htail
        exact absurd htail (by simp)

/-! ### Cleaning up -/

namespace FileSink

/-- The calls of a cleanup of `q`. -/
def Cleans (q : Path) (e : FsEvent) : Prop := e.call = .exists' q ∨ e.call = .remove q

/-- A cleanup changes no more than the path it cleans, and empties it unless a removal fails. -/
theorem cleanup_spec (q : Path) (k : FileSink DiskState) :
    ∃ es s, cleanup diskFileSystem q k = { k with fs := s } ∧ Runs k.fs es s ∧
      (∀ e ∈ es, Cleans q e) ∧ (RemovalsSucceed es → s.disk q = none) := by
  have hlook := DiskState.exists_runs q k.fs
  unfold cleanup ask
  dsimp only [diskFileSystem]
  by_cases hpresent : (k.fs.exists' q).1 = true
  · have hdrop := DiskState.remove_runs q (k.fs.exists' q).2
    rw [if_pos hpresent]
    refine ⟨_,_,rfl,hlook.trans hdrop,?_,fun hok => ?_⟩
    · intro e he
      simp only [List.cons_append,List.nil_append,List.mem_cons,List.not_mem_nil,or_false] at he
      rcases he with rfl | rfl
      · exact .inl rfl
      · exact .inr rfl
    · have htrue := hok _ (List.mem_append_right _ (List.mem_singleton_self _)) q rfl
      have hsound := hdrop.sound
      simp only [FsEvent.Sound] at hsound htrue
      rw [if_pos htrue] at hsound
      rw [hsound.2,Function.update_self]
  · rw [if_neg hpresent]
    refine ⟨_,_,rfl,hlook,?_,fun _ => ?_⟩
    · intro e he
      rw [List.mem_singleton.mp he]
      exact .inl rfl
    · have hnone : (k.fs.disk q).isSome = false := by
        simpa [DiskState.exists'] using hpresent
      simpa [DiskState.exists',DiskState.perform] using hnone

theorem Cleans.prelude {p q : Path} {e : FsEvent} (h : Cleans q e)
    (hq : q = tempPath p ∨ q = backupPath p) : Prelude p e := by
  rcases e with ⟨call,ok,before,after⟩
  rcases h with rfl | rfl
  · exact ⟨trivial,fun _ _ hc => by simp at hc⟩
  · exact ⟨hq,fun _ _ hc => by simp at hc⟩

theorem Cleans.not_touches {q r : Path} {e : FsEvent} (h : Cleans q e) (hr : r ≠ q) :
    ¬e.call.touches r := by
  rcases h with h | h
  · rw [h]; exact id
  · rw [h]; exact hr

/-! ### Opening and writing -/

/-- A sink of `p` that came from `s₀` by calls outside `commit`. -/
structure Prior (p : Path) (s₀ : DiskState) (k : FileSink DiskState) : Prop where
  path_eq : k.path = p
  runs : ∃ es, Runs s₀ es k.fs ∧ ∀ e ∈ es, Prelude p e

/-- An open sink of `p` whose staged file holds `w`. -/
structure Writing (p : Path) (s₀ : DiskState) (w : List UInt8) (k : FileSink DiskState) : Prop
    extends Prior p s₀ k where
  file : k.file = true
  isOpen : k.isOpen = true
  staged : k.fs.disk (tempPath p) = some (.file w)
  written : k.written = UInt64.ofNat w.length

theorem Prior.start (k : FileSink DiskState) : Prior k.path k.fs k :=
  ⟨rfl,[],Runs.refl _,by simp⟩

/-- More calls outside `commit`. -/
theorem Prior.more {p : Path} {s₀ : DiskState} {k k' : FileSink DiskState} {es : List FsEvent}
    (h : Prior p s₀ k) (hpath : k'.path = k.path) (hruns : Runs k.fs es k'.fs)
    (hes : ∀ e ∈ es, Prelude p e) : Prior p s₀ k' := by
  obtain ⟨es₀,hruns₀,hes₀⟩ := h.runs
  refine ⟨hpath.trans h.path_eq,es₀ ++ es,hruns₀.trans hruns,fun e he => ?_⟩
  rcases List.mem_append.mp he with he | he
  · exact hes₀ e he
  · exact hes e he

theorem Prior.cleanup {p q : Path} {s₀ : DiskState} {k : FileSink DiskState} (h : Prior p s₀ k)
    (hq : q = tempPath p ∨ q = backupPath p) : Prior p s₀ (cleanup diskFileSystem q k) := by
  obtain ⟨es,s,hk,hruns,hes,-⟩ := cleanup_spec q k
  rw [hk]
  exact h.more rfl hruns fun e he => (hes e he).prelude hq

theorem Prior.cleanupTemp {p : Path} {s₀ : DiskState} {k : FileSink DiskState} (h : Prior p s₀ k) :
    Prior p s₀ (cleanupTemp diskFileSystem k) := h.cleanup (.inl (by rw [h.path_eq]))

theorem Prior.cleanupBackup {p : Path} {s₀ : DiskState} {k : FileSink DiskState}
    (h : Prior p s₀ k) : Prior p s₀ (cleanupBackup diskFileSystem k) :=
  h.cleanup (.inr (by rw [h.path_eq]))

/-- Making directories only looks and makes directories above the path. -/
theorem ensureDirWithin_runs {p : Path} (n : ℕ) (path : Path) (s : DiskState)
    (hp : path.length < p.length) :
    ∃ es, Runs s es (ensureDirWithin diskFileSystem n path s).2 ∧ ∀ e ∈ es, Prelude p e := by
  induction n generalizing path s with
  | zero => exact ⟨[],Runs.refl s,by simp⟩
  | succ n ih =>
    have hlook := DiskState.exists_runs path s
    have hlookEvent (ok : Bool) (d d' : Disk) : Prelude p ⟨.exists' path,ok,d,d'⟩ :=
      ⟨trivial,fun _ _ hc => by simp at hc⟩
    have hmakeEvent (ok : Bool) (d d' : Disk) : Prelude p ⟨.mkdir path,ok,d,d'⟩ :=
      ⟨hp,fun _ _ hc => by simp at hc⟩
    have hparentLt (hroot : ¬(path = [] ∨ path = ['/'])) :
        (espCompressorDirname path).length < p.length :=
      (espCompressorDirname_length_lt (fun h => hroot (.inl h)) fun h => hroot (.inr h)).trans hp
    unfold ensureDirWithin
    dsimp only [diskFileSystem] at ih ⊢
    split_ifs with hroot hpresent hparent hmade
    · exact ⟨[],Runs.refl s,by simp⟩
    · exact ⟨_,hlook,by simpa using hlookEvent _ _ _⟩
    · obtain ⟨es,hruns,hes⟩ := ih (espCompressorDirname path) (s.exists' path).2 (hparentLt hroot)
      refine ⟨_,(hlook.trans hruns).trans (DiskState.mkdir_runs path _),fun e he => ?_⟩
      simp only [List.mem_append,List.mem_singleton] at he
      rcases he with (rfl | he) | rfl
      · exact hlookEvent _ _ _
      · exact hes e he
      · exact hmakeEvent _ _ _
    · obtain ⟨es,hruns,hes⟩ := ih (espCompressorDirname path) (s.exists' path).2 (hparentLt hroot)
      refine ⟨_,hlook.trans hruns,fun e he => ?_⟩
      simp only [List.mem_append,List.mem_singleton] at he
      rcases he with rfl | he
      · exact hlookEvent _ _ _
      · exact hes e he
    · refine ⟨_,hlook.trans (DiskState.mkdir_runs path _),fun e he => ?_⟩
      simp only [List.mem_append,List.mem_singleton] at he
      rcases he with rfl | rfl
      · exact hlookEvent _ _ _
      · exact hmakeEvent _ _ _

theorem ensureDir_runs {p : Path} (hp : p ≠ []) (s : DiskState) :
    ∃ es, Runs s es (espCompressorEnsureDir diskFileSystem (espCompressorDirname p) s).2 ∧
      ∀ e ∈ es, Prelude p e := by
  by_cases hroot : p = ['/']
  · subst hroot
    exact ⟨[],Runs.refl s,by simp⟩
  · exact ensureDirWithin_runs _ _ s (espCompressorDirname_length_lt hp hroot)

theorem openTemp_spec {p : Path} {s₀ : DiskState} {k : FileSink DiskState} (h : Prior p s₀ k)
    (hp : p ≠ []) : Prior p s₀ (openTemp diskFileSystem k).2 ∧
      ((openTemp diskFileSystem k).1 = .ok → Writing p s₀ [] (openTemp diskFileSystem k).2) := by
  obtain ⟨es,hruns,hes⟩ := ensureDir_runs hp k.fs
  rw [← h.path_eq] at hruns
  have h₁ : Prior p s₀
      (ask (espCompressorEnsureDir diskFileSystem (espCompressorDirname k.path)) k).2 :=
    h.more rfl hruns hes
  dsimp only [openTemp]
  generalize ask (espCompressorEnsureDir diskFileSystem (espCompressorDirname k.path)) k = made at h₁ ⊢
  have h₂ := h₁.cleanupTemp.cleanupBackup
  generalize cleanupBackup diskFileSystem (cleanupTemp diskFileSystem made.2) = k₂ at h₂ ⊢
  have hopen := DiskState.openWrite_runs (tempPath k₂.path) k₂.fs
  have hevent (ok : Bool) (d d' : Disk) : Prelude p ⟨.openWrite (tempPath k₂.path),ok,d,d'⟩ :=
    ⟨by rw [h₂.path_eq]; rfl,fun _ _ hc => by simp at hc⟩
  have h₃ (file isOpen : Bool) (written : UInt64) : Prior p s₀
      { k₂ with
        fs := (k₂.fs.openWrite (tempPath k₂.path)).2, file := file, isOpen := isOpen
        written := written } :=
    h₂.more rfl hopen (by simpa using hevent _ _ _)
  split_ifs with hdir hok
  · exact ⟨h₁,by simp⟩
  · exact ⟨h₃ _ _ _,by simp⟩
  · refine ⟨h₃ _ _ _,fun _ => ⟨h₃ _ _ _,rfl,rfl,?_,rfl⟩⟩
    have htrue : (k₂.fs.openWrite (tempPath k₂.path)).1 = true :=
      Bool.eq_true_of_not_eq_false hok
    have hsound := hopen.sound
    simp only [FsEvent.Sound] at hsound
    rw [if_pos htrue] at hsound
    change (k₂.fs.openWrite (tempPath k₂.path)).2.disk _ = _
    rw [hsound,← h₂.path_eq,Function.update_self]

theorem open_spec (k : FileSink DiskState) :
    Prior k.path k.fs (open' diskFileSystem k).2 ∧
      ((open' diskFileSystem k).1 = .ok → Writing k.path k.fs [] (open' diskFileSystem k).2) := by
  dsimp only [open']
  have hlook := DiskState.exists_runs k.path k.fs
  have h₁ : Prior k.path k.fs (ask (diskFileSystem.exists' k.path) k).2 :=
    (Prior.start k).more rfl hlook (by simpa using ⟨trivial,by simp⟩)
  split_ifs with hempty htruncate hpresent
  · exact ⟨Prior.start k,by simp⟩
  · exact ⟨h₁,by simp⟩
  · exact openTemp_spec h₁ hempty
  · exact openTemp_spec (Prior.start k) hempty

theorem write_spec {p : Path} {s₀ : DiskState} {w : List UInt8} {k : FileSink DiskState}
    (h : Writing p s₀ w k) (bytes : List UInt8) :
    Prior p s₀ (write diskFileSystem bytes k).2 ∧ ((write diskFileSystem bytes k).1 = .ok →
      Writing p s₀ (w ++ bytes) (write diskFileSystem bytes k).2) := by
  obtain ⟨ok,hruns,hstored⟩ := DiskState.write_runs (tempPath k.path) bytes k.fs
  have hevent (d d' : Disk) : Prelude p ⟨.write (tempPath k.path) bytes,ok,d,d'⟩ :=
    ⟨by rw [h.path_eq]; rfl,fun _ _ hc => by simp at hc⟩
  have h₁ (written : UInt64) : Prior p s₀
      { k with fs := (k.fs.write (tempPath k.path) bytes).2, written := written } :=
    h.toPrior.more rfl hruns (by simpa using hevent _ _)
  dsimp only [write]
  split_ifs with hclosed hempty hshort
  · exact ⟨h.toPrior,by simp⟩
  · rw [List.length_eq_zero_iff.mp hempty,List.append_nil]
    exact ⟨h.toPrior,fun _ => h⟩
  · exact ⟨h₁ _,by simp⟩
  · refine ⟨h₁ _,fun _ => ⟨h₁ _,h.file,h.isOpen,?_,?_⟩⟩
    · have hcount : (k.fs.write (tempPath k.path) bytes).1 = bytes.length := not_not.mp hshort
      have hstaged := h.staged
      rw [← h.path_eq] at hstaged ⊢
      exact hstored w hstaged hcount
    · have hcount : (ask (diskFileSystem.write (tempPath k.path) bytes) k).1 = bytes.length :=
        not_not.mp hshort
      change k.written + UInt64.ofNat _ = _
      rw [hcount,h.written,List.length_append,UInt64.ofNat_add]

/-- A staged sink is open, and its side file holds the staged bytes. -/
theorem staged_writing {k₀ k : FileSink DiskState} {w : List UInt8}
    (h : Staged (sink diskFileSystem) k₀ w k) : Writing k₀.path k₀.fs w k := by
  induction h with
  | opened hok => exact (open_spec k₀).2 hok
  | wrote more _ hok ih => exact (write_spec ih more).2 hok

/-! ### Closing, aborting, committing -/

/-- A part of a session after the last write: its calls, none of them in `commit`. -/
structure Tail (p : Path) (k : FileSink DiskState) (es : List FsEvent) (k' : FileSink DiskState) :
    Prop where
  path_eq : k'.path = p
  runs : Runs k.fs es k'.fs
  prelude : ∀ e ∈ es, Prelude p e

theorem Tail.trans {p : Path} {k k' k'' : FileSink DiskState} {es es' : List FsEvent}
    (h : Tail p k es k') (h' : Tail p k' es' k'') : Tail p k (es ++ es') k'' :=
  ⟨h'.path_eq,h.runs.trans h'.runs,fun e he => (List.mem_append.mp he).elim (h.prelude e) (h'.prelude e)⟩

theorem Tail.disk_path {p : Path} {k k' : FileSink DiskState} {es : List FsEvent}
    (h : Tail p k es k') : k'.fs.disk p = k.fs.disk p :=
  h.runs.chain.frame fun e he => (h.prelude e he).not_touches

theorem closeFile_tail (k : FileSink DiskState) :
    ∃ es, Tail k.path k es (if k.file then closeFile diskFileSystem k else k) ∧
      (if k.file then closeFile diskFileSystem k else k).fs.disk = k.fs.disk := by
  by_cases hfile : k.file = true
  · rw [if_pos hfile]
    refine ⟨_,⟨rfl,DiskState.closeFile_runs (tempPath k.path) k.fs,?_⟩,rfl⟩
    simpa using ⟨rfl,by simp⟩
  · rw [if_neg hfile]
    exact ⟨[],⟨rfl,Runs.refl _,by simp⟩,rfl⟩

theorem close_tail (k : FileSink DiskState) :
    ∃ es, Tail k.path k es (close diskFileSystem k) ∧
      (close diskFileSystem k).fs.disk = k.fs.disk := by
  obtain ⟨es,⟨hpath,hruns,hes⟩,hdisk⟩ := closeFile_tail k
  exact ⟨es,⟨hpath,hruns,hes⟩,hdisk⟩

theorem cleanup_tail {p q : Path} {k : FileSink DiskState} (hpath : k.path = p)
    (hq : q = tempPath p ∨ q = backupPath p) :
    ∃ es, Tail p k es (cleanup diskFileSystem q k) ∧ (∀ e ∈ es, Cleans q e) ∧
      (RemovalsSucceed es → (cleanup diskFileSystem q k).fs.disk q = none) := by
  obtain ⟨es,s,hk,hruns,hes,hgone⟩ := cleanup_spec q k
  rw [hk]
  exact ⟨es,⟨hpath,hruns,fun e he => (hes e he).prelude hq⟩,hes,hgone⟩

/-- Aborting and closing remove both side files, unless a removal fails. -/
theorem abort_tail {p : Path} {k : FileSink DiskState} (hpath : k.path = p) :
    ∃ es, Tail p k es (close diskFileSystem (abort diskFileSystem k)) ∧ (RemovalsSucceed es →
      (close diskFileSystem (abort diskFileSystem k)).fs.disk (tempPath p) = none ∧
      (close diskFileSystem (abort diskFileSystem k)).fs.disk (backupPath p) = none) := by
  obtain ⟨es₁,h₁,-⟩ := closeFile_tail k
  unfold abort cleanupTemp cleanupBackup
  dsimp only
  rw [hpath] at h₁
  generalize (if k.file then closeFile diskFileSystem k else k) = k₁ at h₁ ⊢
  rw [h₁.path_eq]
  obtain ⟨es₂,h₂,-,hgone₂⟩ := cleanup_tail h₁.path_eq (.inl rfl)
  generalize cleanup diskFileSystem (tempPath p) k₁ = k₂ at h₂ hgone₂ ⊢
  rw [h₂.path_eq]
  obtain ⟨es₃,h₃,hclean₃,hgone₃⟩ := cleanup_tail h₂.path_eq (.inr rfl)
  generalize cleanup diskFileSystem (backupPath p) k₂ = k₃ at h₃ hgone₃ ⊢
  obtain ⟨es₄,h₄,hdisk₄⟩ := close_tail k₃
  rw [h₃.path_eq] at h₄
  refine ⟨_,((h₁.trans h₂).trans h₃).trans h₄,fun hok => ?_⟩
  have hok₁₂₃ := hok.of_append.1
  have hok₃ := hok₁₂₃.of_append.2
  have hok₂ := hok₁₂₃.of_append.1.of_append.2
  rw [hdisk₄]
  refine ⟨?_,hgone₃ hok₃⟩
  rw [h₃.runs.chain.frame fun e he => (hclean₃ e he).not_touches (tempPath_ne_backupPath p)]
  exact hgone₂ hok₂

/-- How `commit` leaves the destination and the backup, from the disk `d` before it. -/
inductive CommitOutcome (p : Path) (w : List UInt8) (d : Disk) (es : List FsEvent) (d' : Disk) :
    CompressionError → Prop
  | published : d' p = some (.file w) → d' (tempPath p) = none →
      (∀ e ∈ es, ¬RollbackFailed p e) → (RemovalsSucceed es → d' (backupPath p) = none) →
      CommitOutcome p w d es d' .ok
  | kept {e : CompressionError} : e ≠ .ok → d' p = d p → (∀ e ∈ es, ¬RollbackFailed p e) →
      CommitOutcome p w d es d' e
  | lost {e : CompressionError} {v : List UInt8} {es₁ es₂ : List FsEvent} {failed : FsEvent} :
      e ≠ .ok → d p = some (.file v) → d' p = none → d' (backupPath p) = some (.file v) →
      es = es₁ ++ failed :: es₂ → (∀ e ∈ es₁, ¬RollbackFailed p e) → RollbackFailed p failed →
      (∀ e ∈ es₂, ¬RollbackFailed p e ∧ ¬DropsBackup p e) → CommitOutcome p w d es d' e

theorem Cleans.not_dropsBackup {p : Path} {e : FsEvent} (h : Cleans (tempPath p) e) :
    ¬DropsBackup p e := by
  rintro ⟨hr,-⟩
  rcases h with h | h <;> rw [h] at hr
  · simp at hr
  · exact tempPath_ne_backupPath p (FsCall.remove.inj hr)

/-- The event of a rename. -/
theorem renameEvent {p a c : Path} {w : List UInt8} {ok : Bool} {d d' : Disk}
    (hcall : SinkCall p (.rename a c)) (hcomplete : a = tempPath p → d (tempPath p) = some (.file w))
    (hvacant : a = backupPath p → d p = none) : JobEvent p w ⟨.rename a c,ok,d,d'⟩ :=
  ⟨hcall,fun h => hcomplete (FsCall.rename.inj h).1,fun h => hvacant (FsCall.rename.inj h).1⟩

/-- Calls before the outcome that are no failed rollback do not change it. -/
theorem CommitOutcome.after {p : Path} {w : List UInt8} {d d' : Disk} {es₀ es : List FsEvent}
    {e : CompressionError} (h : CommitOutcome p w d es d' e) (h₀ : ∀ e ∈ es₀, ¬RollbackFailed p e) :
    CommitOutcome p w d (es₀ ++ es) d' e := by
  have hall {es : List FsEvent} (h : ∀ e ∈ es, ¬RollbackFailed p e) :
      ∀ e ∈ es₀ ++ es, ¬RollbackFailed p e :=
    fun e he => (List.mem_append.mp he).elim (h₀ e) (h e)
  cases h with
  | published hpath htemp hfine hgone => exact .published hpath htemp (hall hfine) fun h => hgone h.of_append.2
  | kept he hpath hfine => exact .kept he hpath (hall hfine)
  | lost he hdest hpath hbackup hes h₁ hfailed h₂ =>
    refine .lost he hdest hpath hbackup ?_ (hall h₁) hfailed h₂
    rw [hes,List.append_assoc]

/-- The staged file has been moved: the backup is cleaned up. -/
theorem moved_spec {p : Path} {w : List UInt8} {k : FileSink DiskState} (d : Disk) (hpath : k.path = p)
    (hdest : k.fs.disk p = some (.file w)) (htemp : k.fs.disk (tempPath p) = none) :
    ∃ es, Tail p k es (cleanupBackup diskFileSystem k) ∧
      CommitOutcome p w d es (cleanupBackup diskFileSystem k).fs.disk .ok := by
  obtain ⟨es,htail,hclean,hgone⟩ := cleanup_tail hpath (.inr rfl)
  have hframe (q : Path) (hq : q ≠ backupPath p) := htail.runs.chain.frame (q := q)
    fun e he => (hclean e he).not_touches hq
  rw [cleanupBackup,hpath]
  refine ⟨es,htail,.published ?_ ?_ (fun e he => (htail.prelude e he).not_rollbackFailed) hgone⟩
  · rw [hframe p (backupPath_ne p).symm,hdest]
  · rw [hframe _ (tempPath_ne_backupPath p),htemp]

/-- The staged file could not be moved, and there was no destination. -/
theorem unmoved_spec {p : Path} {w : List UInt8} {k : FileSink DiskState} {d : Disk} (hpath : k.path = p)
    (hdest : k.fs.disk p = d p) : ∃ es, Tail p k es (cleanupTemp diskFileSystem k) ∧
      CommitOutcome p w d es (cleanupTemp diskFileSystem k).fs.disk .writeFailed := by
  obtain ⟨es,htail,-,-⟩ := cleanup_tail hpath (.inl rfl)
  rw [cleanupTemp,hpath]
  refine ⟨es,htail,.kept (by simp) ?_ fun e he => (htail.prelude e he).not_rollbackFailed⟩
  rw [htail.disk_path,hdest]

/-- The staged file could not be moved: what was moved to the backup is moved back. -/
theorem restore_spec {p : Path} {w v : List UInt8} {k : FileSink DiskState} {d : Disk} (hpath : k.path = p)
    (hvacant : k.fs.disk p = none) (hdest : d p = some (.file v))
    (hbackup : k.fs.disk (backupPath p) = some (.file v)) :
    let k' := (ask (diskFileSystem.rename (backupPath p) p) k).2
    ∃ es, Runs k.fs es (cleanupTemp diskFileSystem k').fs ∧ (cleanupTemp diskFileSystem k').path = p ∧
      (∀ e ∈ es, JobEvent p w e) ∧ CommitOutcome p w d es (cleanupTemp diskFileSystem k').fs.disk .writeFailed := by
  intro k'
  have hrename := DiskState.rename_runs (backupPath p) p k.fs
  have hevent (ok : Bool) (d' : Disk) : JobEvent p w ⟨.rename (backupPath p) p,ok,k.fs.disk,d'⟩ :=
    renameEvent (.inr (.inr ⟨rfl,rfl⟩)) (fun h => absurd h (tempPath_ne_backupPath p).symm) fun _ => hvacant
  have hpath' : k'.path = p := hpath
  obtain ⟨es,htail,hclean,-⟩ := cleanup_tail hpath' (.inl rfl)
  have hfine (e : FsEvent) (he : e ∈ es) := (htail.prelude e he).not_rollbackFailed
  rw [cleanupTemp,hpath']
  refine ⟨_,hrename.trans htail.runs,htail.path_eq,fun e he => ?_,?_⟩
  · rcases List.mem_append.mp he with he | he
    · rw [List.mem_singleton.mp he]
      exact hevent _ _
    · exact (htail.prelude e he).jobEvent w
  have hsound := hrename.sound
  simp only [FsEvent.Sound] at hsound
  by_cases hrestored : (k.fs.rename (backupPath p) p).1 = true
  · rw [if_pos hrestored] at hsound
    obtain ⟨content,hcontent,hdisk⟩ := hsound
    rw [hbackup] at hcontent
    obtain rfl : v = content := Node.file.inj (Option.some.inj hcontent)
    refine .kept (by simp) ?_ fun e he => ?_
    · rw [htail.disk_path,hdest]
      exact (congrFun hdisk p).trans (Function.update_self _ _ _)
    · rcases List.mem_append.mp he with he | he
      · rw [List.mem_singleton.mp he]
        exact fun h => absurd (hrestored.symm.trans h.2) (by simp)
      · exact hfine e he
  · rw [if_neg hrestored] at hsound
    have hdisk : k'.fs.disk = k.fs.disk := hsound
    refine .lost (by simp) hdest ?_ ?_ (List.nil_append (_ :: es)).symm (by simp)
      ⟨rfl,Bool.eq_false_of_not_eq_true hrestored⟩ fun e he => ⟨hfine e he,(hclean e he).not_dropsBackup⟩
    · rw [htail.disk_path,hdisk,hvacant]
    · rw [htail.runs.chain.frame fun e he =>
        (hclean e he).not_touches (tempPath_ne_backupPath p).symm,hdisk,hbackup]

/-- The second half of `commit`: the destination is vacant, and what it held is the backup. -/
theorem publish_spec {p : Path} {w : List UInt8} {k : FileSink DiskState} {d : Disk}
    (hadDestination : Bool) (hpath : k.path = p)
    (htemp : k.fs.disk (tempPath p) = some (.file w)) (hvacant : k.fs.disk p = none)
    (hbackup : if hadDestination then ∃ v, d p = some (.file v) ∧
      k.fs.disk (backupPath p) = some (.file v) else d p = none) :
    ∃ es, Runs k.fs es (publish diskFileSystem hadDestination k).2.fs ∧
      (publish diskFileSystem hadDestination k).2.path = p ∧ (∀ e ∈ es, JobEvent p w e) ∧
      CommitOutcome p w d es (publish diskFileSystem hadDestination k).2.fs.disk
        (publish diskFileSystem hadDestination k).1 := by
  have hrename := DiskState.rename_runs (tempPath p) p k.fs
  have hevent (e : FsEvent) (he : e ∈ [⟨.rename (tempPath p) p,(k.fs.rename (tempPath p) p).1,k.fs.disk,
      (k.fs.rename (tempPath p) p).2.disk⟩]) : JobEvent p w e ∧ ¬RollbackFailed p e := by
    rw [List.mem_singleton.mp he]
    exact ⟨renameEvent (.inr (.inl ⟨rfl,rfl⟩)) (fun _ => htemp) fun h => absurd h (tempPath_ne_backupPath p),
      fun h => tempPath_ne_backupPath p (FsCall.rename.inj h.1).1⟩
  have hall {es : List FsEvent} (hes : ∀ e ∈ es, JobEvent p w e) (e : FsEvent) (he) : JobEvent p w e :=
    (List.mem_append.mp he).elim (fun h => (hevent e h).1) (hes e)
  have hsound := hrename.sound
  simp only [FsEvent.Sound] at hsound
  dsimp only [publish]
  simp only [hpath]
  by_cases hmoved : (k.fs.rename (tempPath p) p).1 = true
  · rw [if_pos hmoved] at hsound
    obtain ⟨content,hcontent,hdisk⟩ := hsound
    rw [htemp] at hcontent
    obtain rfl : w = content := Node.file.inj (Option.some.inj hcontent)
    have hmoved' : ¬(ask (diskFileSystem.rename (tempPath p) p) k).1 = false :=
      fun h => absurd (hmoved.symm.trans h) (by simp)
    rw [if_neg hmoved']
    have hdisk₁ : (ask (diskFileSystem.rename (tempPath p) p) k).2.fs.disk = _ := hdisk
    obtain ⟨es,htail,houtcome⟩ := moved_spec (w := w) d
      (show (ask (diskFileSystem.rename (tempPath p) p) k).2.path = p from hpath)
      (by rw [hdisk₁,Function.update_self])
      (by rw [hdisk₁,Function.update_of_ne (tempPath_ne p),Function.update_self])
    exact ⟨_,hrename.trans htail.runs,htail.path_eq,hall fun e he => (htail.prelude e he).jobEvent w,
      houtcome.after fun e he => (hevent e he).2⟩
  · have hfailed : (ask (diskFileSystem.rename (tempPath p) p) k).1 = false :=
      Bool.eq_false_of_not_eq_true hmoved
    rw [if_neg hmoved] at hsound
    rw [if_pos hfailed]
    have hpath₁ : (ask (diskFileSystem.rename (tempPath p) p) k).2.path = p := hpath
    have hdisk₁ : (ask (diskFileSystem.rename (tempPath p) p) k).2.fs.disk = k.fs.disk := hsound
    have hrename₁ : Runs k.fs _ (ask (diskFileSystem.rename (tempPath p) p) k).2.fs := hrename
    generalize (ask (diskFileSystem.rename (tempPath p) p) k).2 = k₁ at hpath₁ hdisk₁ hrename₁ ⊢
    rw [hpath₁]
    cases hadDestination with
    | false =>
      simp only [Bool.false_eq_true,if_false] at hbackup ⊢
      obtain ⟨es,htail,houtcome⟩ := unmoved_spec (w := w) (d := d) hpath₁ (by rw [hdisk₁,hvacant,hbackup])
      exact ⟨_,hrename₁.trans htail.runs,htail.path_eq,hall fun e he => (htail.prelude e he).jobEvent w,
        houtcome.after fun e he => (hevent e he).2⟩
    | true =>
      simp only [if_true] at hbackup ⊢
      obtain ⟨v,hdest,hbak⟩ := hbackup
      obtain ⟨es,hruns,hpath₂,hjob,houtcome⟩ := restore_spec (w := w) hpath₁ (by rw [hdisk₁,hvacant]) hdest
        (by rw [hdisk₁,hbak])
      exact ⟨_,hrename₁.trans hruns,hpath₂,hall hjob,houtcome.after fun e he => (hevent e he).2⟩

/-- What `commit` does with a complete staged file. -/
theorem commit_spec {p : Path} {s₀ : DiskState} {w : List UInt8} {k : FileSink DiskState}
    (h : Writing p s₀ w k) :
    ∃ es, Runs k.fs es (commit diskFileSystem k).2.fs ∧ (commit diskFileSystem k).2.path = p ∧
      (∀ e ∈ es, JobEvent p w e) ∧
      CommitOutcome p w k.fs.disk es (commit diskFileSystem k).2.fs.disk
        (commit diskFileSystem k).1 := by
  have hpath := h.path_eq
  have hopen : ¬(k.isOpen = false ∨ k.file = false) := by simp [h.file,h.isOpen]
  obtain ⟨es₁,htail₁,hdisk₁⟩ := closeFile_tail k
  rw [if_pos h.file,hpath] at htail₁
  rw [if_pos h.file] at hdisk₁
  dsimp only [commit]
  rw [if_neg hopen,hpath]
  generalize closeFile diskFileSystem k = k₁ at htail₁ hdisk₁ ⊢
  have hlook := DiskState.exists_runs p k₁.fs
  have htail₂ : Tail p k₁ _ (ask (diskFileSystem.exists' p) k₁).2 :=
    ⟨htail₁.path_eq,hlook,by simpa using ⟨trivial,by simp⟩⟩
  have hdisk₂ : (ask (diskFileSystem.exists' p) k₁).2.fs.disk = k.fs.disk := hdisk₁
  have hanswer : (ask (diskFileSystem.exists' p) k₁).1 = (k.fs.disk p).isSome := by
    rw [← hdisk₁]; rfl
  generalize ask (diskFileSystem.exists' p) k₁ = had at htail₂ hdisk₂ hanswer ⊢
  obtain ⟨es₁₂,htail₁₂⟩ : ∃ es, Tail p k es had.2 := ⟨_,htail₁.trans htail₂⟩
  have hfine₁₂ (e : FsEvent) (he) := (htail₁₂.prelude e he).not_rollbackFailed
  by_cases hpresent : had.1 = true
  · -- the destination is moved to the backup first
    rw [if_pos hpresent]
    obtain ⟨es₃,htail₃,hclean₃,-⟩ := cleanup_tail (q := backupPath p) htail₂.path_eq (.inr rfl)
    rw [cleanupBackup,htail₂.path_eq]
    have hframe₃ (q : Path) (hq : q ≠ backupPath p) := htail₃.runs.chain.frame (q := q)
      fun e he => (hclean₃ e he).not_touches hq
    generalize cleanup diskFileSystem (backupPath p) had.2 = k₃ at htail₃ hframe₃ ⊢
    rw [htail₃.path_eq]
    have htail := htail₁₂.trans htail₃
    have hdest₃ : k₃.fs.disk p = k.fs.disk p := by rw [hframe₃ p (backupPath_ne p).symm,hdisk₂]
    have htemp₃ : k₃.fs.disk (tempPath p) = some (.file w) := by
      rw [hframe₃ _ (tempPath_ne_backupPath p),hdisk₂,h.staged]
    have hrename := DiskState.rename_runs p (backupPath p) k₃.fs
    have hevents (e : FsEvent) (he : e ∈ es₁₂ ++ es₃ ++ [⟨.rename p (backupPath p),
        (k₃.fs.rename p (backupPath p)).1,k₃.fs.disk,(k₃.fs.rename p (backupPath p)).2.disk⟩]) :
        JobEvent p w e ∧ ¬RollbackFailed p e := by
      rcases List.mem_append.mp he with he | he
      · exact ⟨(htail.prelude e he).jobEvent w,(htail.prelude e he).not_rollbackFailed⟩
      · rw [List.mem_singleton.mp he]
        exact ⟨renameEvent (.inl ⟨rfl,rfl⟩) (fun h => absurd h (tempPath_ne p).symm)
          fun h => absurd h (backupPath_ne p).symm,fun h => backupPath_ne p (FsCall.rename.inj h.1).1.symm⟩
    have hsound := hrename.sound
    simp only [FsEvent.Sound] at hsound
    by_cases hmoved : (k₃.fs.rename p (backupPath p)).1 = true
    · have hmoved' : ¬(ask (diskFileSystem.rename p (backupPath p)) k₃).1 = false :=
        fun h => absurd (hmoved.symm.trans h) (by simp)
      rw [if_pos hmoved] at hsound
      obtain ⟨v,hv,hdisk⟩ := hsound
      rw [if_neg hmoved']
      have hdisk₄ : (ask (diskFileSystem.rename p (backupPath p)) k₃).2.fs.disk = _ := hdisk
      obtain ⟨es₅,hruns₅,hpath₅,hjob₅,houtcome⟩ := publish_spec (d := k.fs.disk) true
        (show (ask (diskFileSystem.rename p (backupPath p)) k₃).2.path = p from htail₃.path_eq)
        (by rw [hdisk₄,Function.update_of_ne (tempPath_ne_backupPath p),
          Function.update_of_ne (tempPath_ne p),htemp₃])
        (by rw [hdisk₄,Function.update_of_ne (backupPath_ne p).symm,Function.update_self])
        ⟨v,by rw [← hdest₃,hv],by rw [hdisk₄,Function.update_self]⟩
      refine ⟨_,(htail.runs.trans hrename).trans hruns₅,hpath₅,fun e he => ?_,
        houtcome.after fun e he => (hevents e he).2⟩
      rcases List.mem_append.mp he with he | he
      · exact (hevents e he).1
      · exact hjob₅ e he
    · have hfailed' : (ask (diskFileSystem.rename p (backupPath p)) k₃).1 = false :=
        Bool.eq_false_of_not_eq_true hmoved
      rw [if_neg hmoved] at hsound
      rw [if_pos hfailed']
      refine ⟨_,htail.runs.trans hrename,htail₃.path_eq,fun e he => (hevents e he).1,
        .kept (by simp) ?_ fun e he => (hevents e he).2⟩
      exact (congrFun hsound p).trans hdest₃
  · -- there is no destination to keep
    rw [if_neg hpresent]
    have hnone : k.fs.disk p = none := by
      rw [hanswer] at hpresent
      simpa using hpresent
    obtain ⟨es₃,hruns₃,hpath₃,hjob₃,houtcome⟩ := publish_spec (d := k.fs.disk) false htail₂.path_eq
      (by rw [hdisk₂,h.staged]) (by rw [hdisk₂,hnone]) hnone
    refine ⟨_,htail₁₂.runs.trans hruns₃,hpath₃,fun e he => ?_,houtcome.after hfine₁₂⟩
    rcases List.mem_append.mp he with he | he
    · exact (htail₁₂.prelude e he).jobEvent w
    · exact hjob₃ e he

end FileSink
end EspCompressor
