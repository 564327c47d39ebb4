import EspCompressor.FileRaces

/-! When a file that another task creates at the destination of a `FileSink` is lost: it appears after `open`
has looked for one, and the disk does not refuse the rename that meets it. -/
namespace EspCompressor
namespace FileRaces

open FileSink (ask cleanupTemp cleanupBackup publish)

variable {p : Path}

/-! ### The calls of a job, one by one -/

/-- The disk that the call before the `i`-th one has left. -/
def diskBefore (d : Disk) (log : List FsEvent) : ℕ → Disk
  | 0 => d
  | i + 1 => (log[i]?.map FsEvent.after).getD d

/-- The `i`-th call, a rename, is refused on the disk `d`: it fails of itself, there is no file to be moved,
or a directory is in the way. -/
def RefusesRename (fails : ℕ → Bool) (i : ℕ) (a c : Path) (d : Disk) : Prop :=
  fails i = true ∨ (∀ content, d a ≠ some (.file content)) ∨ d c = some .dir

/-- A rename from or to `p`. -/
def RenamesPath (p : Path) (call : FsCall) : Prop := ∃ a c, call = .rename a c ∧ (p = a ∨ p = c)

def IsRename (e : FsEvent) : Prop := ∃ a c, e.call = .rename a c

/-- A job's `i`-th call, on the disk that the other tasks make of `d`. -/
structure TakesTurn (o : Others p) (fails : ℕ → Bool) (i : ℕ) (d : Disk) (e : FsEvent) : Prop where
  before_eq : e.before = o.act i d
  sound : e.Sound
  call : RenamesPath p e.call ∨ ¬IsRename e ∧ ¬e.call.touches p
  refused : ∀ a c, e.call = .rename a c → (e.ok = false ↔ RefusesRename fails i a c e.before)

/-- Calls from the `i`-th one on, each on the disk that the one before it has left. -/
inductive TakeTurns (o : Others p) (fails : ℕ → Bool) : ℕ → Disk → List FsEvent → Disk → Prop
  | nil {i : ℕ} {d : Disk} : TakeTurns o fails i d [] d
  | cons {i : ℕ} {d d' : Disk} {e : FsEvent} {es : List FsEvent} : TakesTurn o fails i d e →
      TakeTurns o fails (i + 1) e.after es d' → TakeTurns o fails i d (e :: es) d'

section Turns

variable {o : Others p} {fails : ℕ → Bool} {i : ℕ} {d d' : Disk} {e : FsEvent} {es : List FsEvent}

theorem TakeTurns.append {d'' : Disk} {es' : List FsEvent} (h : TakeTurns o fails i d es d')
    (h' : TakeTurns o fails (i + es.length) d' es' d'') : TakeTurns o fails i d (es ++ es') d'' := by
  induction h with
  | nil => exact h'
  | cons hturn _ ih =>
    refine .cons hturn (ih ?_)
    rwa [List.length_cons,Nat.add_comm _ 1,← Nat.add_assoc] at h'

theorem diskBefore_succ {log : List FsEvent} {j : ℕ} (h : log[j]? = some e) :
    diskBefore d log (j + 1) = e.after := by
  rw [diskBefore,h]
  rfl

/-- The call at some place of the log. -/
theorem TakeTurns.at {j : ℕ} (h : TakeTurns o fails i d es d') (he : es[j]? = some e) :
    TakesTurn o fails (i + j) (diskBefore d es j) e := by
  induction h generalizing j with
  | nil => simp at he
  | @cons i d d' first es hturn _ ih =>
    cases j with
    | zero =>
      obtain rfl : first = e := by simpa using he
      exact hturn
    | succ j =>
      rw [List.getElem?_cons_succ] at he
      have hlater := ih he
      rw [show i + 1 + j = i + (j + 1) by omega] at hlater
      have hdisk : diskBefore d (first :: es) (j + 1) = diskBefore first.after es j := by
        cases j with
        | zero => rfl
        | succ j =>
          have hlt : j < es.length := Nat.lt_of_succ_lt (List.getElem?_eq_some_iff.mp he).1
          have hlast := List.getElem?_eq_getElem hlt
          rw [diskBefore_succ hlast,diskBefore_succ (by rw [List.getElem?_cons_succ,hlast])]
      rwa [hdisk]

end Turns

/-- The calls that a job makes take turns with the other tasks. -/
structure Follows (o : Others p) (s s' : SharedDisk) : Prop where
  fails_eq : s'.own.fails = s.own.fails
  turns : ∃ es, s'.own.log = s.own.log ++ es ∧
    TakeTurns o s.own.fails s.own.log.length s.own.disk es s'.own.disk

section Call

variable (o : Others p) {α : Type} {f : DiskState → α × DiskState} {s : SharedDisk} {e : FsEvent}

theorem call_follows (h : Runs (interrupt o s).own [e] (f (interrupt o s).own).2)
    (hfails : (f (interrupt o s).own).2.fails = s.own.fails)
    (hcall : RenamesPath p e.call ∨ ¬IsRename e ∧ ¬e.call.touches p)
    (hrefused : ∀ a c, e.call = .rename a c →
      (e.ok = false ↔ RefusesRename s.own.fails s.own.log.length a c e.before)) :
    Follows o s (call o f s).2 := by
  obtain ⟨hbefore,hafter,hsound⟩ := runs_single h
  refine ⟨hfails,[e],h.log_eq,?_⟩
  change TakeTurns o _ _ s.own.disk [e] (f (interrupt o s).own).2.disk
  rw [← hafter]
  exact .cons ⟨hbefore,hsound,hcall,hrefused⟩ .nil

/-- A call that is no rename and leaves `p`. -/
theorem call_follows_untouched (h : Runs (interrupt o s).own [e] (f (interrupt o s).own).2)
    (hfails : (f (interrupt o s).own).2.fails = s.own.fails) (hcall : ¬IsRename e)
    (htouch : ¬e.call.touches p) : Follows o s (call o f s).2 :=
  call_follows o h hfails (.inr ⟨hcall,htouch⟩) fun a c hrename => absurd ⟨a,c,hrename⟩ hcall

end Call

theorem mkdir_fails (q : Path) (s : DiskState) : (DiskState.mkdir q s).2.fails = s.fails := by
  unfold DiskState.mkdir
  dsimp only
  split_ifs <;> rfl

theorem openWrite_fails (q : Path) (s : DiskState) : (DiskState.openWrite q s).2.fails = s.fails := by
  unfold DiskState.openWrite
  split_ifs <;> rfl

theorem write_fails (q : Path) (bytes : List UInt8) (s : DiskState) :
    (DiskState.write q bytes s).2.fails = s.fails := by
  unfold DiskState.write
  split <;> rfl

theorem remove_fails (q : Path) (s : DiskState) : (DiskState.remove q s).2.fails = s.fails := by
  unfold DiskState.remove
  split
  · split_ifs <;> rfl
  · rfl

theorem rename_fails (a c : Path) (s : DiskState) : (DiskState.rename a c s).2.fails = s.fails := by
  unfold DiskState.rename
  split
  · split_ifs <;> rfl
  · rfl

/-- When a rename is refused. -/
theorem rename_refuses (a c : Path) (s : DiskState) :
    (DiskState.rename a c s).1 = false ↔ RefusesRename s.fails s.log.length a c s.disk := by
  unfold DiskState.rename RefusesRename
  split
  · rename_i content hfile
    rw [hfile]
    by_cases hworks : s.works ∧ s.disk c ≠ some .dir
    · rw [if_pos hworks]
      obtain ⟨hworks,hdir⟩ := hworks
      have hno : s.fails s.log.length = false := by simpa [DiskState.works] using hworks
      simp [hno,hdir]
    · rw [if_neg hworks]
      refine ⟨fun _ => ?_,fun _ => rfl⟩
      rcases not_and_or.mp hworks with hfails | hdir
      · exact .inl (by simpa [DiskState.works] using hfails)
      · exact .inr (.inr (not_not.mp hdir))
  · rename_i hno
    simp only [true_iff]
    exact .inr (.inl hno)

theorem shared_follows (o : Others p) : Calm (sharedFileSystem o) p (Follows o) where
  refl s := ⟨rfl,[],by simp,.nil⟩
  trans := by
    rintro s s' s'' ⟨hfails,es,hes,hturns⟩ ⟨hfails',es',hes',hturns'⟩
    refine ⟨hfails'.trans hfails,es ++ es',by rw [hes',hes,List.append_assoc],hturns.append ?_⟩
    rwa [hfails,hes,List.length_append] at hturns'
  exists' q _ := call_follows_untouched o (DiskState.exists_runs q _) rfl (by rintro ⟨_,_,⟨⟩⟩) id
  mkdir q _ hq := call_follows_untouched o (DiskState.mkdir_runs q _) (mkdir_fails q _)
    (by rintro ⟨_,_,⟨⟩⟩) fun h => hq h.symm
  openWrite q _ hq := call_follows_untouched o (DiskState.openWrite_runs q _) (openWrite_fails q _)
    (by rintro ⟨_,_,⟨⟩⟩) fun h => hq h.symm
  write q bytes s hq := by
    obtain ⟨ok,hruns,-⟩ := DiskState.write_runs q bytes (interrupt o s).own
    exact call_follows_untouched o hruns (write_fails q bytes _) (by rintro ⟨_,_,⟨⟩⟩) fun h => hq h.symm
  closeFile q s := by
    have hruns := DiskState.closeFile_runs q (interrupt o s).own
    exact call_follows_untouched o (f := fun t => ((),DiskState.closeFile q t)) hruns rfl (by rintro ⟨_,_,⟨⟩⟩) id
  remove q _ hq := call_follows_untouched o (DiskState.remove_runs q _) (remove_fails q _)
    (by rintro ⟨_,_,⟨⟩⟩) fun h => hq h.symm

theorem rename_follows (o : Others p) (a c : Path) (s : SharedDisk) (hp : p = a ∨ p = c) :
    Follows o s ((sharedFileSystem o).rename a c s).2 := by
  refine call_follows o (DiskState.rename_runs a c _) (rename_fails a c _) (.inl ⟨a,c,rfl,hp⟩) ?_
  rintro a' c' ⟨⟩
  exact rename_refuses a c (interrupt o s).own

/-! ### What is at the path -/

section Window

variable {o : Others p} {fails : ℕ → Bool} {d d' : Disk} {log : List FsEvent}

/-- What other tasks find at `p` they leave there. -/
theorem act_present (i : ℕ) {d : Disk} (h : d p ≠ none) : o.act i d p ≠ none := by
  rcases o.creates i d with hsame | ⟨hnone,-⟩
  · rwa [hsame]
  · exact absurd hnone h

/-- A rename that is refused changes nothing. -/
theorem after_of_refused {e : FsEvent} (hsound : e.Sound) (hrename : IsRename e) (hok : e.ok = false) :
    e.after = e.before := by
  obtain ⟨a,c,hcall⟩ := hrename
  unfold FsEvent.Sound at hsound
  rw [hcall] at hsound
  simpa [hok] using hsound

/-- What other tasks have created stays while no rename works that meets it. -/
theorem present_later (h : TakeTurns o fails 0 d log d') (hrefused : ∀ e ∈ log, Meets p e → e.ok = false)
    {i : ℕ} (hcreated : o.act i (diskBefore d log i) p ≠ diskBefore d log i p) {j : ℕ} (hij : i ≤ j) :
    j < log.length → o.act j (diskBefore d log j) p ≠ none := by
  induction j, hij using Nat.le_induction with
  | base =>
    rcases o.creates i (diskBefore d log i) with hsame | ⟨-,content,hfile⟩
    · exact absurd hsame hcreated
    · rw [hfile]
      simp
  | succ j _ ih =>
    intro hlt
    have hlog := List.getElem?_eq_getElem (Nat.lt_of_succ_lt hlt)
    have hturn := h.at hlog
    have hbefore := ih (Nat.lt_of_succ_lt hlt)
    rw [Nat.zero_add] at hturn
    rw [← hturn.before_eq] at hbefore
    refine act_present _ ?_
    rw [diskBefore_succ hlog]
    rcases hturn.call with ⟨a,c,hcall,hp⟩ | ⟨-,htouch⟩
    · have hok := hrefused _ (List.getElem_mem _) ⟨⟨a,c,hcall,hp⟩,hbefore⟩
      rwa [after_of_refused hturn.sound ⟨a,c,hcall⟩ hok]
    · rwa [hturn.sound.frame htouch]

/-- Nothing comes to `p` before the first rename unless other tasks create it. -/
theorem absent_still (h : TakeTurns o fails 0 d log d') (hd : d p = none) {j : ℕ}
    (hstill : ∀ e ∈ log.take j, ¬IsRename e)
    (hnone : ∀ i ≤ j, o.act i (diskBefore d log i) p = diskBefore d log i p) :
    j < log.length → o.act j (diskBefore d log j) p = none := by
  induction j with
  | zero =>
    intro _
    rw [hnone 0 (le_refl _)]
    exact hd
  | succ j ih =>
    intro hlt
    have hlog := List.getElem?_eq_getElem (Nat.lt_of_succ_lt hlt)
    have hturn := h.at hlog
    have hbefore := ih (fun e he => hstill e (List.take_subset_take_left _ (Nat.le_succ j) he))
      (fun i hi => hnone i (hi.trans (Nat.le_succ j))) (Nat.lt_of_succ_lt hlt)
    have hmem : log[j] ∈ log.take (j + 1) := List.mem_of_getElem? (by
      rw [List.getElem?_take_of_lt (Nat.lt_succ_self j)]
      exact hlog)
    rw [Nat.zero_add] at hturn
    rw [hnone _ (le_refl _),diskBefore_succ hlog]
    rcases hturn.call with ⟨a,c,hcall,-⟩ | ⟨-,htouch⟩
    · exact absurd ⟨a,c,hcall⟩ (hstill _ hmem)
    · rw [hturn.sound.frame htouch,hturn.before_eq,hbefore]

end Window

/-! ### The renames of a session -/

/-- Calls of which none is a rename. -/
def Still (s s' : SharedDisk) : Prop := ∃ es, s'.own.log = s.own.log ++ es ∧ ∀ e ∈ es, ¬IsRename e

theorem call_still (o : Others p) {α : Type} {f : DiskState → α × DiskState} {s : SharedDisk} {e : FsEvent}
    (h : Runs (interrupt o s).own [e] (f (interrupt o s).own).2) (hcall : ¬IsRename e) :
    Still s (call o f s).2 :=
  ⟨[e],h.log_eq,by simpa using hcall⟩

theorem shared_still (o : Others p) : Calm (sharedFileSystem o) p Still where
  refl s := ⟨[],by simp,by simp⟩
  trans := by
    rintro s s' s'' ⟨es,hes,hstill⟩ ⟨es',hes',hstill'⟩
    refine ⟨es ++ es',by rw [hes',hes,List.append_assoc],fun e he => ?_⟩
    exact (List.mem_append.mp he).elim (hstill e) (hstill' e)
  exists' q _ := call_still o (DiskState.exists_runs q _) (by rintro ⟨_,_,⟨⟩⟩)
  mkdir q _ _ := call_still o (DiskState.mkdir_runs q _) (by rintro ⟨_,_,⟨⟩⟩)
  openWrite q _ _ := call_still o (DiskState.openWrite_runs q _) (by rintro ⟨_,_,⟨⟩⟩)
  write q bytes s _ := by
    obtain ⟨ok,hruns,-⟩ := DiskState.write_runs q bytes (interrupt o s).own
    exact call_still o hruns (by rintro ⟨_,_,⟨⟩⟩)
  closeFile q s := by
    have hruns := DiskState.closeFile_runs q (interrupt o s).own
    exact call_still o (f := fun t => ((),DiskState.closeFile q t)) hruns (by rintro ⟨_,_,⟨⟩⟩)
  remove q _ _ := call_still o (DiskState.remove_runs q _) (by rintro ⟨_,_,⟨⟩⟩)

/-- The first rename, after which another one is made only if it has moved away what was at `p`. -/
structure FirstRename (p : Path) (before : List FsEvent) (e : FsEvent) (after : List FsEvent) : Prop where
  still : ∀ x ∈ before, ¬IsRename x
  rename : IsRename e
  later : (∀ x ∈ after, ¬IsRename x) ∨ Meets p e ∧ e.ok = true

/-- No rename, or a first one. -/
def MovesOnce (p : Path) (s s' : SharedDisk) : Prop :=
  Still s s' ∨ ∃ before e after, s'.own.log = s.own.log ++ (before ++ e :: after) ∧ FirstRename p before e after

theorem Still.movesOnce {s s' s'' : SharedDisk} (h : Still s s') (h' : MovesOnce p s' s'') : MovesOnce p s s'' := by
  obtain ⟨es,hes,hstill⟩ := h
  rcases h' with ⟨es',hes',hstill'⟩ | ⟨before,e,after,hlog,hfirst⟩
  · refine .inl ⟨es ++ es',by rw [hes',hes,List.append_assoc],fun e he => ?_⟩
    exact (List.mem_append.mp he).elim (hstill e) (hstill' e)
  · refine .inr ⟨es ++ before,e,after,by rw [hlog,hes]; simp,fun x hx => ?_,hfirst.rename,hfirst.later⟩
    exact (List.mem_append.mp hx).elim (hstill x) (hfirst.still x)

theorem MovesOnce.still {s s' s'' : SharedDisk} (h : MovesOnce p s s') (h' : Still s' s'') : MovesOnce p s s'' := by
  obtain ⟨es,hes,hstill⟩ := h'
  rcases h with ⟨es',hes',hstill'⟩ | ⟨before,e,after,hlog,hfirst⟩
  · refine .inl ⟨es' ++ es,by rw [hes,hes',List.append_assoc],fun e he => ?_⟩
    exact (List.mem_append.mp he).elim (hstill' e) (hstill e)
  · refine .inr ⟨before,e,after ++ es,by rw [hes,hlog]; simp,hfirst.still,hfirst.rename,
      hfirst.later.imp_left fun hafter x hx => ?_⟩
    exact (List.mem_append.mp hx).elim (hafter x) (hstill x)

section Commit

variable (o : Others p) {k : FileSink SharedDisk}

theorem rename_logged (a c : Path) (s : SharedDisk) :
    ∃ e, ((sharedFileSystem o).rename a c s).2.own.log = s.own.log ++ [e] ∧ e.call = .rename a c ∧
      e.ok = ((sharedFileSystem o).rename a c s).1 ∧ e.before = (interrupt o s).own.disk :=
  ⟨_,(DiskState.rename_runs a c (interrupt o s).own).log_eq,rfl,rfl,rfl⟩

theorem publish_movesOnce (hpath : k.path = p) :
    MovesOnce p k.fs (publish (sharedFileSystem o) false k).2.fs := by
  obtain ⟨e,hlog,hcall,-,-⟩ := rename_logged o (tempPath k.path) k.path k.fs
  have hmoved : MovesOnce p k.fs (ask ((sharedFileSystem o).rename (tempPath k.path) k.path) k).2.fs :=
    .inr ⟨[],e,[],hlog,by simp,⟨_,_,hcall⟩,.inl (by simp)⟩
  have hstart : Since p Still (ask ((sharedFileSystem o).rename (tempPath k.path) k.path) k).2.fs
      (ask ((sharedFileSystem o).rename (tempPath k.path) k.path) k).2 := ⟨hpath,(shared_still o).refl _⟩
  unfold publish
  simp only [Bool.false_eq_true,if_false]
  split_ifs
  · exact hmoved.still (cleanupTemp_calm (shared_still o) hstart).2
  · exact hmoved.still (cleanupBackup_calm (shared_still o) hstart).2

theorem commit_movesOnce (hpath : k.path = p) :
    MovesOnce p k.fs (FileSink.commit (sharedFileSystem o) k).2.fs := by
  have hclosed : Since p Still k.fs (FileSink.closeFile (sharedFileSystem o) k) :=
    closeFile_calm (shared_still o) ⟨hpath,(shared_still o).refl _⟩
  unfold FileSink.commit
  dsimp only
  have hlook : Since p Still k.fs
      (ask ((sharedFileSystem o).exists' k.path) (FileSink.closeFile (sharedFileSystem o) k)).2 :=
    ⟨hpath,(shared_still o).trans hclosed.2 ((shared_still o).exists' _ _)⟩
  have hfound := exists_present o k.path (FileSink.closeFile (sharedFileSystem o) k).fs
  rw [hpath] at hfound
  rw [hpath] at hlook ⊢
  generalize hpresent : ask ((sharedFileSystem o).exists' p)
    (FileSink.closeFile (sharedFileSystem o) k) = present at hlook ⊢
  have hanswer : present.1 = true → present.2.fs.own.disk p ≠ none := by
    rw [← hpresent]
    exact hfound
  have hclean := cleanupBackup_calm (shared_still o) hlook
  have hkept := cleanupBackup_calm (shared_calm o) ⟨hlook.1,Quietly.refl present.2.fs⟩
  split_ifs with hopen hthere hfailed
  · exact .inl ((shared_still o).refl _)
  all_goals try exact hlook.2.movesOnce (publish_movesOnce o hlook.1)
  all_goals
    have hdisk := (hkept.2.present (hanswer hthere)).1
    generalize cleanupBackup (sharedFileSystem o) present.2 = k₂ at hclean hdisk hfailed ⊢
    obtain ⟨e,hlog,hcall,hok,hbefore⟩ := rename_logged o k₂.path (backupPath k₂.path) k₂.fs
  · refine hclean.2.movesOnce (.inr ⟨[],e,[],hlog,by simp,⟨_,_,hcall⟩,.inl (by simp)⟩)
  · -- the first rename has moved a file away
    have hmeets : Meets p e := by
      refine ⟨⟨_,_,hcall,.inl hclean.1.symm⟩,?_⟩
      have hpresent₂ : k₂.fs.own.disk p ≠ none := by
        rw [hdisk]
        exact hanswer hthere
      rw [hbefore,((interrupt_quietly o k₂.fs).present hpresent₂).1]
      exact hpresent₂
    have hstart : Since p Grows (ask ((sharedFileSystem o).rename k₂.path (backupPath k₂.path)) k₂).2.fs
        (ask ((sharedFileSystem o).rename k₂.path (backupPath k₂.path)) k₂).2 := ⟨hclean.1,(shared_grows o).refl _⟩
    obtain ⟨es,hes⟩ := (publish_calm (shared_grows o) (rename_grows o) true hstart).2
    refine hclean.2.movesOnce (.inr ⟨[],e,es,?_,by simp,⟨_,_,hcall⟩,.inr ⟨hmeets,?_⟩⟩)
    · rw [hes]
      change ((sharedFileSystem o).rename k₂.path (backupPath k₂.path) k₂.fs).2.own.log ++ es = _
      rw [hlog]
      simp
    · rw [hok]
      exact Bool.eq_true_of_not_eq_false hfailed

end Commit

/-! ### Jobs -/

section Ending

variable (o : Others p) {k₀ k : FileSink SharedDisk} {opened : Bool} {cs : List CompressionError}
  {bytes : List UInt8} {e : CompressionError} (hpath : k₀.path = p)

include hpath

theorem staged_commits_movesOnce (h : Staged (FileSink.sink (sharedFileSystem o)) k₀ bytes k) :
    MovesOnce p k₀.fs (FileSink.commit (sharedFileSystem o) k).2.fs := by
  have hstaged := staged_calm (shared_still o) hpath h
  exact hstaged.2.movesOnce (commit_movesOnce o hstaged.1)

theorem unfinished_movesOnce (h : Unfinished (FileSink.sink (sharedFileSystem o)) k₀ cs bytes k) :
    MovesOnce p k₀.fs k.fs := by
  cases h with
  | staged hstaged => exact .inl (staged_calm (shared_still o) hpath hstaged).2
  | writeFailed more hstaged _ =>
    exact .inl (write_calm (shared_still o) more (staged_calm (shared_still o) hpath hstaged)).2
  | commitFailed hstaged _ => exact staged_commits_movesOnce o hpath hstaged

theorem unfinished_looked (htruncate : k₀.truncate = false)
    (h : Unfinished (FileSink.sink (sharedFileSystem o)) k₀ cs bytes k) :
    (interrupt o k₀.fs).own.disk p = none := by
  cases h with
  | staged hstaged => exact staged_looked o hpath htruncate hstaged
  | writeFailed _ hstaged _ => exact staged_looked o hpath htruncate hstaged
  | commitFailed hstaged _ => exact staged_looked o hpath htruncate hstaged

/-- A session makes no rename, or it has found nothing when it was opened, and a first rename. -/
theorem ending_movesOnce (htruncate : k₀.truncate = false)
    (h : SinkEnding (FileSink.sink (sharedFileSystem o)) k₀ opened cs bytes e k) :
    Still k₀.fs k.fs ∨ (interrupt o k₀.fs).own.disk p = none ∧ MovesOnce p k₀.fs k.fs := by
  have still := shared_still o
  have hstart : Since p Still k₀.fs k₀ := ⟨hpath,still.refl _⟩
  cases h with
  | rejected _ => exact .inl hstart.2
  | sourceFailed _ => exact .inl (close_calm still hstart).2
  | openFailed _ _ => exact .inl (close_calm still (open_calm still k₀ hpath)).2
  | @aborted _ _ _ k _ hunfinished =>
    have hsince := unfinished_calm (shared_grows o) (rename_grows o) hpath hunfinished
    have hended := close_calm still (abort_calm still ⟨hsince.1,still.refl k.fs⟩)
    exact .inr ⟨unfinished_looked o hpath htruncate hunfinished,
      (unfinished_movesOnce o hpath hunfinished).still hended.2⟩
  | @committed _ k hstaged _ =>
    have hsince := commit_calm (shared_grows o) (rename_grows o) (staged_calm (shared_grows o) hpath hstaged)
    have hended := close_calm still ⟨hsince.1,still.refl (FileSink.commit (sharedFileSystem o) k).2.fs⟩
    exact .inr ⟨staged_looked o hpath htruncate hstaged,(staged_commits_movesOnce o hpath hstaged).still hended.2⟩

end Ending

section Runs

variable {σ : Type} {ctx : RunContext σ (FileSink SharedDisk)} {fuel : ℕ} {source : σ} {heap : Heap}
  {k₀ : FileSink SharedDisk}

open Compressor (runSyncJob runSyncJob_ends)

theorem run_movesOnce (o : Others k₀.path) (hsink : ctx.sink = FileSink.sink (sharedFileSystem o))
    (htruncate : k₀.truncate = false) :
    let run := Proc.exec (runSyncJob ctx fuel) (.start source k₀ heap)
    Still k₀.fs run.2.sink.fs ∨
      (interrupt o k₀.fs).own.disk k₀.path = none ∧ MovesOnce k₀.path k₀.fs run.2.sink.fs := by
  intro run
  rcases Proc.exec_cases (@runSyncJob_ends _ _ k₀ ctx fuel source heap) with ⟨r,hr,hends⟩ | ⟨hnone,htransfer⟩
  · unfold Compressor.EndsSession at hends
    rw [hsink] at hends
    exact ending_movesOnce o rfl htruncate hends
  · have hstaged := htransfer.staged
    rw [hsink] at hstaged
    exact .inl (staged_calm (shared_still o) rfl hstaged).2

/-- Whenever other tasks create the destination after the first call, with which `open` looks for it, the disk
refuses each rename that is made from then on. -/
def RefusesLate (o : Others p) (fails : ℕ → Bool) (d : Disk) (log : List FsEvent) : Prop :=
  ∀ i j a c, 0 < i → i ≤ j → o.act i (diskBefore d log i) p ≠ diskBefore d log i p →
    log[j]?.map FsEvent.call = some (.rename a c) → RefusesRename fails j a c (o.act j (diskBefore d log j))

/-- A rename that meets a file is one that is refused. -/
theorem RefusesLate.refused {o : Others p} {fails : ℕ → Bool} {d d' : Disk} {log : List FsEvent}
    (h : RefusesLate o fails d log) (hturns : TakeTurns o fails 0 d log d') (hd : d p = none)
    (hlooked : o.act 0 d p = none) {before after : List FsEvent} {e : FsEvent}
    (hlog : log = before ++ e :: after) (hfirst : FirstRename p before e after) :
    ∀ x ∈ log, Meets p x → x.ok = false := by
  have he : log[before.length]? = some e := by rw [hlog]; simp
  have hlt : before.length < log.length := (List.getElem?_eq_some_iff.mp he).1
  have hturn := hturns.at he
  rw [Nat.zero_add] at hturn
  obtain ⟨a,c,hcall⟩ := hfirst.rename
  have hworks (hmeets : Meets p e) : e.ok = false := by
    by_contra hok
    -- nobody has created the file that it meets
    have hsame : ∀ i ≤ before.length, o.act i (diskBefore d log i) p = diskBefore d log i p := by
      intro i hi
      by_contra hcreated
      rcases Nat.eq_zero_or_pos i with rfl | hpos
      · exact hcreated (hlooked.trans hd.symm)
      · refine hok ((hturn.refused a c hcall).mpr ?_)
        rw [hturn.before_eq]
        exact h i _ a c hpos hi hcreated (by rw [he,Option.map_some,hcall])
    have hstill : ∀ x ∈ log.take before.length, ¬IsRename x := by
      rw [hlog,List.take_left]
      exact hfirst.still
    have habsent := absent_still hturns hd hstill hsame hlt
    rw [← hturn.before_eq] at habsent
    exact hmeets.2 habsent
  intro x hx hmeets
  obtain ⟨a',c',hcall',-⟩ := hmeets.1
  rw [hlog,List.mem_append,List.mem_cons] at hx
  rcases hx with hbefore | rfl | hafter
  · exact absurd ⟨a',c',hcall'⟩ (hfirst.still x hbefore)
  · exact hworks hmeets
  · rcases hfirst.later with hstill | ⟨hmeets',hok⟩
    · exact absurd ⟨a',c',hcall'⟩ (hstill x hafter)
    · rw [hworks hmeets'] at hok
      exact absurd hok (by simp)

/-- What is created after the first look, and not moved or overwritten, has been spared by the disk. -/
theorem refusesLate_of_refused {o : Others p} {fails : ℕ → Bool} {d d' : Disk} {log : List FsEvent}
    (hturns : TakeTurns o fails 0 d log d') (hrefused : ∀ e ∈ log, Meets p e → e.ok = false) :
    RefusesLate o fails d log := by
  intro i j a c _ hij hcreated hrename
  obtain ⟨e,he,hcall⟩ := Option.map_eq_some_iff.mp hrename
  have hturn := hturns.at he
  rw [Nat.zero_add] at hturn
  have hp : p = a ∨ p = c := by
    rcases hturn.call with ⟨a',c',hcall',hp⟩ | ⟨hno,-⟩
    · obtain ⟨rfl,rfl⟩ := FsCall.rename.inj (hcall.symm.trans hcall')
      exact hp
    · exact absurd ⟨a,c,hcall⟩ hno
  have hpresent := present_later hturns hrefused hcreated hij (List.getElem?_eq_some_iff.mp he).1
  rw [← hturn.before_eq] at hpresent ⊢
  exact (hturn.refused a c hcall).mp (hrefused e (List.mem_of_getElem? he) ⟨⟨a,c,hcall,hp⟩,hpresent⟩)

/-- A file that is at the destination before the job starts is spared. One that other tasks create is spared
exactly if the disk refuses each rename that the job makes after they have created it, unless `open` has seen it; so
it is when they create none between the job's first call and its last rename. -/
theorem truncate_false_spares (o : Others k₀.path)
    (hsink : ctx.sink = FileSink.sink (sharedFileSystem o)) (htruncate : k₀.truncate = false)
    (hlog : k₀.fs.own.log = []) (happeared : k₀.fs.appeared = []) :
    let run := Proc.exec (runSyncJob ctx fuel) (.start source k₀ heap)
    let log := run.2.sink.fs.own.log
    (k₀.fs.own.disk k₀.path ≠ none → Spares k₀.path k₀.fs run.2.sink.fs run.1) ∧
    (Spares k₀.path k₀.fs run.2.sink.fs run.1 ↔ RefusesLate o k₀.fs.own.fails k₀.fs.own.disk log) ∧
    ((∀ i j a c, 0 < i → i ≤ j → log[j]?.map FsEvent.call = some (.rename a c) →
      ∀ d, o.act i d k₀.path = d k₀.path) → Spares k₀.path k₀.fs run.2.sink.fs run.1) := by
  intro run log
  obtain ⟨-,es,hes,hturns⟩ := run_calm (shared_follows o) (rename_follows o) hsink rfl fuel source heap
  rw [hlog,List.nil_append] at hes
  rw [hlog,← hes] at hturns
  have hlate (h : RefusesLate o k₀.fs.own.fails k₀.fs.own.disk log) :
      Spares k₀.path k₀.fs run.2.sink.fs run.1 := by
    refine run_spares o hsink htruncate hlog happeared fun hnone => ?_
    rcases run_movesOnce o hsink htruncate with ⟨es',hes',hstill⟩ | ⟨hlooked,⟨es',hes',hstill⟩ | hmoves⟩
    · intro e he hmeets
      obtain ⟨a,c,hcall,-⟩ := hmeets.1
      rw [hes',hlog] at he
      exact absurd ⟨a,c,hcall⟩ (hstill e he)
    · intro e he hmeets
      obtain ⟨a,c,hcall,-⟩ := hmeets.1
      rw [hes',hlog] at he
      exact absurd ⟨a,c,hcall⟩ (hstill e he)
    · obtain ⟨before,e,after,hlog',hfirst⟩ := hmoves
      rw [hlog,List.nil_append] at hlog'
      refine h.refused hturns hnone ?_ hlog' hfirst
      unfold interrupt at hlooked
      rwa [hlog] at hlooked
  refine ⟨fun hpresent => ?_,⟨fun h => refusesLate_of_refused hturns h.refused,hlate⟩,fun hquiet => hlate ?_⟩
  · exact run_spares o hsink htruncate hlog happeared fun hnone => absurd hnone hpresent
  · intro i j a c hpos hij hcreated hrename
    exact absurd (hquiet i j a c hpos hij hrename _) hcreated

end Runs

/-- A call that is a rename. -/
def isRenameCall : FsCall → Bool
  | .rename _ _ => true
  | _ => false

/-- The file appears after the look of `open`, and the disk refuses the rename that would move it away; it appears
before, and `open` fails. -/
theorem truncate_false_spares_refused :
    Spares ['f'] (racingSink fun i => decide (i = 9)).fs (racingRun 1 fun i => decide (i = 9)).2.sink.fs
      (racingRun 1 fun i => decide (i = 9)).1 ∧
    Spares ['f'] (racingSink fun _ => false).fs (racingRun 0 fun _ => false).2.sink.fs
      (racingRun 0 fun _ => false).1 ∧
    (racingRun 0 fun _ => false).1.map (·.error) = some .openFailed ∧
    (racingRun 0 fun _ => false).2.sink.fs.appeared = [[7]] := by
  refine ⟨?_,?_,by decide +kernel,by decide +kernel⟩
  · refine (@truncate_false_spares _ (racingJob 1) 1 ⟨[],0,false⟩ .unlimited
      (racingSink fun i => decide (i = 9)) (creator 1) rfl rfl rfl rfl).2.1.mpr fun i j a c _ _ _ hrename => ?_
    have honly : ∀ k < 20, ((racingRun 1 fun i => decide (i = 9)).2.sink.fs.own.log[k]?.map
        fun e => isRenameCall e.call) = some true → k = 9 := by decide +kernel
    have hlength : (racingRun 1 fun i => decide (i = 9)).2.sink.fs.own.log.length ≤ 20 := by decide +kernel
    obtain ⟨e,he,hcall⟩ := Option.map_eq_some_iff.mp hrename
    have hlt := (List.getElem?_eq_some_iff.mp he).1
    obtain rfl : j = 9 := honly j (lt_of_lt_of_le hlt hlength) (Option.map_eq_some_iff.mpr ⟨e,he,by rw [hcall]; rfl⟩)
    exact .inl rfl
  · refine (@truncate_false_spares _ (racingJob 0) 1 ⟨[],0,false⟩ .unlimited
      (racingSink fun _ => false) (creator 0) rfl rfl rfl rfl).2.2 fun i j a c hpos _ _ d => ?_
    exact congrFun (if_neg fun hzero => absurd hzero.1 hpos.ne') ['f']

end FileRaces
end EspCompressor
