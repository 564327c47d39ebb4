import EspCompressor.FileReplace
import EspCompressor.Session

/-! `FileSink` on a disk that other tasks use as well: between any two of its calls they do what they
like, and at its destination they may create a file where nothing is. -/
namespace EspCompressor
namespace FileRaces

open FileSink (ask cleanup cleanupTemp cleanupBackup openTemp publish)

/-! ### A sink on any file system -/

/-- A preorder that holds across every call except a rename, for calls that do not change `p`. -/
structure Calm {φ : Type} (fs : FileSystem φ) (p : Path) (R : φ → φ → Prop) : Prop where
  refl : ∀ s, R s s
  trans : ∀ {s s' s''}, R s s' → R s' s'' → R s s''
  exists' : ∀ q s, R s (fs.exists' q s).2
  mkdir : ∀ q s, q ≠ p → R s (fs.mkdir q s).2
  openWrite : ∀ q s, q ≠ p → R s (fs.openWrite q s).2
  write : ∀ q bytes s, q ≠ p → R s (fs.write q bytes s).2
  closeFile : ∀ q s, R s (fs.closeFile q s)
  remove : ∀ q s, q ≠ p → R s (fs.remove q s).2

section Calm

variable {φ : Type} {fs : FileSystem φ} {p : Path} {R : φ → φ → Prop} (calm : Calm fs p R)

include calm

theorem ensureDirWithin_calm (n : ℕ) {path : Path} (hp : path.length < p.length) (s : φ) :
    R s (ensureDirWithin fs n path s).2 := by
  induction n generalizing path s with
  | zero => exact calm.refl s
  | succ n ih =>
    have hlook := calm.exists' path s
    have hne : path ≠ p := fun h => absurd hp (by rw [h]; exact lt_irrefl _)
    unfold ensureDirWithin
    dsimp only
    split_ifs with hroot hpresent hparent hmade
    · exact calm.refl s
    · exact hlook
    · have hshorter := espCompressorDirname_length_lt (fun h => hroot (.inl h)) fun h => hroot (.inr h)
      exact calm.trans (calm.trans hlook (ih (hshorter.trans hp) _)) (calm.mkdir path _ hne)
    · have hshorter := espCompressorDirname_length_lt (fun h => hroot (.inl h)) fun h => hroot (.inr h)
      exact calm.trans hlook (ih (hshorter.trans hp) _)
    · exact calm.trans hlook (calm.mkdir path _ hne)

theorem ensureDir_calm (hp : p ≠ []) (s : φ) :
    R s (espCompressorEnsureDir fs (espCompressorDirname p) s).2 := by
  by_cases hroot : p = ['/']
  · subst hroot
    exact calm.refl s
  · exact ensureDirWithin_calm calm _ (espCompressorDirname_length_lt hp hroot) s

/-- From `k` on, the sink of `p` has made calls of the preorder only. -/
def Since (p : Path) (R : φ → φ → Prop) (s : φ) (k : FileSink φ) : Prop := k.path = p ∧ R s k.fs

omit calm in
theorem Since.path {s : φ} {k : FileSink φ} (h : Since p R s k) : k.path = p := h.1

theorem cleanup_calm {q : Path} (hq : q ≠ p) {s : φ} {k : FileSink φ} (h : Since p R s k) :
    Since p R s (cleanup fs q k) := by
  have hlook := calm.trans h.2 (calm.exists' q k.fs)
  unfold cleanup ask
  dsimp only
  split_ifs
  · exact ⟨h.1,calm.trans hlook (calm.remove q _ hq)⟩
  · exact ⟨h.1,hlook⟩

theorem cleanupTemp_calm {s : φ} {k : FileSink φ} (h : Since p R s k) :
    Since p R s (cleanupTemp fs k) := by
  unfold cleanupTemp
  rw [h.path]
  exact cleanup_calm calm (tempPath_ne p) h

theorem cleanupBackup_calm {s : φ} {k : FileSink φ} (h : Since p R s k) :
    Since p R s (cleanupBackup fs k) := by
  unfold cleanupBackup
  rw [h.path]
  exact cleanup_calm calm (backupPath_ne p) h

theorem openTemp_calm (hp : p ≠ []) {s : φ} {k : FileSink φ} (h : Since p R s k) :
    Since p R s (openTemp fs k).2 := by
  have hmade : Since p R s (ask (espCompressorEnsureDir fs (espCompressorDirname k.path)) k).2 := by
    refine ⟨h.1,calm.trans h.2 ?_⟩
    rw [h.path]
    exact ensureDir_calm calm hp k.fs
  unfold openTemp
  dsimp only
  generalize ask (espCompressorEnsureDir fs (espCompressorDirname k.path)) k = made at hmade ⊢
  have hclean := cleanupBackup_calm calm (cleanupTemp_calm calm hmade)
  generalize cleanupBackup fs (cleanupTemp fs made.2) = k₂ at hclean ⊢
  have hopen : R s (fs.openWrite (tempPath k₂.path) k₂.fs).2 :=
    calm.trans hclean.2 (calm.openWrite _ _ (by rw [hclean.path]; exact tempPath_ne p))
  split_ifs
  · exact hmade
  · exact ⟨hclean.1,hopen⟩
  · exact ⟨hclean.1,hopen⟩

theorem open_calm (k : FileSink φ) (hk : k.path = p) : Since p R k.fs (FileSink.open' fs k).2 := by
  have hstart : Since p R k.fs k := ⟨hk,calm.refl _⟩
  have hlook : Since p R k.fs (ask (fs.exists' k.path) k).2 := ⟨hk,calm.exists' _ _⟩
  unfold FileSink.open'
  dsimp only
  split_ifs with hempty
  · exact hstart
  · exact hlook
  · exact openTemp_calm calm (hk ▸ hempty) hlook
  · exact openTemp_calm calm (hk ▸ hempty) hstart

theorem write_calm (bytes : List UInt8) {s : φ} {k : FileSink φ} (h : Since p R s k) :
    Since p R s (FileSink.write fs bytes k).2 := by
  have hwrite : R s (fs.write (tempPath k.path) bytes k.fs).2 :=
    calm.trans h.2 (calm.write _ _ _ (by rw [h.path]; exact tempPath_ne p))
  unfold FileSink.write
  dsimp only
  split_ifs
  · exact h
  · exact h
  · exact ⟨h.1,hwrite⟩
  · exact ⟨h.1,hwrite⟩

theorem closeFile_calm {s : φ} {k : FileSink φ} (h : Since p R s k) :
    Since p R s (FileSink.closeFile fs k) := ⟨h.1,calm.trans h.2 (calm.closeFile _ _)⟩

theorem close_calm {s : φ} {k : FileSink φ} (h : Since p R s k) :
    Since p R s (FileSink.close fs k) := by
  unfold FileSink.close
  dsimp only
  split_ifs
  · exact closeFile_calm calm h
  · exact h

theorem abort_calm {s : φ} {k : FileSink φ} (h : Since p R s k) :
    Since p R s (FileSink.abort fs k) := by
  unfold FileSink.abort
  dsimp only
  split_ifs
  · exact cleanupBackup_calm calm (cleanupTemp_calm calm (closeFile_calm calm h))
  · exact cleanupBackup_calm calm (cleanupTemp_calm calm h)

theorem staged_calm {k₀ k : FileSink φ} (hk₀ : k₀.path = p) {bytes : List UInt8}
    (h : Staged (FileSink.sink fs) k₀ bytes k) : Since p R k₀.fs k := by
  induction h with
  | opened _ => exact open_calm calm k₀ hk₀
  | wrote more _ _ ih => exact write_calm calm more ih

end Calm

section Rename

variable {φ : Type} {fs : FileSystem φ} {p : Path} {R : φ → φ → Prop} (calm : Calm fs p R)
  (hrename : ∀ a c s, p = a ∨ p = c → R s (fs.rename a c s).2)

include calm hrename

/-- A preorder that holds across the renames of `p` as well holds across a commit. -/
theorem publish_calm (hadDestination : Bool) {s : φ} {k : FileSink φ} (h : Since p R s k) :
    Since p R s (publish fs hadDestination k).2 := by
  have hmoved : Since p R s (ask (fs.rename (tempPath k.path) k.path) k).2 :=
    ⟨h.1,calm.trans h.2 (hrename _ _ _ (.inr h.path.symm))⟩
  unfold publish
  dsimp only
  generalize ask (fs.rename (tempPath k.path) k.path) k = moved at hmoved ⊢
  have hback : Since p R s
      (ask (fs.rename (backupPath moved.2.path) moved.2.path) moved.2).2 :=
    ⟨hmoved.1,calm.trans hmoved.2 (hrename _ _ _ (.inr hmoved.path.symm))⟩
  split_ifs
  · exact cleanupTemp_calm calm hback
  · exact cleanupTemp_calm calm hmoved
  · exact cleanupBackup_calm calm hmoved

theorem commit_calm {s : φ} {k : FileSink φ} (h : Since p R s k) :
    Since p R s (FileSink.commit fs k).2 := by
  have hclosed := closeFile_calm calm h
  have hlook : Since p R s (ask (fs.exists' k.path) (FileSink.closeFile fs k)).2 :=
    ⟨h.1,calm.trans hclosed.2 (calm.exists' _ _)⟩
  unfold FileSink.commit
  dsimp only
  generalize ask (fs.exists' k.path) (FileSink.closeFile fs k) = present at hlook ⊢
  have hclean := cleanupBackup_calm calm hlook
  generalize cleanupBackup fs present.2 = k₂ at hclean ⊢
  have hmoved : Since p R s (ask (fs.rename k₂.path (backupPath k₂.path)) k₂).2 :=
    ⟨hclean.1,calm.trans hclean.2 (hrename _ _ _ (.inl hclean.path.symm))⟩
  split_ifs
  · exact h
  · exact hmoved
  · exact publish_calm calm hrename true hmoved
  · exact publish_calm calm hrename false hlook

theorem unfinished_calm {k₀ k : FileSink φ} (hk₀ : k₀.path = p) {cs : List CompressionError}
    {bytes : List UInt8} (h : Unfinished (FileSink.sink fs) k₀ cs bytes k) : Since p R k₀.fs k := by
  cases h with
  | staged hstaged => exact staged_calm calm hk₀ hstaged
  | writeFailed more hstaged _ => exact write_calm calm more (staged_calm calm hk₀ hstaged)
  | commitFailed hstaged _ => exact commit_calm calm hrename (staged_calm calm hk₀ hstaged)

/-- It holds across a whole session. -/
theorem ending_calm {k₀ k : FileSink φ} (hk₀ : k₀.path = p) {opened : Bool} {cs : List CompressionError}
    {bytes : List UInt8} {e : CompressionError}
    (h : SinkEnding (FileSink.sink fs) k₀ opened cs bytes e k) : Since p R k₀.fs k := by
  cases h with
  | rejected _ => exact ⟨hk₀,calm.refl _⟩
  | sourceFailed _ => exact close_calm calm ⟨hk₀,calm.refl _⟩
  | openFailed _ _ => exact close_calm calm (open_calm calm k₀ hk₀)
  | aborted _ hunfinished =>
    exact close_calm calm (abort_calm calm (unfinished_calm calm hrename hk₀ hunfinished))
  | committed hstaged _ =>
    exact close_calm calm (commit_calm calm hrename (staged_calm calm hk₀ hstaged))

/-- And across a job, whether or not it has returned. -/
theorem run_calm {σ : Type} {ctx : RunContext σ (FileSink φ)} (hsink : ctx.sink = FileSink.sink fs)
    {k₀ : FileSink φ} (hk₀ : k₀.path = p) (fuel : ℕ) (source : σ) (heap : Heap) :
    R k₀.fs (Proc.exec (Compressor.runSyncJob ctx fuel) (.start source k₀ heap)).2.sink.fs := by
  rcases Proc.exec_cases (@Compressor.runSyncJob_ends _ _ k₀ ctx fuel source heap) with
    ⟨r,hr,hends⟩ | ⟨hnone,htransfer⟩
  · unfold Compressor.EndsSession at hends
    rw [hsink] at hends
    exact (ending_calm calm hrename hk₀ hends).2
  · have hstaged := htransfer.staged
    rw [hsink] at hstaged
    exact (staged_calm calm hk₀ hstaged).2

end Rename

/-! ### Other tasks -/

/-- What other tasks do before the sink's `i`-th call. -/
structure Others (p : Path) where
  act : ℕ → Disk → Disk
  creates : ∀ i d, act i d p = d p ∨ d p = none ∧ ∃ content, act i d p = some (.file content)

/-- The disk, and the files that other tasks have created at the destination. -/
structure SharedDisk where
  own : DiskState
  appeared : List (List UInt8) := []

variable {p : Path} {α : Type}

/-- The file at `p` in `d'` that is not in `d`. -/
def arrival (p : Path) (d d' : Disk) : List (List UInt8) :=
  match d p,d' p with
  | none,some (.file content) => [content]
  | _,_ => []

/-- The other tasks' turn. -/
def interrupt (o : Others p) (s : SharedDisk) : SharedDisk :=
  { own := { s.own with disk := o.act s.own.log.length s.own.disk }
    appeared := s.appeared ++ arrival p s.own.disk (o.act s.own.log.length s.own.disk) }

/-- The other tasks' turn, and a call. -/
def call (o : Others p) (f : DiskState → α × DiskState) (s : SharedDisk) : α × SharedDisk :=
  ((f (interrupt o s).own).1,⟨(f (interrupt o s).own).2,(interrupt o s).appeared⟩)

def sharedFileSystem (o : Others p) : FileSystem SharedDisk where
  exists' q := call o (DiskState.exists' q)
  mkdir q := call o (DiskState.mkdir q)
  openWrite q := call o (DiskState.openWrite q)
  write q bytes := call o (DiskState.write q bytes)
  closeFile q s := (call o (fun t => ((),DiskState.closeFile q t)) s).2
  remove q := call o (DiskState.remove q)
  rename pathFrom pathTo := call o (DiskState.rename pathFrom pathTo)

/-- The call removes, moves away or overwrites what is at `p`. -/
def Destroys (p : Path) (e : FsEvent) : Prop :=
  e.call.touches p ∧ e.before p ≠ none ∧ (e.ok = true ∨ e.after p ≠ e.before p)

/-- A rename to or from `p`, made while something is there. -/
def Meets (p : Path) (e : FsEvent) : Prop :=
  (∃ a c, e.call = .rename a c ∧ (p = a ∨ p = c)) ∧ e.before p ≠ none

instance (p : Path) (e : FsEvent) : Decidable (Meets p e) :=
  decidable_of_iff ((match e.call with | .rename a c => decide (p = a ∨ p = c) | _ => false) = true ∧
    e.before p ≠ none) <| by
    refine and_congr_left fun _ => ?_
    cases e.call <;> simp

/-- Calls that spare what is at `p`: if a file has appeared there, it is still there. -/
structure Quietly (p : Path) (s s' : SharedDisk) : Prop where
  events : ∃ es, s'.own.log = s.own.log ++ es ∧ ∀ e ∈ es, ¬Destroys p e
  path : s'.appeared = s.appeared ∧ s'.own.disk p = s.own.disk p ∨
    s.own.disk p = none ∧ ∃ content, s'.appeared = s.appeared ++ [content] ∧
      s'.own.disk p = some (.file content)

theorem Quietly.refl (s : SharedDisk) : Quietly p s s := ⟨⟨[],by simp,by simp⟩,.inl ⟨rfl,rfl⟩⟩

theorem Quietly.trans {s s' s'' : SharedDisk} (h : Quietly p s s') (h' : Quietly p s' s'') :
    Quietly p s s'' := by
  obtain ⟨es,hes,hspared⟩ := h.events
  obtain ⟨es',hes',hspared'⟩ := h'.events
  refine ⟨⟨es ++ es',by rw [hes',hes,List.append_assoc],fun e he => ?_⟩,?_⟩
  · exact (List.mem_append.mp he).elim (hspared e) (hspared' e)
  · rcases h.path with ⟨happeared,hdisk⟩ | ⟨hnone,content,happeared,hdisk⟩
    · rcases h'.path with ⟨happeared',hdisk'⟩ | ⟨hnone',content,happeared',hdisk'⟩
      · exact .inl ⟨happeared'.trans happeared,hdisk'.trans hdisk⟩
      · exact .inr ⟨hdisk.symm.trans hnone',content,by rw [happeared',happeared],hdisk'⟩
    · rcases h'.path with ⟨happeared',hdisk'⟩ | ⟨hnone',-⟩
      · exact .inr ⟨hnone,content,happeared'.trans happeared,hdisk'.trans hdisk⟩
      · rw [hdisk] at hnone'
        exact absurd hnone' (by simp)

/-- Something at `p` stays. -/
theorem Quietly.present {s s' : SharedDisk} (h : Quietly p s s') (hs : s.own.disk p ≠ none) :
    s'.own.disk p = s.own.disk p ∧ s'.appeared = s.appeared := by
  rcases h.path with ⟨happeared,hdisk⟩ | ⟨hnone,-⟩
  · exact ⟨hdisk,happeared⟩
  · exact absurd hnone hs

/-- Nothing at `p` after, nothing before. -/
theorem Quietly.absent {s s' : SharedDisk} (h : Quietly p s s') (hs : s'.own.disk p = none) :
    s.own.disk p = none ∧ s'.appeared = s.appeared := by
  rcases h.path with ⟨happeared,hdisk⟩ | ⟨-,content,-,hdisk⟩
  · exact ⟨hdisk.symm.trans hs,happeared⟩
  · rw [hs] at hdisk
    exact absurd hdisk (by simp)

/-! ### Calls on the shared disk -/

theorem chain_nil {d d' : Disk} (h : Chain d [] d') : d' = d := by
  cases h with
  | nil => rfl

theorem chain_single {d d' : Disk} {es : List FsEvent} {e : FsEvent} (h : Chain d es d')
    (hes : es = [e]) : e.before = d ∧ e.after = d' ∧ e.Sound := by
  cases h with
  | nil => simp at hes
  | cons hsound htail =>
    obtain ⟨rfl,rfl⟩ := List.cons.inj hes
    exact ⟨rfl,(chain_nil htail).symm,hsound⟩

theorem runs_single {t t' : DiskState} {e : FsEvent} (h : Runs t [e] t') :
    e.before = t.disk ∧ e.after = t'.disk ∧ e.Sound := chain_single h.chain rfl

theorem interrupt_quietly (o : Others p) (s : SharedDisk) : Quietly p s (interrupt o s) := by
  refine ⟨⟨[],by simp [interrupt],by simp⟩,?_⟩
  unfold interrupt arrival
  dsimp only
  rcases o.creates s.own.log.length s.own.disk with hsame | ⟨hnone,content,hfile⟩
  · left
    rw [hsame]
    cases s.own.disk p <;> simp
  · right
    rw [hnone,hfile]
    exact ⟨rfl,content,rfl,rfl⟩

section Call

variable (o : Others p) {f : DiskState → α × DiskState} {s : SharedDisk} {e : FsEvent}

/-- A call that leaves what is at `p`. -/
theorem call_quietly (h : Runs (interrupt o s).own [e] (f (interrupt o s).own).2)
    (hkeep : e.after p = e.before p) (hspares : ¬Destroys p e) : Quietly p s (call o f s).2 := by
  obtain ⟨hbefore,hafter,-⟩ := runs_single h
  apply (interrupt_quietly o s).trans
  refine ⟨⟨[e],h.log_eq,fun e' he' => ?_⟩,.inl ⟨rfl,?_⟩⟩
  · rw [List.mem_singleton.mp he']
    exact hspares
  · rw [hafter,hbefore] at hkeep
    exact hkeep

theorem call_untouched (h : Runs (interrupt o s).own [e] (f (interrupt o s).own).2)
    (htouch : ¬e.call.touches p) : Quietly p s (call o f s).2 :=
  call_quietly o h ((runs_single h).2.2.frame htouch) fun hdestroys => htouch hdestroys.1

end Call

theorem shared_calm (o : Others p) : Calm (sharedFileSystem o) p (Quietly p) where
  refl := Quietly.refl
  trans := Quietly.trans
  exists' q _ := call_untouched o (DiskState.exists_runs q _) id
  mkdir q _ hq := call_untouched o (DiskState.mkdir_runs q _) fun h => hq h.symm
  openWrite q _ hq := call_untouched o (DiskState.openWrite_runs q _) fun h => hq h.symm
  write q bytes s hq := by
    obtain ⟨ok,hruns,-⟩ := DiskState.write_runs q bytes (interrupt o s).own
    exact call_untouched o hruns fun h => hq h.symm
  closeFile q s := by
    have hruns := DiskState.closeFile_runs q (interrupt o s).own
    exact call_untouched o (f := fun t => ((),DiskState.closeFile q t)) hruns id
  remove q _ hq := call_untouched o (DiskState.remove_runs q _) fun h => hq h.symm

/-- More calls. -/
def Grows (s s' : SharedDisk) : Prop := ∃ es, s'.own.log = s.own.log ++ es

theorem call_grows (o : Others p) {f : DiskState → α × DiskState} {s : SharedDisk} {e : FsEvent}
    (h : Runs (interrupt o s).own [e] (f (interrupt o s).own).2) : Grows s (call o f s).2 :=
  ⟨[e],h.log_eq⟩

theorem shared_grows (o : Others p) : Calm (sharedFileSystem o) p Grows where
  refl s := ⟨[],by simp⟩
  trans := fun ⟨es,hes⟩ ⟨es',hes'⟩ => ⟨es ++ es',by rw [hes',hes,List.append_assoc]⟩
  exists' q _ := call_grows o (DiskState.exists_runs q _)
  mkdir q _ _ := call_grows o (DiskState.mkdir_runs q _)
  openWrite q _ _ := call_grows o (DiskState.openWrite_runs q _)
  write q bytes s _ := by
    obtain ⟨ok,hruns,-⟩ := DiskState.write_runs q bytes (interrupt o s).own
    exact call_grows o hruns
  closeFile q s := by
    have hruns := DiskState.closeFile_runs q (interrupt o s).own
    exact call_grows o (f := fun t => ((),DiskState.closeFile q t)) hruns
  remove q _ _ := call_grows o (DiskState.remove_runs q _)

theorem rename_grows (o : Others p) (a c : Path) (s : SharedDisk) (_ : p = a ∨ p = c) :
    Grows s ((sharedFileSystem o).rename a c s).2 :=
  call_grows o (DiskState.rename_runs a c _)

theorem Quietly.grows {s s' : SharedDisk} (h : Quietly p s s') : Grows s s' :=
  h.events.imp fun _ h => h.1

/-- No rename that met a file at `p` succeeded. -/
def Refused (p : Path) (s : SharedDisk) : Prop := ∀ e ∈ s.own.log, Meets p e → e.ok = false

theorem Refused.before {s s' : SharedDisk} (h : Refused p s') (hgrows : Grows s s') :
    Refused p s := by
  obtain ⟨es,hes⟩ := hgrows
  exact fun e he => h e (hes ▸ List.mem_append_left _ he)

/-! ### Renames on the shared disk -/

section Rename

variable (o : Others p) {a c : Path} {s : SharedDisk}

/-- A rename that fails changes nothing. -/
theorem rename_failed (h : ((sharedFileSystem o).rename a c s).1 = false) :
    Quietly p s ((sharedFileSystem o).rename a c s).2 := by
  have hruns := DiskState.rename_runs a c (interrupt o s).own
  have hfailed : (DiskState.rename a c (interrupt o s).own).1 = false := h
  rw [hfailed] at hruns
  have hsame : (DiskState.rename a c (interrupt o s).own).2.disk = (interrupt o s).own.disk :=
    (runs_single hruns).2.2
  refine call_quietly o hruns (congrFun hsame p) ?_
  rintro ⟨-,-,hok | hchanged⟩
  · simp at hok
  · exact hchanged (congrFun hsame p)

/-- The event of a rename. -/
theorem rename_mem : ∃ d, ⟨.rename a c,((sharedFileSystem o).rename a c s).1,
    (interrupt o s).own.disk,d⟩ ∈ ((sharedFileSystem o).rename a c s).2.own.log := by
  have hruns := DiskState.rename_runs a c (interrupt o s).own
  have hlog : ((sharedFileSystem o).rename a c s).2.own.log = _ := hruns.log_eq
  rw [hlog]
  exact ⟨_,List.mem_append_right _ (List.mem_singleton_self _)⟩

/-- A rename that must not replace what is at `p`. -/
theorem rename_refused (hp : p = a ∨ p = c) (hpresent : s.own.disk p ≠ none)
    (h : Refused p ((sharedFileSystem o).rename a c s).2) :
    ((sharedFileSystem o).rename a c s).1 = false := by
  obtain ⟨d,hmem⟩ := rename_mem o (a := a) (c := c) (s := s)
  apply h _ hmem
  refine ⟨⟨a,c,rfl,hp⟩,?_⟩
  have hkept := (interrupt_quietly o s).present hpresent
  change (interrupt o s).own.disk p ≠ none
  rw [hkept.1]
  exact hpresent

end Rename

/-- The job has put its file at `p`, where nothing was and no other file has appeared. -/
structure Published (p : Path) (s s' : SharedDisk) : Prop where
  events : ∃ es, s'.own.log = s.own.log ++ es ∧ ∀ e ∈ es, ¬Destroys p e
  vacant : s.own.disk p = none
  appeared : s'.appeared = s.appeared
  present : s'.own.disk p ≠ none

theorem Quietly.published {s s' s'' : SharedDisk} (h : Quietly p s s') (h' : Published p s' s'') :
    Published p s s'' := by
  obtain ⟨es,hes,hspared⟩ := h.events
  obtain ⟨es',hes',hspared'⟩ := h'.events
  obtain ⟨hvacant,happeared⟩ := h.absent h'.vacant
  refine ⟨⟨es ++ es',by rw [hes',hes,List.append_assoc],fun e he => ?_⟩,hvacant,?_,h'.present⟩
  · exact (List.mem_append.mp he).elim (hspared e) (hspared' e)
  · rw [h'.appeared,happeared]

theorem Published.quietly {s s' s'' : SharedDisk} (h : Published p s s') (h' : Quietly p s' s'') :
    Published p s s'' := by
  obtain ⟨es,hes,hspared⟩ := h.events
  obtain ⟨es',hes',hspared'⟩ := h'.events
  obtain ⟨hkept,happeared⟩ := h'.present h.present
  refine ⟨⟨es ++ es',by rw [hes',hes,List.append_assoc],fun e he => ?_⟩,h.vacant,?_,?_⟩
  · exact (List.mem_append.mp he).elim (hspared e) (hspared' e)
  · rw [happeared,h.appeared]
  · rw [hkept]
    exact h.present

/-- A rename to `p` that works, and met nothing there. -/
theorem rename_published (o : Others p) {a : Path} {s : SharedDisk}
    (hok : ((sharedFileSystem o).rename a p s).1 = true)
    (h : Refused p ((sharedFileSystem o).rename a p s).2) :
    Published p s ((sharedFileSystem o).rename a p s).2 := by
  have hvacant : (interrupt o s).own.disk p = none := by
    obtain ⟨d,hmem⟩ := rename_mem o (a := a) (c := p) (s := s)
    by_contra hpresent
    have hfailed := h _ hmem ⟨⟨a,p,rfl,.inr rfl⟩,hpresent⟩
    exact absurd (hok.symm.trans hfailed) (by simp)
  have hruns := DiskState.rename_runs a p (interrupt o s).own
  have hworked : (DiskState.rename a p (interrupt o s).own).1 = true := hok
  rw [hworked] at hruns
  obtain ⟨content,-,hafter⟩ := (runs_single hruns).2.2
  apply (interrupt_quietly o s).published
  refine ⟨⟨_,hruns.log_eq,fun e he hdestroys => ?_⟩,hvacant,rfl,?_⟩
  · rw [List.mem_singleton.mp he] at hdestroys
    exact hdestroys.2.1 hvacant
  · have hdisk : ((sharedFileSystem o).rename a p s).2.own.disk = _ := hafter
    rw [hdisk,Function.update_self]
    simp

/-! ### Commits on the shared disk -/

section Commit

variable (o : Others p) {s : SharedDisk} {k : FileSink SharedDisk}

/-- A commit that found nothing at `p`. -/
theorem publish_spares (h : Since p (Quietly p) s k)
    (hrefused : Refused p (publish (sharedFileSystem o) false k).2.fs) :
    ((publish (sharedFileSystem o) false k).1 ≠ .ok ∧
      Since p (Quietly p) s (publish (sharedFileSystem o) false k).2) ∨
    ((publish (sharedFileSystem o) false k).1 = .ok ∧
      Published p s (publish (sharedFileSystem o) false k).2.fs) := by
  have hpath := h.path
  unfold publish at hrefused ⊢
  dsimp only at hrefused ⊢
  rw [hpath] at hrefused ⊢
  by_cases hmoved : ((sharedFileSystem o).rename (tempPath p) p k.fs).1 = true
  · have hok : ¬(ask ((sharedFileSystem o).rename (tempPath p) p) k).1 = false :=
      fun h => absurd (hmoved.symm.trans h) (by simp)
    rw [if_neg hok] at hrefused ⊢
    have hstart : Since p (Quietly p) ((sharedFileSystem o).rename (tempPath p) p k.fs).2
        (ask ((sharedFileSystem o).rename (tempPath p) p) k).2 := ⟨hpath,Quietly.refl _⟩
    have hclean := cleanupBackup_calm (shared_calm o) hstart
    have hpublished := rename_published o hmoved (hrefused.before hclean.2.grows)
    exact .inr ⟨rfl,(h.2.published hpublished).quietly hclean.2⟩
  · have hfailed : ((sharedFileSystem o).rename (tempPath p) p k.fs).1 = false :=
      Bool.eq_false_of_not_eq_true hmoved
    have herr : (ask ((sharedFileSystem o).rename (tempPath p) p) k).1 = false := hfailed
    rw [if_pos herr]
    have hstart : Since p (Quietly p) s (ask ((sharedFileSystem o).rename (tempPath p) p) k).2 :=
      ⟨hpath,h.2.trans (rename_failed o hfailed)⟩
    exact .inl ⟨by simp,cleanupTemp_calm (shared_calm o) hstart⟩

/-- A commit that found something at `p`: its first rename is refused. -/
theorem displace_spares (h : Since p (Quietly p) s k) (hpresent : k.fs.own.disk p ≠ none)
    (hrefused : Refused p (ask ((sharedFileSystem o).rename k.path (backupPath k.path)) k).2.fs) :
    (ask ((sharedFileSystem o).rename k.path (backupPath k.path)) k).1 = false ∧
      Since p (Quietly p) s (ask ((sharedFileSystem o).rename k.path (backupPath k.path)) k).2 := by
  have hfailed := rename_refused o (.inl h.path.symm) hpresent hrefused
  exact ⟨hfailed,h.1,h.2.trans (rename_failed o hfailed)⟩

/-- The answer of `exists`. -/
theorem exists_present (q : Path) (s : SharedDisk) :
    ((sharedFileSystem o).exists' q s).1 = true →
      ((sharedFileSystem o).exists' q s).2.own.disk q ≠ none := by
  intro hpresent hnone
  have hsome : ((interrupt o s).own.disk q).isSome = true := hpresent
  have hgone : (interrupt o s).own.disk q = none := hnone
  rw [hgone] at hsome
  simp at hsome

theorem commit_spares (h : Since p (Quietly p) s k)
    (hrefused : Refused p (FileSink.commit (sharedFileSystem o) k).2.fs) :
    ((FileSink.commit (sharedFileSystem o) k).1 ≠ .ok ∧
      Since p (Quietly p) s (FileSink.commit (sharedFileSystem o) k).2) ∨
    ((FileSink.commit (sharedFileSystem o) k).1 = .ok ∧
      Published p s (FileSink.commit (sharedFileSystem o) k).2.fs) := by
  have hclosed := closeFile_calm (shared_calm o) h
  have hlook : Since p (Quietly p) s
      (ask ((sharedFileSystem o).exists' k.path) (FileSink.closeFile (sharedFileSystem o) k)).2 :=
    ⟨h.1,hclosed.2.trans ((shared_calm o).exists' _ _)⟩
  have hanswer := exists_present o k.path (FileSink.closeFile (sharedFileSystem o) k).fs
  rw [h.path] at hanswer
  unfold FileSink.commit at hrefused ⊢
  dsimp only at hrefused ⊢
  generalize hpresent : ask ((sharedFileSystem o).exists' k.path)
    (FileSink.closeFile (sharedFileSystem o) k) = present at hlook hrefused ⊢
  have hanswer : present.1 = true → present.2.fs.own.disk p ≠ none := by
    have hfound := exists_present o k.path (FileSink.closeFile (sharedFileSystem o) k).fs
    rw [← hpresent]
    rw [h.path] at hfound ⊢
    exact hfound
  have hclean := cleanupBackup_calm (shared_calm o) hlook
  have hkept := cleanupBackup_calm (shared_calm o) ⟨hlook.1,Quietly.refl present.2.fs⟩
  have hthere (hfound : present.1 = true) := (hkept.2.present (hanswer hfound)).1
  generalize cleanupBackup (sharedFileSystem o) present.2 = k₂ at hclean hthere hrefused ⊢
  split_ifs at hrefused ⊢ with hopen hfound hfailed
  · exact .inl ⟨by simp,h⟩
  · have hdisk : k₂.fs.own.disk p ≠ none := by
      rw [hthere hfound]
      exact hanswer hfound
    exact .inl ⟨by simp,(displace_spares o hclean hdisk hrefused).2⟩
  · -- the first rename has moved a file away
    have hdisk : k₂.fs.own.disk p ≠ none := by
      rw [hthere hfound]
      exact hanswer hfound
    generalize hmoved : ask ((sharedFileSystem o).rename k₂.path (backupPath k₂.path)) k₂ = moved
      at hfailed hrefused
    have hstart : Since p Grows moved.2.fs moved.2 := by
      rw [← hmoved]
      exact ⟨hclean.1,(shared_grows o).refl _⟩
    have hgrows := publish_calm (shared_grows o) (rename_grows o) true hstart
    have hrefused' := hrefused.before hgrows.2
    rw [← hmoved] at hrefused' hfailed
    exact absurd (displace_spares o hclean hdisk hrefused').1 hfailed
  · exact publish_spares o hlook hrefused

end Commit

/-! ### Jobs on the shared disk -/

/-- A sink that does not truncate stages nothing when it finds a file as it is opened. -/
theorem staged_looked (o : Others p) {k₀ k : FileSink SharedDisk} {bytes : List UInt8}
    (hpath : k₀.path = p) (htruncate : k₀.truncate = false)
    (h : Staged (FileSink.sink (sharedFileSystem o)) k₀ bytes k) : (interrupt o k₀.fs).own.disk p = none := by
  induction h with
  | opened hok =>
    by_contra hpresent
    have hfound : (ask ((sharedFileSystem o).exists' k₀.path) k₀).1 = true := by
      change ((interrupt o k₀.fs).own.disk k₀.path).isSome = true
      rw [hpath]
      exact Option.isSome_iff_ne_none.mpr hpresent
    change (FileSink.open' (sharedFileSystem o) k₀).1 = .ok at hok
    unfold FileSink.open' at hok
    dsimp only at hok
    rw [if_pos htruncate,if_pos hfound] at hok
    split_ifs at hok
  | wrote _ _ _ ih => exact ih

/-- Nor when a file was there before. -/
theorem staged_vacant (o : Others p) {k₀ k : FileSink SharedDisk} {bytes : List UInt8}
    (hpath : k₀.path = p) (htruncate : k₀.truncate = false)
    (h : Staged (FileSink.sink (sharedFileSystem o)) k₀ bytes k) : k₀.fs.own.disk p = none :=
  ((interrupt_quietly o k₀.fs).absent (staged_looked o hpath htruncate h)).1

/-- No call of the job has removed, moved away or overwritten a file at `p`. A file that was there
to begin with, or has appeared since, is still there, and the job does not return `Ok`. -/
structure Spares (p : Path) (s₀ s : SharedDisk) (result : Option CompressionResult) : Prop where
  events : ∀ e ∈ s.own.log, ¬Destroys p e
  before : ∀ node, s₀.own.disk p = some node →
    s.own.disk p = some node ∧ ∀ r, result = some r → r.error ≠ .ok
  appeared : ∀ content ∈ s.appeared,
    s.own.disk p = some (.file content) ∧ ∀ r, result = some r → r.error ≠ .ok

theorem Quietly.spares {s₀ s : SharedDisk} {result : Option CompressionResult}
    (h : Quietly p s₀ s) (hlog : s₀.own.log = []) (happeared : s₀.appeared = [])
    (hresult : ∀ r, result = some r → r.error ≠ .ok) : Spares p s₀ s result := by
  constructor
  · obtain ⟨es,hes,hspared⟩ := h.events
    rw [hes,hlog,List.nil_append]
    exact hspared
  · intro node hnode
    have hkept := (h.present (by rw [hnode]; simp)).1
    exact ⟨hkept.trans hnode,hresult⟩
  · intro content hcontent
    rcases h.path with ⟨hsame,-⟩ | ⟨-,content',hmore,hdisk⟩
    · rw [hsame,happeared] at hcontent
      simp at hcontent
    · rw [hmore,happeared,List.nil_append,List.mem_singleton] at hcontent
      rw [hcontent]
      exact ⟨hdisk,hresult⟩

theorem Published.spares {s₀ s : SharedDisk} {result : Option CompressionResult}
    (h : Published p s₀ s) (hlog : s₀.own.log = []) (happeared : s₀.appeared = []) :
    Spares p s₀ s result := by
  constructor
  · obtain ⟨es,hes,hspared⟩ := h.events
    rw [hes,hlog,List.nil_append]
    exact hspared
  · intro node hnode
    rw [h.vacant] at hnode
    simp at hnode
  · intro content hcontent
    rw [h.appeared,happeared] at hcontent
    simp at hcontent

/-- A job that spares what is at `p` has been refused every rename that met a file there. -/
theorem Spares.refused {s₀ s : SharedDisk} {result : Option CompressionResult}
    (h : Spares p s₀ s result) : Refused p s := by
  intro e he ⟨⟨a,c,hcall,hp⟩,hpresent⟩
  by_contra hok
  apply h.events e he
  refine ⟨?_,hpresent,.inl (Bool.eq_true_of_not_eq_false hok)⟩
  rw [hcall]
  exact hp

section Ending

variable (o : Others p) {k₀ k : FileSink SharedDisk} {opened : Bool} {cs : List CompressionError}
  {bytes : List UInt8} {e : CompressionError} (hpath : k₀.path = p)

include hpath

/-- A session that was not committed. -/
theorem unfinished_quietly (h : Unfinished (FileSink.sink (sharedFileSystem o)) k₀ cs bytes k)
    (hrefused : Refused p k.fs) : Since p (Quietly p) k₀.fs k := by
  cases h with
  | staged hstaged => exact staged_calm (shared_calm o) hpath hstaged
  | writeFailed more hstaged _ =>
    exact write_calm (shared_calm o) more (staged_calm (shared_calm o) hpath hstaged)
  | commitFailed hstaged hcommit =>
    have hsince := staged_calm (shared_calm o) hpath hstaged
    rcases commit_spares o hsince hrefused with ⟨-,hquiet⟩ | ⟨hok,-⟩
    · exact hquiet
    · exact absurd hok hcommit

theorem unfinished_vacant (htruncate : k₀.truncate = false)
    (h : Unfinished (FileSink.sink (sharedFileSystem o)) k₀ cs bytes k) :
    k₀.fs.own.disk p = none := by
  cases h with
  | staged hstaged => exact staged_vacant o hpath htruncate hstaged
  | writeFailed _ hstaged _ => exact staged_vacant o hpath htruncate hstaged
  | commitFailed hstaged _ => exact staged_vacant o hpath htruncate hstaged

/-- Every way a session ends. -/
theorem ending_spares (htruncate : k₀.truncate = false)
    (h : SinkEnding (FileSink.sink (sharedFileSystem o)) k₀ opened cs bytes e k)
    (hrefused : k₀.fs.own.disk p = none → Refused p k.fs) :
    e ≠ .ok ∧ Quietly p k₀.fs k.fs ∨ e = .ok ∧ Published p k₀.fs k.fs := by
  have calm := shared_calm o
  have grow := shared_grows o
  have hstart : Since p (Quietly p) k₀.fs k₀ := ⟨hpath,Quietly.refl _⟩
  cases h with
  | rejected he => exact .inl ⟨he,hstart.2⟩
  | sourceFailed he => exact .inl ⟨he,(close_calm calm hstart).2⟩
  | openFailed he _ => exact .inl ⟨he,(close_calm calm (open_calm calm k₀ hpath)).2⟩
  | @aborted _ _ _ k he hunfinished =>
    have hsince := unfinished_calm grow (rename_grows o) hpath hunfinished
    have hgrows := close_calm grow (abort_calm grow ⟨hsince.1,grow.refl k.fs⟩)
    have hrefused' := hrefused (unfinished_vacant o hpath htruncate hunfinished)
    have hquiet := unfinished_quietly o hpath hunfinished (hrefused'.before hgrows.2)
    exact .inl ⟨he,(close_calm calm (abort_calm calm hquiet)).2⟩
  | @committed _ k hstaged hcommit =>
    have hsince := commit_calm grow (rename_grows o) (staged_calm grow hpath hstaged)
    have hgrows := close_calm grow ⟨hsince.1,grow.refl _⟩
    have hrefused' := hrefused (staged_vacant o hpath htruncate hstaged)
    rcases commit_spares o (staged_calm calm hpath hstaged) (hrefused'.before hgrows.2) with
      ⟨hfailed,-⟩ | ⟨-,hpublished⟩
    · exact absurd hcommit hfailed
    · have hquiet := close_calm calm ⟨hsince.1,Quietly.refl _⟩
      exact .inr ⟨rfl,hpublished.quietly hquiet.2⟩

end Ending

section Runs

variable {σ : Type} {ctx : RunContext σ (FileSink SharedDisk)} {fuel : ℕ} {source : σ} {heap : Heap}
  {k₀ : FileSink SharedDisk}

open Compressor (runSyncJob runSyncJob_ends)

theorem run_spares (o : Others k₀.path) (hsink : ctx.sink = FileSink.sink (sharedFileSystem o))
    (htruncate : k₀.truncate = false) (hlog : k₀.fs.own.log = []) (happeared : k₀.fs.appeared = []) :
    let run := Proc.exec (runSyncJob ctx fuel) (.start source k₀ heap)
    (k₀.fs.own.disk k₀.path = none → Refused k₀.path run.2.sink.fs) →
    Spares k₀.path k₀.fs run.2.sink.fs run.1 := by
  intro run hrefused
  have hwp := @runSyncJob_ends _ _ k₀ ctx fuel source heap
  rcases Proc.exec_cases hwp with ⟨r,hr,hends⟩ | ⟨hnone,htransfer⟩
  · unfold Compressor.EndsSession at hends
    rw [hsink] at hends
    rcases ending_spares o rfl htruncate hends hrefused with ⟨he,hquiet⟩ | ⟨-,hpublished⟩
    · apply hquiet.spares hlog happeared
      intro r' hr'
      rw [hr] at hr'
      rw [← Option.some.inj hr']
      exact he
    · exact hpublished.spares hlog happeared
  · -- the job is still running, and has not come to its commit
    have hstaged := htransfer.staged
    rw [hsink] at hstaged
    apply (staged_calm (shared_calm o) rfl hstaged).2.spares hlog happeared
    intro r hr
    rw [hnone] at hr
    simp at hr

end Runs

/-- Another task that creates the file `f` before the `n`-th call of the job, unless it is there. -/
def creator (n : ℕ) : Others ['f'] where
  act i d := if i = n ∧ d ['f'] = none then Function.update d ['f'] (some (.file [7])) else d
  creates i d := by
    by_cases h : i = n ∧ d ['f'] = none
    · rw [if_pos h]
      exact .inr ⟨h.2,[7],Function.update_self _ _ _⟩
    · rw [if_neg h]
      exact .inl rfl

/-- The empty input, compressed into the file `f`, which must not be there. -/
def racingJob (n : ℕ) : RunContext BufferSource (FileSink SharedDisk) where
  operation := .compress
  source := BufferSource.source
  sink := FileSink.sink (sharedFileSystem (creator n))

/-- A sink of `f` on an empty disk, whose calls fail as given. -/
def racingSink (fails : ℕ → Bool) : FileSink SharedDisk where
  fs := ⟨⟨fun _ => none,fails,fun _ => 1000,[]⟩,[]⟩
  path := ['f']
  truncate := false

/-- The run of that job, next to that task. -/
def racingRun (n : ℕ) (fails : ℕ → Bool) :
    Option CompressionResult × RunState BufferSource (FileSink SharedDisk) :=
  Proc.exec (Compressor.runSyncJob (racingJob n) 1) (.start ⟨[],0,false⟩ (racingSink fails) .unlimited)

/-- The other task's file appears after `open` has looked for one: the commit moves it away, puts
its own file there and removes the other one, and the job returns `Ok`. -/
theorem created_file_replaced : let run := racingRun 1 fun _ => false
    run.1.map (·.error) = some .ok ∧ run.2.sink.fs.appeared = [[7]] ∧
    run.2.sink.fs.own.disk ['f'] ≠ some (.file [7]) ∧
    run.2.sink.fs.own.disk (backupPath ['f']) = none ∧
    ¬Spares ['f'] (racingSink fun _ => false).fs run.2.sink.fs run.1 := by
  refine ⟨by decide +kernel,by decide +kernel,by decide +kernel,by decide +kernel,fun h => ?_⟩
  have happeared : [7] ∈ (racingRun 1 fun _ => false).2.sink.fs.appeared := by decide +kernel
  have hkept := (h.appeared [7] happeared).1
  revert hkept
  decide +kernel

end FileRaces
end EspCompressor
