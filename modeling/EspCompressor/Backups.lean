import EspCompressor.FileHistory
import EspCompressor.FileRaces
import EspCompressor.FileSource

/-! Backups of changing contents into one file, each of which a restart may cut off after any of its calls:
what the file holds then, and what is restored from it. -/
namespace EspCompressor
namespace FileSink

open FileRaces (Calm Since)

/-! ### The order of the renames -/

/-- How far a commit has come: the destination is as it was, it was moved to the backup, or it was replaced. -/
inductive Stage
  | settled
  | displaced
  | published
  deriving DecidableEq

/-- The stage after a call of a sink of `p`, if the call may come at this stage. -/
def Stage.after (p : Path) (stage : Stage) (e : FsEvent) : Option Stage :=
  match e.call with
  | .rename a c =>
    if stage = .published then none
    else if a = tempPath p ∧ c = p then some (if e.ok then .published else stage)
    else if a = p ∧ c = backupPath p ∧ stage = .settled then some (if e.ok then .displaced else .settled)
    else if a = backupPath p ∧ c = p ∧ stage = .displaced then some (if e.ok then .settled else .displaced)
    else none
  | _ => some stage

/-- The stage after all these calls. -/
def stageAfter (p : Path) (log : List FsEvent) : Option Stage := log.foldlM (Stage.after p) .settled

theorem stageAfter_concat {p : Path} {log : List FsEvent} {stage : Stage} (h : stageAfter p log = some stage)
    (e : FsEvent) : stageAfter p (log ++ [e]) = stage.after p e := by
  rw [stageAfter,List.foldlM_append,show List.foldlM (Stage.after p) .settled log = some stage from h]
  change (stage.after p e >>= fun stage' => some stage') = _
  cases stage.after p e <;> rfl

/-- The disk's calls have come to this stage. -/
def Placed (p : Path) (stage : Stage) (s : DiskState) : Prop := stageAfter p s.log = some stage

/-- A call that is no rename leaves the stage. -/
theorem Placed.runs {p : Path} {stage : Stage} {s s' : DiskState} {e : FsEvent} (h : Placed p stage s)
    (hruns : Runs s [e] s') (hcall : ∀ a c, e.call ≠ .rename a c) : Placed p stage s' := by
  unfold Placed
  rw [hruns.log_eq,stageAfter_concat h]
  rcases e with ⟨call,ok,before,after⟩
  cases call <;> first | exact absurd rfl (hcall _ _) | rfl

/-- The calls outside `commit` leave the stage. -/
theorem placed_calm (p : Path) :
    Calm diskFileSystem p fun s s' => ∀ stage, Placed p stage s → Placed p stage s' where
  refl _ _ h := h
  trans h h' stage hs := h' stage (h stage hs)
  exists' q s stage h := h.runs (DiskState.exists_runs q s) (by simp)
  mkdir q s _ stage h := h.runs (DiskState.mkdir_runs q s) (by simp)
  openWrite q s _ stage h := h.runs (DiskState.openWrite_runs q s) (by simp)
  write q bytes s _ stage h := by
    obtain ⟨ok,hruns,-⟩ := DiskState.write_runs q bytes s
    exact h.runs hruns (by simp)
  closeFile q s stage h := h.runs (DiskState.closeFile_runs q s) (by simp)
  remove q s _ stage h := h.runs (DiskState.remove_runs q s) (by simp)

section Renames

variable {p : Path} {stage : Stage} {s : DiskState} (h : Placed p stage s)

include h

theorem Placed.publish (hstage : stage ≠ .published) :
    Placed p (if (s.rename (tempPath p) p).1 then .published else stage) (s.rename (tempPath p) p).2 := by
  unfold Placed
  rw [(DiskState.rename_runs _ _ s).log_eq,stageAfter_concat h]
  simp [Stage.after,hstage]

theorem Placed.displace (hstage : stage = .settled) :
    Placed p (if (s.rename p (backupPath p)).1 then .displaced else .settled) (s.rename p (backupPath p)).2 := by
  unfold Placed
  rw [(DiskState.rename_runs _ _ s).log_eq,stageAfter_concat h]
  have hne : ¬(p = tempPath p ∧ backupPath p = p) := fun hno => tempPath_ne p hno.1.symm
  simp [Stage.after,hstage,hne]

theorem Placed.restore (hstage : stage = .displaced) :
    Placed p (if (s.rename (backupPath p) p).1 then .settled else .displaced) (s.rename (backupPath p) p).2 := by
  unfold Placed
  rw [(DiskState.rename_runs _ _ s).log_eq,stageAfter_concat h]
  have hne : backupPath p ≠ tempPath p := (tempPath_ne_backupPath p).symm
  simp [Stage.after,hstage,hne]

end Renames

/-- The stage in which an answer of `commit` leaves the disk. -/
def Placed.Answered (p : Path) (e : CompressionError) (s : DiskState) : Prop :=
  ∃ stage, Placed p stage s ∧ (e = .ok ↔ stage = .published)

theorem cleanupTemp_placed {p : Path} {k : FileSink DiskState} (hpath : k.path = p) {stage : Stage}
    (h : Placed p stage k.fs) : Placed p stage (cleanupTemp diskFileSystem k).fs :=
  (FileRaces.cleanupTemp_calm (placed_calm p) ⟨hpath,(placed_calm p).refl _⟩).2 stage h

theorem cleanupBackup_placed {p : Path} {k : FileSink DiskState} (hpath : k.path = p) {stage : Stage}
    (h : Placed p stage k.fs) : Placed p stage (cleanupBackup diskFileSystem k).fs :=
  (FileRaces.cleanupBackup_calm (placed_calm p) ⟨hpath,(placed_calm p).refl _⟩).2 stage h

theorem publish_placed {p : Path} {k : FileSink DiskState} (hpath : k.path = p) (hadDestination : Bool)
    (h : Placed p (if hadDestination then .displaced else .settled) k.fs) :
    Placed.Answered p (publish diskFileSystem hadDestination k).1 (publish diskFileSystem hadDestination k).2.fs := by
  have hmoved := h.publish (by cases hadDestination <;> simp)
  unfold publish
  dsimp only
  rw [hpath]
  have hpath' : (ask (diskFileSystem.rename (tempPath p) p) k).2.path = p := hpath
  change Placed p (if (ask (diskFileSystem.rename (tempPath p) p) k).1 then _ else _)
    (ask (diskFileSystem.rename (tempPath p) p) k).2.fs at hmoved
  generalize ask (diskFileSystem.rename (tempPath p) p) k = moved at hmoved hpath' ⊢
  split_ifs with hfailed hhad
  · -- the rollback
    subst hhad
    rw [hfailed] at hmoved
    have hback : Placed p _ (ask (diskFileSystem.rename (backupPath p) p) moved.2).2.fs := hmoved.restore rfl
    have hpath₂ : (ask (diskFileSystem.rename (backupPath p) p) moved.2).2.path = p := hpath'
    rw [hpath']
    refine ⟨_,cleanupTemp_placed hpath₂ hback,?_⟩
    split_ifs <;> simp
  · rw [hfailed] at hmoved
    refine ⟨_,cleanupTemp_placed hpath' hmoved,?_⟩
    simp [hhad]
  · rw [Bool.eq_true_of_not_eq_false hfailed] at hmoved
    exact ⟨_,cleanupBackup_placed hpath' hmoved,by simp⟩

/-- A commit moves the destination aside at most once, moves it back only then, and replaces it last. -/
theorem commit_placed {p : Path} {k : FileSink DiskState} (hpath : k.path = p) (h : Placed p .settled k.fs) :
    Placed.Answered p (commit diskFileSystem k).1 (commit diskFileSystem k).2.fs := by
  have hlook : Placed p .settled (ask (diskFileSystem.exists' p) (closeFile diskFileSystem k)).2.fs :=
    (placed_calm p).exists' p _ _ ((placed_calm p).closeFile _ _ _ h)
  unfold commit
  dsimp only
  rw [hpath]
  have hpath' : (ask (diskFileSystem.exists' p) (closeFile diskFileSystem k)).2.path = p := hpath
  generalize ask (diskFileSystem.exists' p) (closeFile diskFileSystem k) = present at hlook hpath' ⊢
  have hclean := cleanupBackup_placed hpath' hlook
  have hpath₂ : (cleanupBackup diskFileSystem present.2).path = p :=
    (FileRaces.cleanupBackup_calm (placed_calm p) ⟨hpath',(placed_calm p).refl _⟩).1
  generalize cleanupBackup diskFileSystem present.2 = k₂ at hclean hpath₂ ⊢
  have hmoved := hclean.displace rfl
  rw [hpath₂]
  have hpath₃ : (ask (diskFileSystem.rename p (backupPath p)) k₂).2.path = p := hpath₂
  change Placed p (if (ask (diskFileSystem.rename p (backupPath p)) k₂).1 then _ else _)
    (ask (diskFileSystem.rename p (backupPath p)) k₂).2.fs at hmoved
  generalize ask (diskFileSystem.rename p (backupPath p)) k₂ = moved at hmoved hpath₃ ⊢
  split_ifs with hclosed hpresent hfailed
  · exact ⟨_,h,by simp⟩
  · rw [hfailed] at hmoved
    exact ⟨_,hmoved,by simp⟩
  · rw [Bool.eq_true_of_not_eq_false hfailed] at hmoved
    exact publish_placed hpath₃ true hmoved
  · exact publish_placed hpath' false hlook

theorem ending_placed {k₀ k : FileSink DiskState} (hstart : Placed k₀.path .settled k₀.fs) {opened : Bool}
    {cs : List CompressionError} {w : List UInt8} {e : CompressionError}
    (h : SinkEnding (sink diskFileSystem) k₀ opened cs w e k) : Placed.Answered k₀.path e k.fs := by
  have calm := placed_calm k₀.path
  -- what closes or aborts the sink leaves the stage
  have hclose : ∀ {k : FileSink DiskState} {stage : Stage}, k.path = k₀.path → Placed k₀.path stage k.fs →
      Placed k₀.path stage (close diskFileSystem k).fs := fun hpath hs =>
    (FileRaces.close_calm calm ⟨hpath,calm.refl _⟩).2 _ hs
  have habort : ∀ {k : FileSink DiskState} {stage : Stage}, k.path = k₀.path → Placed k₀.path stage k.fs →
      Placed k₀.path stage (close diskFileSystem (abort diskFileSystem k)).fs := fun hpath hs =>
    (FileRaces.close_calm calm (FileRaces.abort_calm calm ⟨hpath,calm.refl _⟩)).2 _ hs
  have hstaged : ∀ {bytes : List UInt8} {k : FileSink DiskState}, Staged (sink diskFileSystem) k₀ bytes k →
      k.path = k₀.path ∧ Placed k₀.path .settled k.fs := fun hs =>
    ⟨(FileRaces.staged_calm calm rfl hs).1,(FileRaces.staged_calm calm rfl hs).2 _ hstart⟩
  cases h with
  | rejected he => exact ⟨_,hstart,by simp [he]⟩
  | sourceFailed he => exact ⟨_,hclose rfl hstart,by simp [he]⟩
  | openFailed he _ =>
    have hopen := FileRaces.open_calm calm k₀ rfl
    exact ⟨_,hclose hopen.1 (hopen.2 _ hstart),by simp [he]⟩
  | aborted he hunfinished =>
    cases hunfinished with
    | staged hs =>
      obtain ⟨hpath,hplaced⟩ := hstaged hs
      exact ⟨_,habort hpath hplaced,by simp [he]⟩
    | writeFailed more hs _ =>
      have hwrite := FileRaces.write_calm calm more (FileRaces.staged_calm calm rfl hs)
      exact ⟨_,habort hwrite.1 (hwrite.2 _ hstart),by simp [he]⟩
    | commitFailed hs hfailed =>
      obtain ⟨hpath,hplaced⟩ := hstaged hs
      obtain ⟨stage,hcommit,hstage⟩ := commit_placed hpath hplaced
      obtain ⟨-,-,hpath',-⟩ := commit_spec (staged_writing hs)
      exact ⟨stage,habort hpath' hcommit,by simpa [he] using fun hp => hfailed (hstage.mpr hp)⟩
  | committed hs hok =>
    obtain ⟨hpath,hplaced⟩ := hstaged hs
    obtain ⟨stage,hcommit,hstage⟩ := commit_placed hpath hplaced
    obtain ⟨-,-,hpath',-⟩ := commit_spec (staged_writing hs)
    exact ⟨stage,hclose hpath' hcommit,by simp [hstage.mp hok]⟩

/-- The calls of a job come in order, and the job returns `Ok` exactly when the last rename has replaced the
destination. -/
theorem run_placed {σ : Type} {ctx : RunContext σ (FileSink DiskState)} (fuel : ℕ) (source : σ) (heap : Heap)
    {k₀ : FileSink DiskState} (hsink : ctx.sink = sink diskFileSystem) (hlog : k₀.fs.log = []) :
    let run := Compressor.jobRun ctx fuel source k₀ heap
    ∃ stage, stageAfter k₀.path run.2.sink.fs.log = some stage ∧
      ∀ r, run.1 = some r → (r.error = .ok ↔ stage = .published) := by
  intro run
  have hstart : Placed k₀.path .settled k₀.fs := by
    unfold Placed
    rw [hlog]
    rfl
  obtain ⟨r,hr,hends⟩ | ⟨hnone,htransfer⟩ :=
    Proc.exec_cases (@Compressor.runSyncJob_ends _ _ k₀ ctx fuel source heap)
  · unfold Compressor.EndsSession at hends
    rw [hsink] at hends
    obtain ⟨stage,hplaced,hstage⟩ := ending_placed hstart hends
    refine ⟨stage,hplaced,fun r' hr' => ?_⟩
    obtain rfl : r = r' := Option.some.inj (hr.symm.trans hr')
    exact hstage
  · have hstaged := htransfer.staged
    rw [hsink] at hstaged
    have hplaced := (FileRaces.staged_calm (placed_calm k₀.path) rfl hstaged).2 _ hstart
    refine ⟨_,hplaced,fun r' hr' => ?_⟩
    exact absurd (hr'.symm.trans hnone) (by simp)

/-! ### What the destination holds -/

/-- The disk at a stage of a job that stages `w`, while what was published before is `Good`. -/
def Holds (p : Path) (Good : List UInt8 → Prop) (w : List UInt8) : Stage → Disk → Prop
  | .settled,d => ∀ v, d p = some (.file v) → Good v
  | .displaced,d => (∀ v, d p ≠ some (.file v)) ∧ ∀ v, d (backupPath p) = some (.file v) → Good v
  | .published,d => d p = some (.file w)

section Holds

variable {p : Path} {Good : List UInt8 → Prop} {w : List UInt8} {stage stage' : Stage}

/-- Nothing but the backup may go. -/
theorem Holds.frame {d d' : Disk} (h : Holds p Good w stage d) (hp : d' p = d p)
    (hb : d' (backupPath p) = d (backupPath p) ∨ d' (backupPath p) = none) : Holds p Good w stage d' := by
  cases stage with
  | settled => exact fun v hv => h v (hp ▸ hv)
  | displaced =>
    refine ⟨fun v hv => h.1 v (hp ▸ hv),fun v hv => ?_⟩
    obtain hb | hb := hb
    · exact h.2 v (hb ▸ hv)
    · rw [hb] at hv
      cases hv
  | published => exact hp.trans h

theorem Holds.rename {a c : Path} {ok : Bool} {d d' : Disk} (h : Holds p Good w stage d)
    (hsound : (FsEvent.mk (.rename a c) ok d d').Sound) (hjob : JobEvent p w ⟨.rename a c,ok,d,d'⟩)
    (hstage : stage.after p ⟨.rename a c,ok,d,d'⟩ = some stage') : Holds p Good w stage' d' := by
  cases ok with
  | false =>
    -- a rename that fails changes nothing
    obtain rfl : d' = d := hsound
    simp only [Stage.after,Bool.false_eq_true,if_false] at hstage
    split_ifs at hstage with h₁ h₂ h₃ h₄
    · obtain rfl := Option.some.inj hstage
      exact h
    · obtain rfl := Option.some.inj hstage
      rw [h₃.2.2] at h
      exact h
    · obtain rfl := Option.some.inj hstage
      rw [h₄.2.2] at h
      exact h
  | true =>
    obtain ⟨content,hcontent,hafter⟩ : ∃ content, d a = some (.file content) ∧
      d' = Function.update (Function.update d a none) c (some (.file content)) := hsound
    have hmoved : d' c = some (.file content) := by rw [hafter,Function.update_self]
    simp only [Stage.after,if_true] at hstage
    split_ifs at hstage with h₁ h₂ h₃ h₄
    · -- the staged file replaces the destination
      obtain rfl := Option.some.inj hstage
      obtain ⟨rfl,rfl⟩ := h₂
      have hcomplete : d (tempPath c) = some (.file w) := hjob.complete rfl
      exact hmoved.trans (hcontent.symm.trans hcomplete)
    · -- the destination is moved aside
      obtain rfl := Option.some.inj hstage
      obtain ⟨rfl,rfl,rfl⟩ := h₃
      have hgone : d' a = none := by
        rw [hafter,Function.update_of_ne (backupPath_ne a).symm,Function.update_self]
      refine ⟨fun v hv => by simp [hgone] at hv,fun v hv => ?_⟩
      obtain rfl : content = v := by simpa using hmoved.symm.trans hv
      exact h content hcontent
    · -- and moved back
      obtain rfl := Option.some.inj hstage
      obtain ⟨rfl,rfl,rfl⟩ := h₄
      intro v hv
      obtain rfl : content = v := by simpa using hmoved.symm.trans hv
      exact h.2 content hcontent

/-- What one call of a job preserves. -/
theorem Holds.step {e : FsEvent} (h : Holds p Good w stage e.before) (hsound : e.Sound) (hjob : JobEvent p w e)
    (hstage : stage.after p e = some stage') : Holds p Good w stage' e.after := by
  by_cases hrename : ∀ a c, e.call ≠ .rename a c
  · have hprelude : Prelude p e := ⟨hjob.call,hrename⟩
    obtain rfl : stage = stage' := by
      rcases e with ⟨call,ok,before,after⟩
      cases call <;> first | exact absurd rfl (hrename _ _) | exact Option.some.inj hstage
    refine h.frame (hsound.frame hprelude.not_touches) ?_
    by_cases hdrop : DropsBackup p e
    · rcases e with ⟨call,ok,before,after⟩
      obtain ⟨rfl,rfl⟩ := hdrop
      exact .inr (by rw [hsound.2,Function.update_self])
    · exact .inl (hprelude.backup_kept hsound hdrop)
  · push Not at hrename
    obtain ⟨a,c,hcall⟩ := hrename
    rcases e with ⟨call,ok,before,after⟩
    obtain rfl : call = .rename a c := hcall
    exact h.rename hsound hjob hstage

/-- What any calls of a job preserve. -/
theorem Holds.calls {d d' : Disk} {es : List FsEvent} (h : Holds p Good w stage d) (hchain : Chain d es d')
    (hjob : ∀ e ∈ es, JobEvent p w e) (hstage : es.foldlM (Stage.after p) stage = some stage') :
    Holds p Good w stage' d' := by
  induction hchain generalizing stage with
  | nil d =>
    obtain rfl := Option.some.inj hstage
    exact h
  | @cons e es d hsound _ ih =>
    rw [List.foldlM_cons] at hstage
    obtain ⟨next,hnext,hrest⟩ := Option.bind_eq_some_iff.mp hstage
    exact ih (h.step hsound (hjob e List.mem_cons_self) hnext) (fun e he => hjob e (List.mem_cons_of_mem _ he)) hrest

end Holds

/-! ### Backups -/

/-- Only the last rename publishes. -/
theorem Stage.published_of_after {p : Path} {stage : Stage} {e : FsEvent} (h : stage.after p e = some .published) :
    stage = .published ∨ Publishes p e := by
  rcases e with ⟨call,ok,before,after⟩
  cases call with
  | rename a c =>
    by_cases hpublish : (a = tempPath p ∧ c = p) ∧ ok = true
    · obtain ⟨⟨rfl,rfl⟩,rfl⟩ := hpublish
      exact .inr ⟨rfl,rfl⟩
    · simp only [Stage.after] at h
      split_ifs at h <;>
        first | exact absurd ⟨‹_›,‹_›⟩ hpublish | exact .inl (Option.some.inj h) | cases h
  | _ => exact .inl (Option.some.inj h)

theorem published_of_stage {p : Path} {es : List FsEvent} {stage : Stage}
    (h : es.foldlM (Stage.after p) stage = some .published) : stage = .published ∨ ∃ e ∈ es, Publishes p e := by
  induction es generalizing stage with
  | nil => exact .inl (Option.some.inj h)
  | cons e es ih =>
    rw [List.foldlM_cons] at h
    obtain ⟨next,hnext,hrest⟩ := Option.bind_eq_some_iff.mp h
    obtain rfl | ⟨e',he',hpublishes⟩ := ih hrest
    · exact (Stage.published_of_after hnext).imp_right fun hpublishes => ⟨e,List.mem_cons_self,hpublishes⟩
    · exact .inr ⟨e',List.mem_cons_of_mem _ he',hpublishes⟩

theorem stageAfter_take {p : Path} {log : List FsEvent} {stage : Stage} (h : stageAfter p log = some stage) (n : ℕ) :
    ∃ stage', stageAfter p (log.take n) = some stage' := by
  rw [stageAfter,← List.take_append_drop n log,List.foldlM_append] at h
  obtain ⟨stage',hstage,-⟩ := Option.bind_eq_some_iff.mp h
  exact ⟨stage',hstage⟩

/-- A compression of `content` into the file `p` of the disk `d`: the source does not lie, and any call may fail. -/
structure Backup (p : Path) (d : Disk) (content : List UInt8) where
  σ : Type
  ctx : RunContext σ (FileSink DiskState)
  fuel : ℕ
  source : σ
  heap : Heap
  k₀ : FileSink DiskState
  known : Bool
  Inv : List UInt8 → σ → Prop
  truthful : Truthful ctx.source content known Inv
  opened : (ctx.source.open' source).1 = .ok → Inv content (ctx.source.open' source).2
  operation_eq : ctx.operation = .compress
  sink_eq : ctx.sink = sink diskFileSystem
  path_eq : k₀.path = p
  disk_eq : k₀.fs.disk = d
  log_nil : k₀.fs.log = []

namespace Backup

variable {p : Path} {d : Disk} {content : List UInt8}

def run (b : Backup p d content) : Option CompressionResult × RunState b.σ (FileSink DiskState) :=
  Compressor.jobRun b.ctx b.fuel b.source b.k₀ b.heap

/-- The calls that the backup makes. -/
def log (b : Backup p d content) : List FsEvent := b.run.2.sink.fs.log

/-- What was backed up last, when this backup is cut off after `n` calls. -/
def last (b : Backup p d content) (n : ℕ) (before : Option (List UInt8)) : Option (List UInt8) :=
  if stageAfter p (b.log.take n) = some .published then some content else before

/-- What is staged is complete when it is published. -/
theorem complete (b : Backup p d content) (hcommit : commits b.run.2.trace ≠ []) :
    Container.decode (EspCompressor.written b.run.2.trace) = .ok (content,[]) := by
  let job : Compressor.TruthfulJob content :=
    ⟨b.σ,_,b.ctx,b.source,b.k₀,b.heap,b.fuel,b.known,b.Inv,b.truthful,b.opened⟩
  have hcomplete := job.complete hcommit
  unfold Compressor.TruthfulJob.Complete at hcomplete
  rw [show job.ctx.operation = .compress from b.operation_eq] at hcomplete
  exact hcomplete

theorem placed (b : Backup p d content) : ∃ stage, stageAfter p b.log = some stage ∧
    ∀ r, b.run.1 = some r → (r.error = .ok ↔ stage = .published) := by
  have hplaced := run_placed b.fuel b.source b.heap b.sink_eq b.log_nil
  rw [b.path_eq] at hplaced
  exact hplaced

/-- What one backup preserves, wherever it is cut off. -/
theorem keeps (b : Backup p d content) (n : ℕ) {before : Option (List UInt8)}
    (h : ∀ v, d p = some (.file v) → ∃ x, before = some x ∧ Container.decode v = .ok (x,[])) :
    ∀ v, diskAfter d (b.log.take n) p = some (.file v) →
      ∃ x, b.last n before = some x ∧ Container.decode v = .ok (x,[]) := by
  obtain ⟨⟨d',hchain⟩,hevents,hpublishes⟩ := run_calls b.fuel b.source b.heap b.sink_eq b.log_nil
  rw [b.disk_eq] at hchain
  rw [b.path_eq] at hevents hpublishes
  obtain ⟨stage,hstage,-⟩ := b.placed
  obtain ⟨stage',hstage'⟩ := stageAfter_take hstage n
  have hcut : ∀ e ∈ b.log.take n, e ∈ b.log := fun e he => List.mem_of_mem_take he
  have hstart : Holds p (fun v => ∃ x, before = some x ∧ Container.decode v = .ok (x,[]))
      (EspCompressor.written b.run.2.trace) .settled d := h
  have hholds := hstart.calls (hchain.take n) (fun e he => hevents e (hcut e he)) hstage'
  intro v hv
  unfold last
  rw [show stageAfter p (b.log.take n) = some stage' from hstage']
  cases stage' with
  | settled => exact hholds v hv
  | displaced => exact absurd hv (hholds.1 v)
  | published =>
    obtain hno | ⟨e,he,hpublished⟩ := published_of_stage hstage'
    · cases hno
    · obtain rfl := Node.file.inj (Option.some.inj (hholds.symm.trans hv))
      exact ⟨content,by simp,b.complete (hpublishes e (hcut e he) hpublished)⟩

end Backup

/-- Backups into `p`, each cut off after some of its calls or not at all, and what others do meanwhile, who may only
remove what is at `p`: the disk then, and what was backed up last. -/
inductive Backups (p : Path) : Disk → Option (List UInt8) → Prop
  | start {d : Disk} : (∀ v, d p ≠ some (.file v)) → Backups p d none
  | others {d d' : Disk} {last : Option (List UInt8)} :
      (∀ v, d' p = some (.file v) → d p = some (.file v)) → Backups p d last → Backups p d' last
  | backup {d : Disk} {last : Option (List UInt8)} {content : List UInt8} (b : Backup p d content) (n : ℕ) :
      Backups p d last → Backups p (diskAfter d (b.log.take n)) (b.last n last)

/-- Whatever is at the destination is the last backup. -/
theorem Backups.holds {p : Path} {d : Disk} {last : Option (List UInt8)} (h : Backups p d last) :
    ∀ v, d p = some (.file v) → ∃ x, last = some x ∧ Container.decode v = .ok (x,[]) := by
  induction h with
  | start hnone => exact fun v hv => absurd hv (hnone v)
  | others hkept _ ih => exact fun v hv => ih v (hkept v hv)
  | backup b n _ ih => exact b.keeps n ih

/-! ### Restoring -/

/-- A decompression of the file `p` of the disk `d`, into any sink; any call may fail. -/
structure Restore (p : Path) (d : Disk) where
  κ : Type
  ctx : RunContext (FileSource ReaderState) κ
  fuel : ℕ
  source : FileSource ReaderState
  k₀ : κ
  heap : Heap
  operation_eq : ctx.operation = .decompress
  source_eq : ctx.source = FileSource.source diskReader
  path_eq : source.path = p
  disk_eq : ∀ i, source.fs.disks i p = d p

namespace Restore

variable {p : Path} {d : Disk}

def run (j : Restore p d) : Option CompressionResult × RunState (FileSource ReaderState) j.κ :=
  Compressor.jobRun j.ctx j.fuel j.source j.k₀ j.heap

/-- Only a container is restored, and all of its data. -/
theorem restores (j : Restore p d) {e : CompressionError} (he : IoEvent.commit e ∈ j.run.2.trace) :
    ∃ v rest, d p = some (.file v) ∧ Container.decode v = .ok (EspCompressor.written j.run.2.trace,rest) := by
  have hcommit : commits j.run.2.trace ≠ [] := Compressor.commits_ne_nil_iff.mpr ⟨e,he⟩
  have hdisk : ∀ i, j.source.fs.disks i j.source.path = d p := fun i => by rw [j.path_eq,j.disk_eq]
  by_cases hfile : ∃ v, d p = some (.file v)
  · obtain ⟨v,hv⟩ := hfile
    have hholds : ∀ i, j.source.fs.disks i j.source.path = some (.file v) := fun i => (hdisk i).trans hv
    let job : Compressor.TruthfulJob v :=
      ⟨_,j.κ,j.ctx,j.source,j.k₀,j.heap,j.fuel,true,FileSource.Remains v,j.source_eq ▸ FileSource.truthful v,
        by rw [j.source_eq]; exact FileSource.remains_open hholds⟩
    have hcomplete := job.complete hcommit
    unfold Compressor.TruthfulJob.Complete at hcomplete
    rw [show job.ctx.operation = .decompress from j.operation_eq] at hcomplete
    obtain ⟨rest,-,hdecode⟩ := hcomplete
    exact ⟨v,rest,hv,hdecode⟩
  · -- there is no file to be opened
    have hclosed : (j.ctx.source.open' j.source).1 ≠ .ok := by
      rw [j.source_eq]
      exact FileSource.open_fails fun v hv => hfile ⟨v,(hdisk _).symm.trans hv⟩
    have htracks : Compressor.Tracks j.ctx.source fun _ _ => True :=
      ⟨fun _ _ => trivial,fun _ => trivial,fun _ => trivial,fun _ => trivial⟩
    obtain ⟨hok,-⟩ | ⟨hnone,-⟩ := Compressor.runSyncJob_given htracks j.fuel j.k₀ j.heap fun _ => trivial
    · exact absurd hok hclosed
    · exact absurd hnone hcommit

end Restore

/-- Whatever calls have failed, wherever backups were cut off: the destination holds nothing but the last backup,
whole, and nothing but its content is ever restored from it; a backup becomes the last one when it returns `Ok`,
and when it returns an error it does not. -/
theorem destination_is_last_backup {p : Path} {d : Disk} {last : Option (List UInt8)} (h : Backups p d last) :
    (∀ v, d p = some (.file v) → ∃ x, last = some x ∧ Container.decode v = .ok (x,[])) ∧
    (∀ (j : Restore p d) (e : CompressionError), IoEvent.commit e ∈ j.run.2.trace →
      last = some (EspCompressor.written j.run.2.trace)) ∧
    ∀ (content : List UInt8) (b : Backup p d content) (r : CompressionResult), b.run.1 = some r →
      b.last b.log.length last = if r.error = .ok then some content else last := by
  refine ⟨h.holds,fun j e he => ?_,fun content b r hr => ?_⟩
  · obtain ⟨v,rest,hv,hdecode⟩ := j.restores he
    obtain ⟨x,hlast,hx⟩ := h.holds v hv
    obtain ⟨hsame,-⟩ := Prod.mk.inj (Except.ok.inj (hdecode.symm.trans hx))
    rw [hlast,hsame]
  · obtain ⟨stage,hstage,hreturned⟩ := b.placed
    rw [Backup.last,List.take_length,hstage]
    by_cases hok : r.error = .ok
    · rw [if_pos hok,(hreturned r hr).mp hok,if_pos rfl]
    · have hne : stage ≠ .published := fun hpublished => hok ((hreturned r hr).mpr hpublished)
      rw [if_neg hok,if_neg (by simpa using hne)]

/-- A buffer, backed up in blocks of 16 bytes. -/
def backupJob : RunContext BufferSource (FileSink DiskState) where
  config := { blockSize := 16, windowSize := 16 }
  operation := .compress
  source := BufferSource.source
  sink := sink diskFileSystem

theorem backupJob_truthful (content : List UInt8) :
    Truthful backupJob.source content true (BufferSource.Remains content) := (BufferSource.honest content).truthful

theorem backupJob_opened (content : List UInt8) (_ : (backupJob.source.open' ⟨content,0,false⟩).1 = .ok) :
    BufferSource.Remains content content (backupJob.source.open' ⟨content,0,false⟩).2 :=
  BufferSource.remains_open content

theorem backupJob_operation : backupJob.operation = .compress := rfl
theorem backupJob_sink : backupJob.sink = sink diskFileSystem := rfl
theorem sinkOn_path (d : Disk) : (sinkOn d).path = ['f'] := rfl
theorem sinkOn_disk (d : Disk) : (sinkOn d).fs.disk = d := rfl
theorem sinkOn_log (d : Disk) : (sinkOn d).fs.log = [] := rfl

/-- Some content, backed up into `f` on the disk `d`. -/
def bufferBackup (content : List UInt8) (d : Disk) : Backup ['f'] d content :=
  ⟨_,backupJob,9,⟨content,0,false⟩,.unlimited,sinkOn d,true,BufferSource.Remains content,
    backupJob_truthful content,backupJob_opened content,backupJob_operation,backupJob_sink,sinkOn_path d,sinkOn_disk d,
    sinkOn_log d⟩

/-- `f` read on the disk `d`, some bytes at a time. -/
def restoreJob : RunContext (FileSource ReaderState) DynamicBufferSink where
  operation := .decompress
  source := FileSource.source diskReader
  sink := DynamicBufferSink.sink

theorem restoreJob_operation : restoreJob.operation = .decompress := rfl
theorem restoreJob_source : restoreJob.source = FileSource.source diskReader := rfl

def readerOf (d : Disk) : FileSource ReaderState where
  fs := { disks := fun _ => d, fails := fun _ => false, gives := fun _ => 10 }
  path := ['f']

theorem readerOf_path (d : Disk) : (readerOf d).path = ['f'] := rfl
theorem readerOf_disks (d : Disk) : ∀ i, (readerOf d).fs.disks i ['f'] = d ['f'] := fun _ => rfl

def bufferRestore (d : Disk) : Restore ['f'] d :=
  ⟨_,restoreJob,9,readerOf d,⟨[],.new,false,.unlimited⟩,.unlimited,restoreJob_operation,restoreJob_source,
    readerOf_path d,readerOf_disks d⟩

/-- The disk after a backup, and after a second one that a restart has cut off before its first rename. -/
def backedUp : Disk := diskAfter (fun _ => none) ((bufferBackup Compressor.mixedData fun _ => none).log.take 20)

def cutOff : Disk := diskAfter backedUp ((bufferBackup [4,5,6] backedUp).log.take 8)

/-- The first backup is restored; the next one becomes the last one. -/
theorem destination_is_last_backup_restart :
    (∃ v, cutOff ['f'] = some (.file v) ∧ Container.decode v = .ok (Compressor.mixedData,[])) ∧
    (IoEvent.commit .ok ∈ (bufferRestore cutOff).run.2.trace ∧
      EspCompressor.written (bufferRestore cutOff).run.2.trace = Compressor.mixedData) ∧
    ∃ r, (bufferBackup [4,5,6] cutOff).run.1 = some r ∧ r.error = .ok ∧
      (bufferBackup [4,5,6] cutOff).last (bufferBackup [4,5,6] cutOff).log.length
        (some Compressor.mixedData) = some [4,5,6] := by
  have hlast : (bufferBackup [4,5,6] backedUp).last 8
      ((bufferBackup Compressor.mixedData fun _ => none).last 20 none) = some Compressor.mixedData := by
    decide +kernel
  have hbackups : Backups ['f'] cutOff (some Compressor.mixedData) := by
    rw [← hlast]
    exact .backup (bufferBackup [4,5,6] backedUp) 8
      (.backup (bufferBackup Compressor.mixedData fun _ => none) 20 (.start (by simp)))
  obtain ⟨hholds,hrestores,hbecomes⟩ := destination_is_last_backup hbackups
  refine ⟨?_,?_,?_⟩
  · have hfile : cutOff ['f'] = some (.file Compressor.mixedContainer) := by decide +kernel
    obtain ⟨x,hx,hdecode⟩ := hholds Compressor.mixedContainer hfile
    exact ⟨_,hfile,by rw [hdecode,Option.some.inj hx]⟩
  · have hcommit : IoEvent.commit .ok ∈ (bufferRestore cutOff).run.2.trace := by decide +kernel
    have hrestored := hrestores (bufferRestore cutOff) .ok hcommit
    exact ⟨hcommit,(Option.some.inj hrestored).symm⟩
  · have hok : (bufferBackup [4,5,6] cutOff).run.1.map (·.error) = some .ok := by decide +kernel
    obtain ⟨r,hr,herror⟩ := Option.map_eq_some_iff.mp hok
    have hbecome := hbecomes [4,5,6] (bufferBackup [4,5,6] cutOff) r hr
    rw [if_pos herror] at hbecome
    exact ⟨r,hr,herror,hbecome⟩

end FileSink
end EspCompressor
