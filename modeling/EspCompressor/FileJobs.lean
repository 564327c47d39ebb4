import EspCompressor.FileReplace
import EspCompressor.Session

/-! Whole jobs into a `FileSink`: what is at the destination and at its backup when the job
returns, for every pattern of failing calls. -/
namespace EspCompressor

/-! ### The backup outside `commit` -/

theorem Prelude.backup_kept {p : Path} {e : FsEvent} (h : Prelude p e) (hsound : e.Sound)
    (hkeep : ¬DropsBackup p e) : e.after (backupPath p) = e.before (backupPath p) := by
  rcases e with ⟨call,ok,before,after⟩
  cases call with
  | exists' path => rw [hsound.2]
  | mkdir path =>
    refine hsound.frame fun ht => absurd h.1 ?_
    rw [← show backupPath p = path from ht]
    simp [SinkCall,backupPath]
  | openWrite path =>
    exact hsound.frame fun ht => tempPath_ne_backupPath p ((show backupPath p = path from ht).trans h.1).symm
  | write path bytes =>
    exact hsound.frame fun ht => tempPath_ne_backupPath p ((show backupPath p = path from ht).trans h.1).symm
  | close path => rw [hsound]
  | remove path =>
    cases ok with
    | true =>
      refine hsound.frame fun ht => hkeep ⟨?_,rfl⟩
      rw [show backupPath p = path from ht]
    | false => rw [hsound]
  | rename a c => exact absurd rfl (h.2 a c)

theorem Prelude.backup_gone {p : Path} {e : FsEvent} (h : Prelude p e) (hsound : e.Sound)
    (hgone : e.before (backupPath p) = none) : e.after (backupPath p) = none := by
  by_cases hdrop : DropsBackup p e
  · rcases e with ⟨call,ok,before,after⟩
    obtain ⟨rfl,rfl⟩ := hdrop
    rw [hsound.2,Function.update_self]
  · rw [h.backup_kept hsound hdrop,hgone]

/-- Outside `commit` the backup stays until a call removes it. -/
theorem Chain.backup {p : Path} {d d' : Disk} {es : List FsEvent} (h : Chain d es d')
    (hes : ∀ e ∈ es, Prelude p e) :
    ((∃ e ∈ es, DropsBackup p e) → d' (backupPath p) = none) ∧
    ((¬∃ e ∈ es, DropsBackup p e) → d' (backupPath p) = d (backupPath p)) ∧
    (d (backupPath p) = none → d' (backupPath p) = none) := by
  induction h with
  | nil d => simp
  | @cons e es d hsound _ ih =>
    obtain ⟨hdrop,hkeep,hgone⟩ := ih fun e he => hes e (List.mem_cons_of_mem _ he)
    have hprelude := hes e List.mem_cons_self
    refine ⟨?_,fun hno => ?_,fun hnone => hgone (hprelude.backup_gone hsound hnone)⟩
    · rintro ⟨e',he',hd⟩
      rcases List.mem_cons.mp he' with rfl | he'
      · refine hgone ?_
        rcases e' with ⟨call,ok,before,after⟩
        obtain ⟨rfl,rfl⟩ := hd
        rw [hsound.2,Function.update_self]
      · exact hdrop ⟨e',he',hd⟩
    · have hno' : ¬∃ e' ∈ es, DropsBackup p e' :=
        fun ⟨e',he',hd⟩ => hno ⟨e',List.mem_cons_of_mem _ he',hd⟩
      rw [hkeep hno',hprelude.backup_kept hsound fun hd => hno ⟨e,List.mem_cons_self,hd⟩]

namespace FileSink

/-- A job lost the old content: the rollback rename failed, and a later call removed the backup. -/
def LosesBackup (p : Path) : List FsEvent → Prop
  | [] => False
  | e :: es => (RollbackFailed p e ∧ ∃ e' ∈ es, DropsBackup p e') ∨ LosesBackup p es

theorem not_losesBackup {p : Path} {es : List FsEvent} (h : ∀ e ∈ es, ¬RollbackFailed p e) :
    ¬LosesBackup p es := by
  induction es with
  | nil => exact id
  | cons e es ih =>
    rintro (hl | hl)
    · exact h e List.mem_cons_self hl.1
    · exact ih (fun e he => h e (List.mem_cons_of_mem _ he)) hl

theorem losesBackup_append {p : Path} {es es' : List FsEvent} (h : ∀ e ∈ es, ¬RollbackFailed p e) :
    LosesBackup p (es ++ es') ↔ LosesBackup p es' := by
  induction es with
  | nil => rfl
  | cons e es ih =>
    have hhead := h e List.mem_cons_self
    have htail := ih fun e he => h e (List.mem_cons_of_mem _ he)
    simp only [List.cons_append,LosesBackup,hhead,false_and,false_or,htail]

theorem losesBackup_cons {p : Path} {e : FsEvent} {es : List FsEvent} (he : RollbackFailed p e)
    (h : ∀ e ∈ es, ¬RollbackFailed p e) :
    LosesBackup p (e :: es) ↔ ∃ e' ∈ es, DropsBackup p e' := by
  simp only [LosesBackup,he,true_and,not_losesBackup h,or_false]

/-! ### How a job ends -/

/-- What a job that made the calls `es` on the disk `d` leaves at its paths: `opened` tells whether
its sink was opened, `w` is what was staged. -/
inductive FileOutcome (p : Path) (w : List UInt8) (d : Disk) (es : List FsEvent) (d' : Disk) :
    Bool → CompressionError → Prop
  | replaced : d' p = some (.file w) → (∀ e ∈ es, ¬RollbackFailed p e) →
      (RemovalsSucceed es → d' (tempPath p) = none ∧ d' (backupPath p) = none) →
      FileOutcome p w d es d' true .ok
  | kept {opened : Bool} {e : CompressionError} : e ≠ .ok → d' p = d p →
      (∀ e ∈ es, ¬RollbackFailed p e) →
      (opened = true → RemovalsSucceed es → d' (tempPath p) = none ∧ d' (backupPath p) = none) →
      FileOutcome p w d es d' opened e
  | lost {e : CompressionError} {v : List UInt8} {failed : FsEvent} : e ≠ .ok →
      d p = some (.file v) → d' p = none → failed ∈ es → RollbackFailed p failed →
      (LosesBackup p es → d' (backupPath p) = none) →
      (¬LosesBackup p es → d' (backupPath p) = some (.file v)) → FileOutcome p w d es d' true e

/-- The calls of a job, and what they leave. -/
structure FileJob (p : Path) (w : List UInt8) (cs : List CompressionError) (s₀ : DiskState)
    (opened : Bool) (e : CompressionError) (s : DiskState) (es : List FsEvent) : Prop where
  runs : Runs s₀ es s
  events : ∀ e ∈ es, JobEvent p w e
  published : ∀ e ∈ es, e.call = .rename (tempPath p) p → cs ≠ []
  outcome : FileOutcome p w s₀.disk es s.disk opened e

/-- Calls outside `commit` that end with an error keep the destination. -/
theorem Prior.fileJob {p : Path} {w : List UInt8} {cs : List CompressionError} {s₀ : DiskState}
    {k k' : FileSink DiskState} {es : List FsEvent} {opened : Bool} {e : CompressionError}
    (h : Prior p s₀ k) (htail : Tail p k es k') (he : e ≠ .ok)
    (hgone : opened = true → RemovalsSucceed es →
      k'.fs.disk (tempPath p) = none ∧ k'.fs.disk (backupPath p) = none) :
    ∃ es, FileJob p w cs s₀ opened e k'.fs es := by
  obtain ⟨es₀,hruns,hes₀⟩ := h.runs
  have hall (e : FsEvent) (he : e ∈ es₀ ++ es) : Prelude p e :=
    (List.mem_append.mp he).elim (hes₀ e) (htail.prelude e)
  have hrunsAll := hruns.trans htail.runs
  refine ⟨es₀ ++ es,hrunsAll,fun e he => (hall e he).jobEvent w,
    fun e he hc => absurd hc ((hall e he).2 _ _),.kept he ?_ ?_ ?_⟩
  · exact hrunsAll.chain.frame fun e he => (hall e he).not_touches
  · exact fun e he => (hall e he).not_rollbackFailed
  · exact fun ho hok => hgone ho hok.of_append.2

/-- After `commit` was called. -/
theorem commit_fileJob {p : Path} {w : List UInt8} {cs : List CompressionError} {s₀ : DiskState}
    {k k' : FileSink DiskState} {es : List FsEvent} {e : CompressionError} (h : Writing p s₀ w k)
    (htail : Tail p (commit diskFileSystem k).2 es k') (hcs : cs ≠ [])
    (hok : (commit diskFileSystem k).1 = .ok → e = .ok ∧
      k'.fs.disk = (commit diskFileSystem k).2.fs.disk)
    (herr : (commit diskFileSystem k).1 ≠ .ok → e ≠ .ok ∧ (RemovalsSucceed es →
      k'.fs.disk (tempPath p) = none ∧ k'.fs.disk (backupPath p) = none)) :
    ∃ es, FileJob p w cs s₀ true e k'.fs es := by
  obtain ⟨es₀,hruns₀,hes₀⟩ := h.runs
  obtain ⟨es₁,hruns₁,hpath₁,hjob₁,houtcome⟩ := commit_spec h
  have hbefore : k.fs.disk p = s₀.disk p := hruns₀.chain.frame fun e he => (hes₀ e he).not_touches
  have hfine₀ (e : FsEvent) (he : e ∈ es₀) := (hes₀ e he).not_rollbackFailed
  have hfine₂ (e : FsEvent) (he : e ∈ es) := (htail.prelude e he).not_rollbackFailed
  have hfine {l : List FsEvent} (hl : ∀ e ∈ l, ¬RollbackFailed p e) (e : FsEvent)
      (he : e ∈ es₀ ++ (l ++ es)) : ¬RollbackFailed p e := by
    rcases List.mem_append.mp he with he | he
    · exact hfine₀ e he
    · exact (List.mem_append.mp he).elim (hl e) (hfine₂ e)
  refine ⟨es₀ ++ (es₁ ++ es),hruns₀.trans (hruns₁.trans htail.runs),fun e he => ?_,
    fun _ _ _ => hcs,?_⟩
  · rcases List.mem_append.mp he with he | he
    · exact (hes₀ e he).jobEvent w
    · exact (List.mem_append.mp he).elim (hjob₁ e) fun he => (htail.prelude e he).jobEvent w
  · generalize hanswer : (commit diskFileSystem k).1 = answer at houtcome hok herr
    cases houtcome with
    | published hpath htemp hes hgone =>
      obtain ⟨rfl,hdisk⟩ := hok rfl
      refine .replaced (by rw [hdisk,hpath]) (hfine hes) fun hr => ?_
      rw [hdisk]
      exact ⟨htemp,hgone hr.of_append.2.of_append.1⟩
    | kept hne hpath hes =>
      obtain ⟨he,hgone⟩ := herr hne
      refine .kept he (by rw [htail.disk_path,hpath,hbefore]) (hfine hes) fun _ hr => ?_
      exact hgone hr.of_append.2.of_append.2
    | @lost _ v l₁ l₂ failed hne hdest hpath hbackup hes hl₁ hfailed hl₂ =>
      obtain ⟨he,-⟩ := herr hne
      obtain ⟨hdrop,hkeep,-⟩ := Chain.backup htail.runs.chain htail.prelude
      have hsplit : es₀ ++ (es₁ ++ es) = (es₀ ++ l₁) ++ failed :: (l₂ ++ es) := by
        rw [hes]
        simp
      have hloses : LosesBackup p (es₀ ++ (es₁ ++ es)) ↔ ∃ e ∈ es, DropsBackup p e := by
        rw [hsplit,losesBackup_append fun e he => (List.mem_append.mp he).elim (hfine₀ e) (hl₁ e),
          losesBackup_cons hfailed fun e he =>
            (List.mem_append.mp he).elim (fun he => (hl₂ e he).1) (hfine₂ e)]
        refine ⟨fun ⟨e',he',hd⟩ => ?_,fun ⟨e',he',hd⟩ => ⟨e',List.mem_append_right _ he',hd⟩⟩
        rcases List.mem_append.mp he' with he' | he'
        · exact absurd hd (hl₂ e' he').2
        · exact ⟨e',he',hd⟩
      refine .lost he (hbefore ▸ hdest) (by rw [htail.disk_path,hpath]) ?_ hfailed ?_ ?_
      · rw [hsplit]
        simp
      · exact fun h => hdrop (hloses.mp h)
      · exact fun h => by rw [hkeep fun hd => h (hloses.mpr hd),hbackup]

/-- Every way a session ends, as a job on the disk. -/
theorem ending_fileJob {k₀ k : FileSink DiskState} {opened : Bool} {cs : List CompressionError}
    {w : List UInt8} {e : CompressionError}
    (h : SinkEnding (sink diskFileSystem) k₀ opened cs w e k) :
    ∃ es, FileJob k₀.path w cs k₀.fs opened e k.fs es := by
  cases h with
  | rejected he => exact (Prior.start k₀).fileJob ⟨rfl,Runs.refl _,by simp⟩ he (by simp)
  | sourceFailed he =>
    obtain ⟨es,htail,-⟩ := close_tail k₀
    exact (Prior.start k₀).fileJob htail he (by simp)
  | openFailed he _ =>
    have hprior := (open_spec k₀).1
    obtain ⟨es,htail,-⟩ := close_tail (open' diskFileSystem k₀).2
    rw [hprior.path_eq] at htail
    exact hprior.fileJob htail he (by simp)
  | aborted he hunfinished =>
    cases hunfinished with
    | @staged _ k hstaged =>
      have hwriting := staged_writing hstaged
      obtain ⟨es,htail,hgone⟩ := abort_tail hwriting.path_eq
      exact hwriting.toPrior.fileJob htail he fun _ => hgone
    | @writeFailed _ k more hstaged _ =>
      have hprior := (write_spec (staged_writing hstaged) more).1
      obtain ⟨es,htail,hgone⟩ := abort_tail hprior.path_eq
      exact hprior.fileJob htail he fun _ => hgone
    | @commitFailed _ k hstaged hcommit =>
      have hwriting := staged_writing hstaged
      obtain ⟨-,-,hpath,-⟩ := commit_spec hwriting
      obtain ⟨es,htail,hgone⟩ := abort_tail hpath
      exact commit_fileJob hwriting htail (by simp) (fun h => absurd h hcommit) fun _ => ⟨he,hgone⟩
  | @committed _ k hstaged hcommit =>
    have hwriting := staged_writing hstaged
    obtain ⟨-,-,hpath,-⟩ := commit_spec hwriting
    obtain ⟨es,htail,hdisk⟩ := close_tail (commit diskFileSystem k).2
    rw [hpath] at htail
    exact commit_fileJob hwriting htail (by simp) (fun _ => ⟨rfl,hdisk⟩) fun h => absurd hcommit h

/-! ### What a returned job leaves -/

/-- An empty input, compressed into a file whose calls fail as given. -/
def emptyJob : RunContext BufferSource (FileSink DiskState) where
  operation := .compress
  source := BufferSource.source
  sink := sink diskFileSystem

/-- A sink of the file `f`, which holds one byte. -/
def overwriting (fails : ℕ → Bool) : FileSink DiskState where
  fs := ⟨fun q => if q = ['f'] then some (.file [9]) else none,fails,fun _ => 1000,[]⟩
  path := ['f']

/-- The run of `emptyJob` into `overwriting fails`. -/
def emptyRun (fails : ℕ → Bool) : Option CompressionResult × RunState BufferSource (FileSink DiskState) :=
  Proc.exec (Compressor.runSyncJob emptyJob 1) (.start ⟨[],0,false⟩ (overwriting fails) .unlimited)

section Returned

variable {σ : Type} {ctx : RunContext σ (FileSink DiskState)} {fuel : ℕ} {source : σ} {heap : Heap}
  {k₀ : FileSink DiskState} {r : CompressionResult} {s : RunState σ (FileSink DiskState)}

open Compressor (runSyncJob runSyncJob_ends)

theorem run_fileJob (hsink : ctx.sink = sink diskFileSystem) (hlog : k₀.fs.log = [])
    (hrun : Proc.exec (runSyncJob ctx fuel) (.start source k₀ heap) = (some r,s)) :
    FileJob k₀.path (EspCompressor.written s.trace) (commits s.trace) k₀.fs (sinkOpened s.trace) r.error s.sink.fs
      s.sink.fs.log := by
  have hends := Proc.exec_of_wp (runSyncJob_ends ctx fuel source heap) hrun
  unfold Compressor.EndsSession at hends
  rw [hsink] at hends
  obtain ⟨es,hjob⟩ := ending_fileJob hends
  have hes : s.sink.fs.log = es := by rw [hjob.runs.log_eq]; simp [RunState.start,hlog]
  rw [hes]
  exact hjob

/-- A job that returns an error loses the old content exactly when the rollback rename failed
and the backup was then removed. -/
theorem old_content_kept_iff (hsink : ctx.sink = sink diskFileSystem) (hlog : k₀.fs.log = [])
    {v : List UInt8} (hv : k₀.fs.disk k₀.path = some (.file v))
    (hrun : Proc.exec (runSyncJob ctx fuel) (.start source k₀ heap) = (some r,s))
    (herr : r.error ≠ .ok) :
    (s.sink.fs.disk k₀.path = some (.file v) ∨
      s.sink.fs.disk (backupPath k₀.path) = some (.file v)) ↔
    ¬LosesBackup k₀.path s.sink.fs.log := by
  have houtcome := (run_fileJob hsink hlog hrun).outcome
  generalize hopened : sinkOpened s.trace = opened at houtcome
  generalize hanswer : r.error = answer at houtcome herr
  cases houtcome with
  | replaced => exact absurd rfl herr
  | kept _ hpath hfine _ => exact ⟨fun _ => not_losesBackup hfine,fun _ => .inl (hpath.trans hv)⟩
  | @lost _ v' _ _ hdest hpath _ _ hgone hkept =>
    obtain rfl : v = v' := by
      rw [hdest] at hv
      exact (Node.file.inj (Option.some.inj hv)).symm
    refine ⟨fun hstored hloses => ?_,fun hno => .inr (hkept hno)⟩
    rw [hpath,hgone hloses] at hstored
    simp at hstored

/-- Both renames of the commit to the destination fail, and the session's abort removes
the backup. -/
theorem old_content_lost : let s := (emptyRun fun i => decide (i = 9 ∨ i = 10)).2
    (overwriting fun i => decide (i = 9 ∨ i = 10)).fs.disk ['f'] = some (.file [9]) ∧
    ((emptyRun fun i => decide (i = 9 ∨ i = 10)).1.map (·.error)) = some .writeFailed ∧
    ¬(s.sink.fs.disk ['f'] = some (.file [9]) ∨
      s.sink.fs.disk (backupPath ['f']) = some (.file [9])) := by
  decide +kernel

theorem old_content_kept_iff_rolled_back : let s := (emptyRun fun i => decide (i = 9)).2
    (s.sink.fs.disk ['f'] = some (.file [9]) ∨
      s.sink.fs.disk (backupPath ['f']) = some (.file [9])) ↔ ¬LosesBackup ['f'] s.sink.fs.log :=
  @old_content_kept_iff _ emptyJob 1 ⟨[],0,false⟩ .unlimited (overwriting fun i => decide (i = 9))
    { error := .writeFailed, outputBytes := 37 } _ rfl rfl [9] (by simp [overwriting])
    (Prod.ext (by decide +kernel) rfl) (by simp)

/-- A job whose rollback renames succeed replaces the destination or leaves it as it was. -/
theorem all_or_nothing (hsink : ctx.sink = sink diskFileSystem) (hlog : k₀.fs.log = [])
    (hrun : Proc.exec (runSyncJob ctx fuel) (.start source k₀ heap) = (some r,s))
    (hrollback : ∀ e ∈ s.sink.fs.log, e.call = .rename (backupPath k₀.path) k₀.path → e.ok = true) :
    (r.error = .ok → s.sink.fs.disk k₀.path = some (.file (EspCompressor.written s.trace))) ∧
    (r.error ≠ .ok → s.sink.fs.disk k₀.path = k₀.fs.disk k₀.path) ∧
    (∀ q, q ≠ k₀.path → q ≠ tempPath k₀.path → q ≠ backupPath k₀.path →
      s.sink.fs.disk q = k₀.fs.disk q ∨ k₀.fs.disk q = none ∧ s.sink.fs.disk q = some .dir) ∧
    (sinkOpened s.trace = true → RemovalsSucceed s.sink.fs.log →
      s.sink.fs.disk (tempPath k₀.path) = none ∧ s.sink.fs.disk (backupPath k₀.path) = none) := by
  have hjob := run_fileJob hsink hlog hrun
  have houtcome := hjob.outcome
  have hothers (q : Path) := hjob.runs.chain.others (q := q) fun e he => (hjob.events e he).call
  generalize sinkOpened s.trace = opened at houtcome ⊢
  generalize r.error = answer at houtcome ⊢
  cases houtcome with
  | replaced hpath _ hgone =>
    exact ⟨fun _ => hpath,fun h => absurd rfl h,hothers,fun _ => hgone⟩
  | kept hne hpath _ hgone => exact ⟨fun h => absurd h hne,fun _ => hpath,hothers,hgone⟩
  | lost _ _ _ hmem hfailed _ _ =>
    have htrue := hrollback _ hmem hfailed.1
    rw [hfailed.2] at htrue
    exact absurd htrue (by simp)

theorem all_or_nothing_rolled_back : let s := (emptyRun fun i => decide (i = 9)).2
    s.sink.fs.disk ['f'] = some (.file [9]) ∧ s.sink.fs.disk (backupPath ['f']) = none :=
  have h := @all_or_nothing _ emptyJob 1 ⟨[],0,false⟩ .unlimited (overwriting fun i => decide (i = 9))
    { error := .writeFailed, outputBytes := 37 } (emptyRun fun i => decide (i = 9)).2 rfl rfl
    (Prod.ext (by decide +kernel) rfl) (by decide +kernel)
  ⟨h.2.1 (by simp),(h.2.2.2 (by decide +kernel) (by decide +kernel)).2⟩

end Returned

end FileSink
end EspCompressor
