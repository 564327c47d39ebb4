import EspCompressor.FileJobs

/-! Histories of jobs into one path, each of which a restart may cut off after any of its
calls: which of the versions survive. -/
namespace EspCompressor

/-- The disk after some calls on the disk `d`. -/
def diskAfter : Disk → List FsEvent → Disk
  | d,[] => d
  | _,e :: es => diskAfter e.after es

/-- Cutting a run of calls off leaves a run of calls. -/
theorem Chain.take {d d' : Disk} {es : List FsEvent} (h : Chain d es d') (n : ℕ) :
    Chain d (es.take n) (diskAfter d (es.take n)) := by
  induction h generalizing n with
  | nil d => simpa [diskAfter] using Chain.nil d
  | @cons e es d hsound _ ih =>
    cases n with
    | zero => exact Chain.nil e.before
    | succ n => exact .cons hsound (ih n)

/-- The staged file was moved to the destination. -/
def Publishes (p : Path) (e : FsEvent) : Prop :=
  e.call = .rename (tempPath p) p ∧ e.ok = true

instance (p : Path) (e : FsEvent) : Decidable (Publishes p e) :=
  inferInstanceAs (Decidable (_ ∧ _))

instance (p : Path) (e : FsEvent) : Decidable (DropsBackup p e) :=
  inferInstanceAs (Decidable (_ ∧ _))

/-- One of the versions is at the destination or under a side name. -/
def Survives (p : Path) (versions : List (List UInt8)) (d : Disk) : Prop :=
  ∃ v ∈ versions, d p = some (.file v) ∨ d (backupPath p) = some (.file v) ∨
    d (tempPath p) = some (.file v)

instance (p : Path) (versions : List (List UInt8)) (d : Disk) : Decidable (Survives p versions d) :=
  inferInstanceAs (Decidable (∃ v ∈ versions, _))

namespace FileSink

/-- The calls that a job of `p` makes on the disk `d` when nothing cuts it off, and the version
that it sets out to publish: `versions` is empty when the job does not reach its commit. -/
structure JobCalls (p : Path) (d : Disk) (versions : List (List UInt8)) (log : List FsEvent) where
  σ : Type
  ctx : RunContext σ (FileSink DiskState)
  fuel : ℕ
  source : σ
  heap : Heap
  k₀ : FileSink DiskState
  sink_eq : ctx.sink = sink diskFileSystem
  path_eq : k₀.path = p
  disk_eq : k₀.fs.disk = d
  log_nil : k₀.fs.log = []
  versions_eq : versions =
    let s := (Proc.exec (Compressor.runSyncJob ctx fuel) (.start source k₀ heap)).2
    if commits s.trace = [] then [] else [EspCompressor.written s.trace]
  log_eq : log =
    (Proc.exec (Compressor.runSyncJob ctx fuel) (.start source k₀ heap)).2.sink.fs.log

/-- Jobs into `p`, one after the other, each cut off after `n` calls, or not at all: the disk
then, the versions that were to be published, and all calls. -/
inductive History (p : Path) : Disk → List (List UInt8) → List FsEvent → Prop
  | start (d : Disk) : History p d [] []
  | job {d : Disk} {versions vs : List (List UInt8)} {es log : List FsEvent} (n : ℕ) :
      History p d versions es → JobCalls p d vs log →
      History p (diskAfter d (log.take n)) (versions ++ vs) (es ++ log.take n)

/-- A version is at the destination, or at the backup while nothing is at the destination. -/
def Kept (p : Path) (versions : List (List UInt8)) (d : Disk) : Prop :=
  ∃ v ∈ versions, d p = some (.file v) ∨ d p = none ∧ d (backupPath p) = some (.file v)

theorem Kept.survives {p : Path} {versions : List (List UInt8)} {d : Disk}
    (h : Kept p versions d) : Survives p versions d := by
  obtain ⟨v,hv,hp | ⟨-,hb⟩⟩ := h
  · exact ⟨v,hv,.inl hp⟩
  · exact ⟨v,hv,.inr (.inl hb)⟩

theorem Kept.mono {p : Path} {versions versions' : List (List UInt8)} {d : Disk}
    (h : Kept p versions d) (hsub : versions ⊆ versions') : Kept p versions' d := by
  obtain ⟨v,hv,hkept⟩ := h
  exact ⟨v,hsub hv,hkept⟩

/-- A call that touches neither the destination nor the backup. -/
theorem Kept.frame {p : Path} {versions : List (List UInt8)} {e : FsEvent}
    (h : Kept p versions e.before) (hsound : e.Sound) (hp : ¬e.call.touches p)
    (hb : ¬e.call.touches (backupPath p)) : Kept p versions e.after := by
  obtain ⟨v,hv,hkept⟩ := h
  exact ⟨v,hv,by rw [hsound.frame hp,hsound.frame hb]; exact hkept⟩

/-- The move to the destination publishes what the job staged. -/
theorem publish_kept {p : Path} {w : List UInt8} {versions : List (List UInt8)} {e : FsEvent}
    (h : Publishes p e) (hjob : JobEvent p w e) (hsound : e.Sound) (hw : w ∈ versions) :
    Kept p versions e.after := by
  rcases e with ⟨call,ok,before,after⟩
  obtain ⟨rfl,rfl⟩ := h
  obtain ⟨content,hcontent,hafter⟩ := hsound
  have hfile : before (tempPath p) = some (.file w) := hjob.complete rfl
  dsimp only at hcontent hafter
  rw [hfile] at hcontent
  obtain rfl := Node.file.inj (Option.some.inj hcontent)
  exact ⟨w,hw,.inl (hafter ▸ Function.update_self _ _ _)⟩

/-- What one call of a job preserves, when it does not drop the backup of nothing. -/
theorem call_kept {p : Path} {w : List UInt8} {versions : List (List UInt8)} {e : FsEvent}
    (hjob : JobEvent p w e) (hsound : e.Sound) (hdrop : DropsBackup p e → e.before p ≠ none)
    (hw : Publishes p e → w ∈ versions) (h : Kept p versions e.before) :
    Kept p versions e.after := by
  have htemp : p ≠ tempPath p := (tempPath_ne p).symm
  have hback : p ≠ backupPath p := (backupPath_ne p).symm
  have hside : backupPath p ≠ tempPath p := (tempPath_ne_backupPath p).symm
  by_cases hpub : Publishes p e
  · exact publish_kept hpub hjob hsound (hw hpub)
  · rcases e with ⟨call,ok,before,after⟩
    cases call with
    | exists' q => exact h.frame hsound id id
    | mkdir q =>
      have hlen : q.length < p.length := hjob.call
      refine h.frame hsound (fun ht => ?_) fun ht => ?_
      · exact absurd hlen (by rw [← show p = q from ht]; exact lt_irrefl _)
      · exact absurd hlen (by rw [← show backupPath p = q from ht]; simp [backupPath])
    | openWrite q =>
      have hq : q = tempPath p := hjob.call
      exact h.frame hsound (fun ht => htemp (Eq.trans ht hq)) fun ht => hside (Eq.trans ht hq)
    | write q bytes =>
      have hq : q = tempPath p := hjob.call
      exact h.frame hsound (fun ht => htemp (Eq.trans ht hq)) fun ht => hside (Eq.trans ht hq)
    | close q => exact h.frame hsound id id
    | remove q =>
      rcases (show q = tempPath p ∨ q = backupPath p from hjob.call) with rfl | rfl
      · exact h.frame hsound (fun ht => htemp ht) fun ht => hside ht
      · obtain ⟨v,hv,hkept⟩ := h
        cases ok with
        | true =>
          -- something is at the destination, so the version is there
          have hsome : before p ≠ none := hdrop ⟨rfl,rfl⟩
          rcases hkept with hp | ⟨hp,-⟩
          · exact ⟨v,hv,.inl ((hsound.frame fun ht => hback ht).trans hp)⟩
          · exact absurd hp hsome
        | false => exact ⟨v,hv,by rw [show after = before from hsound]; exact hkept⟩
    | rename a c =>
      obtain ⟨v,hv,hkept⟩ := h
      cases ok with
      | false => exact ⟨v,hv,by rw [show after = before from hsound]; exact hkept⟩
      | true =>
        obtain ⟨content,hcontent,hafter⟩ := hsound
        dsimp only at hcontent hafter hkept ⊢
        rcases hjob.call with ⟨rfl,rfl⟩ | ⟨rfl,rfl⟩ | ⟨rfl,rfl⟩
        · -- the destination moves to the backup
          rcases hkept with hp | ⟨hp,-⟩
          · rw [hp] at hcontent
            obtain rfl := Node.file.inj (Option.some.inj hcontent)
            refine ⟨v,hv,.inr ⟨?_,?_⟩⟩
            · rw [hafter,Function.update_of_ne hback,Function.update_self]
            · rw [hafter,Function.update_self]
          · rw [hp] at hcontent
            simp at hcontent
        · exact absurd ⟨rfl,rfl⟩ hpub
        · -- the backup moves back, where nothing is
          have hvacant : before c = none := hjob.vacant rfl
          rcases hkept with hp | ⟨-,hb⟩
          · rw [hp] at hvacant
            simp at hvacant
          · rw [hb] at hcontent
            obtain rfl := Node.file.inj (Option.some.inj hcontent)
            exact ⟨v,hv,.inl (by rw [hafter,Function.update_self])⟩

/-- What a run of calls of one job preserves, and brings about once it publishes. -/
theorem calls_kept {p : Path} {w : List UInt8} {versions : List (List UInt8)} {d d' : Disk}
    {es : List FsEvent} (h : Chain d es d') (hjob : ∀ e ∈ es, JobEvent p w e)
    (hdrop : ∀ e ∈ es, DropsBackup p e → e.before p ≠ none)
    (hw : ∀ e ∈ es, Publishes p e → w ∈ versions)
    (hkept : Kept p versions d ∨ ∃ e ∈ es, Publishes p e) : Kept p versions d' := by
  induction h with
  | nil d => simpa using hkept
  | @cons e es d hsound _ ih =>
    have hhead := hjob e List.mem_cons_self
    refine ih (fun e he => hjob e (List.mem_cons_of_mem _ he))
      (fun e he => hdrop e (List.mem_cons_of_mem _ he)) (fun e he => hw e (List.mem_cons_of_mem _ he)) ?_
    by_cases hpub : Publishes p e
    · exact .inl (publish_kept hpub hhead hsound (hw e List.mem_cons_self hpub))
    · rcases hkept with hkept | ⟨e',he',hpub'⟩
      · exact .inl (call_kept hhead hsound (hdrop e List.mem_cons_self)
          (fun h => absurd h hpub) hkept)
      · rcases List.mem_cons.mp he' with rfl | he'
        · exact absurd hpub' hpub
        · exact .inr ⟨e',he',hpub'⟩

/-- The calls of any run, returned or not. -/
theorem run_calls {σ : Type} {ctx : RunContext σ (FileSink DiskState)} (fuel : ℕ) (source : σ)
    (heap : Heap) {k₀ : FileSink DiskState} (hsink : ctx.sink = sink diskFileSystem)
    (hlog : k₀.fs.log = []) :
    let s := (Proc.exec (Compressor.runSyncJob ctx fuel) (.start source k₀ heap)).2
    (∃ d', Chain k₀.fs.disk s.sink.fs.log d') ∧
    (∀ e ∈ s.sink.fs.log, JobEvent k₀.path (EspCompressor.written s.trace) e) ∧
    ∀ e ∈ s.sink.fs.log, Publishes k₀.path e → commits s.trace ≠ [] := by
  intro s
  have hwp := @Compressor.runSyncJob_ends _ _ k₀ ctx fuel source heap
  rcases Proc.exec_cases hwp with ⟨r,-,hends⟩ | ⟨-,htransfer⟩
  · unfold Compressor.EndsSession at hends
    rw [hsink] at hends
    obtain ⟨es,hjob⟩ := ending_fileJob hends
    have hes : s.sink.fs.log = es := by
      rw [hjob.runs.log_eq]
      simp [RunState.start,hlog]
    rw [hes]
    exact ⟨⟨_,hjob.runs.chain⟩,hjob.events,fun e he hp => hjob.published e he hp.1⟩
  · -- the job is still running, and has not come to its commit
    have hstaged := htransfer.staged
    rw [hsink] at hstaged
    obtain ⟨es,hruns,hes⟩ := (staged_writing hstaged).runs
    have hlog' : s.sink.fs.log = es := by rw [hruns.log_eq,hlog,List.nil_append]
    rw [hlog']
    exact ⟨⟨_,hruns.chain⟩,fun e he => (hes e he).jobEvent _,
      fun e he hp => absurd hp.1 ((hes e he).2 _ _)⟩

theorem JobCalls.spec {p : Path} {d : Disk} {vs : List (List UInt8)} {log : List FsEvent}
    (h : JobCalls p d vs log) : (∃ d', Chain d log d') ∧
      ∃ w, (∀ e ∈ log, JobEvent p w e) ∧ ∀ e ∈ log, Publishes p e → w ∈ vs := by
  obtain ⟨σ,ctx,fuel,source,heap,k₀,hsink,rfl,rfl,hlog,rfl,rfl⟩ := h
  obtain ⟨hchain,hevents,hpublished⟩ := run_calls fuel source heap hsink hlog
  refine ⟨hchain,_,hevents,fun e he hp => ?_⟩
  simp [hpublished e he hp]

/-! ### What survives -/

/-- A sink of the file `f` on the disk `d`, whose calls do not fail. -/
def sinkOn (d : Disk) : FileSink DiskState where
  fs := ⟨d,fun _ => false,fun _ => 1000,[]⟩
  path := ['f']

/-- The empty input, compressed into `f` on the disk `d`. -/
def emptyRunOn (d : Disk) : RunState BufferSource (FileSink DiskState) :=
  (Proc.exec (Compressor.runSyncJob emptyJob 1) (.start ⟨[],0,false⟩ (sinkOn d) .unlimited)).2

def emptyRunOn_calls (d : Disk) : JobCalls ['f'] d
    (if commits (emptyRunOn d).trace = [] then [] else [EspCompressor.written (emptyRunOn d).trace])
    (emptyRunOn d).sink.fs.log :=
  ⟨_,emptyJob,1,⟨[],0,false⟩,.unlimited,sinkOn d,rfl,rfl,rfl,rfl,rfl,rfl⟩

/-- The disk once that run was cut off after `n` calls. -/
def diskAfterRun (d : Disk) (n : ℕ) : Disk := diskAfter d ((emptyRunOn d).sink.fs.log.take n)

/-- One job publishes, a restart cuts the next one off between its two renames, and the third
one removes both side names when it opens its sink. -/
theorem versions_lost : ∃ d versions es, History ['f'] d versions es ∧
    (∃ e ∈ es, Publishes ['f'] e) ∧ ¬Survives ['f'] versions d := by
  refine ⟨_,_,_,.job 4 (.job 9 (.job 9 (.start fun _ => none) (emptyRunOn_calls _))
    (emptyRunOn_calls (diskAfterRun (fun _ => none) 9)))
    (emptyRunOn_calls (diskAfterRun (diskAfterRun (fun _ => none) 9) 9)),?_,?_⟩
  · decide +kernel
  · decide +kernel

/-- Once a version has been published, one stays at the destination or at the backup, whatever
fails and wherever the jobs are cut off, as long as no call removes the backup of a
destination that is not there. -/
theorem published_version_survives {p : Path} {d : Disk} {versions : List (List UInt8)}
    {es : List FsEvent} (h : History p d versions es) (hpublished : ∃ e ∈ es, Publishes p e)
    (hdrop : ∀ e ∈ es, DropsBackup p e → e.before p ≠ none) : Survives p versions d := by
  suffices hkept : Kept p versions d from hkept.survives
  induction h with
  | start d =>
    obtain ⟨e,he,-⟩ := hpublished
    simp at he
  | @job d versions vs es log n _ hcalls ih =>
    obtain ⟨⟨d',hchain⟩,w,hevents,hw⟩ := hcalls.spec
    have hcut (e : FsEvent) (he : e ∈ log.take n) : e ∈ log := List.mem_of_mem_take he
    refine calls_kept (hchain.take n) (fun e he => hevents e (hcut e he))
      (fun e he => hdrop e (List.mem_append_right _ he))
      (fun e he hp => List.mem_append_right _ (hw e (hcut e he) hp)) ?_
    obtain ⟨e,he,hp⟩ := hpublished
    rcases List.mem_append.mp he with he | he
    · exact .inl ((ih ⟨e,he,hp⟩ fun e he => hdrop e (List.mem_append_left _ he)).mono
        (List.subset_append_left _ _))
    · exact .inr ⟨e,he,hp⟩

theorem published_version_survives_restart :
    ∃ versions, Survives ['f'] versions (diskAfterRun (diskAfterRun (fun _ => none) 9) 9) :=
  ⟨_,published_version_survives (.job 9 (.job 9 (.start fun _ => none) (emptyRunOn_calls _))
    (emptyRunOn_calls (diskAfterRun (fun _ => none) 9))) (by decide +kernel) (by decide +kernel)⟩

end FileSink
end EspCompressor
