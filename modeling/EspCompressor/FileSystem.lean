import Mathlib.Tactic

/-! The `fs::FS` interface, the directory helpers over it, and a disk whose calls may fail
at any time: a call that fails changes nothing, every call is logged with the disk before and
after it. -/
namespace EspCompressor

abbrev Path := List Char

/-- `fs::FS` and its `File`; an open file is known by its path. -/
structure FileSystem (φ : Type) where
  exists' : Path → φ → Bool × φ
  mkdir : Path → φ → Bool × φ
  openWrite : Path → φ → Bool × φ
  write : Path → List UInt8 → φ → ℕ × φ
  closeFile : Path → φ → φ
  remove : Path → φ → Bool × φ
  rename : Path → Path → φ → Bool × φ

/-- `path.rfind(c)` -/
def rfind (c : Char) (path : Path) : Option ℕ :=
  (path.reverse.idxOf? c).map fun i => path.length - 1 - i

def espCompressorDirname (path : Path) : Path :=
  if path = [] then []
  else match rfind '/' path with
    | none => []
    | some pos => if pos = 0 then ['/'] else path.take pos

/-- `espCompressorEnsureDir` for paths of at most the given length. -/
def ensureDirWithin {φ : Type} (fs : FileSystem φ) : ℕ → Path → φ → Bool × φ
  | 0, _, s => (true,s)
  | n + 1, path, s =>
    if path = [] ∨ path = ['/'] then (true,s)
    else
      let present := fs.exists' path s
      if present.1 then (true,present.2)
      else
        let parent := espCompressorDirname path
        if parent ≠ [] ∧ parent ≠ path then
          let made := ensureDirWithin fs n parent present.2
          if made.1 then fs.mkdir path made.2 else (false,made.2)
        else fs.mkdir path present.2

def espCompressorEnsureDir {φ : Type} (fs : FileSystem φ) (path : Path) (s : φ) : Bool × φ :=
  ensureDirWithin fs path.length path s

theorem rfind_mem {c : Char} {path : Path} {pos : ℕ} (h : rfind c path = some pos) :
    c ∈ path ∧ pos < path.length := by
  unfold rfind at h
  simp only [Option.map_eq_some_iff] at h
  obtain ⟨i,hi,rfl⟩ := h
  have hmem : c ∈ path.reverse := by
    by_contra hno
    rw [List.idxOf?_eq_none_iff.mpr hno] at hi
    simp at hi
  have hc := List.mem_reverse.mp hmem
  have hpos := List.length_pos_of_mem hc
  exact ⟨hc,by omega⟩

/-- The parent is shorter, but for the root, which is its own parent. -/
theorem espCompressorDirname_length_lt {path : Path} (h : path ≠ []) (hroot : path ≠ ['/']) :
    (espCompressorDirname path).length < path.length := by
  have hlen := List.length_pos_iff.mpr h
  rw [espCompressorDirname,if_neg h]
  cases hr : rfind '/' path with
  | none => exact hlen
  | some pos =>
    obtain ⟨hmem,hlt⟩ := rfind_mem hr
    dsimp only
    by_cases hp : pos = 0
    · rw [if_pos hp,List.length_singleton]
      by_contra hle
      obtain ⟨c,hc⟩ := List.length_eq_one_iff.mp (show path.length = 1 by omega)
      rw [hc,List.mem_singleton] at hmem
      exact hroot (by rw [hc,hmem])
    · rw [if_neg hp,List.length_take]
      omega

/-! ### A disk whose calls may fail -/

inductive Node
  | file (content : List UInt8)
  | dir
  deriving DecidableEq, Repr

abbrev Disk := Path → Option Node

inductive FsCall
  | exists' (path : Path)
  | mkdir (path : Path)
  | openWrite (path : Path)
  | write (path : Path) (bytes : List UInt8)
  | close (path : Path)
  | remove (path : Path)
  | rename (pathFrom pathTo : Path)
  deriving DecidableEq, Repr

/-- A call with its answer, and the disk before and after it. -/
structure FsEvent where
  call : FsCall
  ok : Bool
  before : Disk
  after : Disk

/-- `fails i` makes the `i`-th call fail; `accepts i` bounds the bytes that it stores. -/
structure DiskState where
  disk : Disk
  fails : ℕ → Bool
  accepts : ℕ → ℕ
  log : List FsEvent

namespace DiskState

/-- Perform a call: the log grows by one event. -/
def perform (call : FsCall) (ok : Bool) (after : Disk) (s : DiskState) : DiskState :=
  { s with disk := after, log := s.log ++ [⟨call,ok,s.disk,after⟩] }

/-- The next call does not fail of itself. -/
def works (s : DiskState) : Bool := !s.fails s.log.length

def exists' (path : Path) (s : DiskState) : Bool × DiskState :=
  ((s.disk path).isSome,s.perform (.exists' path) (s.disk path).isSome s.disk)

/-- A directory is made where nothing is, under a directory or the root. -/
def mkdir (path : Path) (s : DiskState) : Bool × DiskState :=
  let parent := espCompressorDirname path
  if s.works ∧ s.disk path = none ∧ (parent = [] ∨ parent = ['/'] ∨ s.disk parent = some .dir) then
    (true,s.perform (.mkdir path) true (Function.update s.disk path (some .dir)))
  else (false,s.perform (.mkdir path) false s.disk)

/-- Opening for writing makes the file empty. -/
def openWrite (path : Path) (s : DiskState) : Bool × DiskState :=
  if s.works ∧ s.disk path ≠ some .dir then
    (true,s.perform (.openWrite path) true (Function.update s.disk path (some (.file []))))
  else (false,s.perform (.openWrite path) false s.disk)

/-- A write appends what it stores and returns how much that is. -/
def write (path : Path) (bytes : List UInt8) (s : DiskState) : ℕ × DiskState :=
  match s.disk path with
  | some (.file content) =>
    let stored := bytes.take (s.accepts s.log.length)
    (stored.length,s.perform (.write path bytes) (decide (stored.length = bytes.length))
      (Function.update s.disk path (some (.file (content ++ stored)))))
  | _ => (0,s.perform (.write path bytes) (decide (bytes.length = 0)) s.disk)

def closeFile (path : Path) (s : DiskState) : DiskState := s.perform (.close path) true s.disk

/-- Only files are removed. -/
def remove (path : Path) (s : DiskState) : Bool × DiskState :=
  match s.disk path with
  | some (.file _) =>
    if s.works then (true,s.perform (.remove path) true (Function.update s.disk path none))
    else (false,s.perform (.remove path) false s.disk)
  | _ => (false,s.perform (.remove path) false s.disk)

/-- Only files are moved; a file at the target is replaced. -/
def rename (pathFrom pathTo : Path) (s : DiskState) : Bool × DiskState :=
  match s.disk pathFrom with
  | some (.file content) =>
    if s.works ∧ s.disk pathTo ≠ some .dir then
      (true,s.perform (.rename pathFrom pathTo) true
        (Function.update (Function.update s.disk pathFrom none) pathTo (some (.file content))))
    else (false,s.perform (.rename pathFrom pathTo) false s.disk)
  | _ => (false,s.perform (.rename pathFrom pathTo) false s.disk)

end DiskState

/-! ### What a log tells -/

namespace FsEvent

/-- What a call does to the disk, given its answer. -/
def Sound (e : FsEvent) : Prop :=
  match e.call with
  | .exists' path => e.ok = (e.before path).isSome ∧ e.after = e.before
  | .mkdir path => if e.ok then e.before path = none ∧
      e.after = Function.update e.before path (some .dir) else e.after = e.before
  | .openWrite path => if e.ok then e.after = Function.update e.before path (some (.file []))
      else e.after = e.before
  | .write path _ => ∀ q, q ≠ path → e.after q = e.before q
  | .close _ => e.after = e.before
  | .remove path => if e.ok then (∃ content, e.before path = some (.file content)) ∧
      e.after = Function.update e.before path none else e.after = e.before
  | .rename pathFrom pathTo => if e.ok then ∃ content, e.before pathFrom = some (.file content) ∧
      e.after = Function.update (Function.update e.before pathFrom none) pathTo (some (.file content))
      else e.after = e.before

end FsEvent

/-- Each event starts on the disk that the one before it left. -/
inductive Chain : Disk → List FsEvent → Disk → Prop
  | nil (d : Disk) : Chain d [] d
  | cons {e : FsEvent} {es : List FsEvent} {d : Disk} : e.Sound → Chain e.after es d →
      Chain e.before (e :: es) d

theorem Chain.append {d d' d'' : Disk} {es es' : List FsEvent} (h : Chain d es d')
    (h' : Chain d' es' d'') : Chain d (es ++ es') d'' := by
  induction h with
  | nil d => exact h'
  | cons hsound _ ih => exact Chain.cons hsound (ih h')

/-- A run of calls that adds `es` to the log. -/
structure Runs (s : DiskState) (es : List FsEvent) (s' : DiskState) : Prop where
  log_eq : s'.log = s.log ++ es
  chain : Chain s.disk es s'.disk

theorem Runs.refl (s : DiskState) : Runs s [] s := ⟨by simp,.nil _⟩

theorem Runs.trans {s s' s'' : DiskState} {es es' : List FsEvent} (h : Runs s es s')
    (h' : Runs s' es' s'') : Runs s (es ++ es') s'' :=
  ⟨by rw [h'.log_eq,h.log_eq,List.append_assoc],h.chain.append h'.chain⟩

theorem Runs.perform {s : DiskState} {call : FsCall} {ok : Bool} {after : Disk}
    (h : (FsEvent.mk call ok s.disk after).Sound) :
    Runs s [⟨call,ok,s.disk,after⟩] (s.perform call ok after) :=
  ⟨rfl,Chain.cons h (.nil _)⟩

namespace DiskState

theorem exists_runs (path : Path) (s : DiskState) :
    Runs s [⟨.exists' path,(s.exists' path).1,s.disk,(s.exists' path).2.disk⟩] (s.exists' path).2 :=
  Runs.perform ⟨rfl,rfl⟩

theorem mkdir_runs (path : Path) (s : DiskState) :
    Runs s [⟨.mkdir path,(s.mkdir path).1,s.disk,(s.mkdir path).2.disk⟩] (s.mkdir path).2 := by
  dsimp only [mkdir]
  split_ifs with h
  · exact Runs.perform ⟨h.2.1,rfl⟩
  · exact Runs.perform rfl

theorem openWrite_runs (path : Path) (s : DiskState) :
    Runs s [⟨.openWrite path,(s.openWrite path).1,s.disk,(s.openWrite path).2.disk⟩]
      (s.openWrite path).2 := by
  unfold openWrite
  split_ifs
  · exact Runs.perform rfl
  · exact Runs.perform rfl

/-- A write that stores all its bytes appends them. -/
theorem write_runs (path : Path) (bytes : List UInt8) (s : DiskState) :
    ∃ ok, Runs s [⟨.write path bytes,ok,s.disk,(s.write path bytes).2.disk⟩] (s.write path bytes).2 ∧
      ∀ content, s.disk path = some (.file content) → (s.write path bytes).1 = bytes.length →
        (s.write path bytes).2.disk path = some (.file (content ++ bytes)) := by
  unfold write
  split
  · rename_i content hfile
    refine ⟨_,Runs.perform fun q hq => Function.update_of_ne hq _ _,fun content' hcontent hlen => ?_⟩
    rw [hfile] at hcontent
    simp only [Option.some.injEq,Node.file.injEq] at hcontent
    simp only [List.length_take] at hlen
    have htake : bytes.take (s.accepts s.log.length) = bytes :=
      List.take_of_length_le (by omega)
    simp only [perform,Function.update_self,htake,hcontent]
  · rename_i hno
    exact ⟨_,Runs.perform fun _ _ => rfl,fun content hcontent => absurd hcontent (hno content)⟩

theorem closeFile_runs (path : Path) (s : DiskState) :
    Runs s [⟨.close path,true,s.disk,(s.closeFile path).disk⟩] (s.closeFile path) :=
  Runs.perform rfl

theorem remove_runs (path : Path) (s : DiskState) :
    Runs s [⟨.remove path,(s.remove path).1,s.disk,(s.remove path).2.disk⟩] (s.remove path).2 := by
  unfold remove
  split
  · rename_i content hfile
    split_ifs
    · exact Runs.perform ⟨⟨content,hfile⟩,rfl⟩
    · exact Runs.perform rfl
  · exact Runs.perform rfl

theorem rename_runs (pathFrom pathTo : Path) (s : DiskState) :
    Runs s [⟨.rename pathFrom pathTo,(s.rename pathFrom pathTo).1,s.disk,
      (s.rename pathFrom pathTo).2.disk⟩] (s.rename pathFrom pathTo).2 := by
  unfold rename
  split
  · rename_i content hfile
    split_ifs
    · exact Runs.perform ⟨content,hfile,rfl⟩
    · exact Runs.perform rfl
  · exact Runs.perform rfl

end DiskState

/-- The file system of a disk. -/
def diskFileSystem : FileSystem DiskState where
  exists' := DiskState.exists'
  mkdir := DiskState.mkdir
  openWrite := DiskState.openWrite
  write := DiskState.write
  closeFile := DiskState.closeFile
  remove := DiskState.remove
  rename := DiskState.rename

end EspCompressor
