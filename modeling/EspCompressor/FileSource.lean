import EspCompressor.FileSystem
import EspCompressor.Truthful

/-! `FileSource`: it reads a file from its beginning, and states the size that the file had when it was opened. -/
namespace EspCompressor

/-- `fs::FS` and its `File`, for reading; an open file is known by its path. -/
structure FileReader (φ : Type) where
  openRead : Path → φ → Bool × φ
  size : Path → φ → ℕ × φ
  read : (capacity : ℕ) → Path → φ → { bytes : List UInt8 // bytes.length ≤ capacity } × φ
  position : Path → φ → ℕ × φ
  closeFile : Path → φ → φ

/-- `file` tells whether `_file` is open. -/
structure FileSource (φ : Type) where
  fs : φ
  path : Path
  file : Bool := false
  isOpen : Bool := false
  size : UInt64 := 0

namespace FileSource

section Source

variable {φ : Type} (fs : FileReader φ)

def open' (s : FileSource φ) : CompressionError × FileSource φ :=
  if s.path = [] then (.invalidArgument,s)
  else
    let opened := fs.openRead s.path s.fs
    if opened.1 = false then (.openFailed,{ s with fs := opened.2, file := false })
    else
      let size := fs.size s.path opened.2
      (.ok,{ s with fs := size.2, file := true, isOpen := true, size := UInt64.ofNat size.1 })

def close (s : FileSource φ) : FileSource φ :=
  let s := if s.file then { s with fs := fs.closeFile s.path s.fs, file := false } else s
  { s with isOpen := false }

def read (capacity : ℕ) (s : FileSource φ) : ReadResult capacity × FileSource φ :=
  if s.isOpen = false ∨ s.file = false then (readNothing .readFailed capacity,s)
  else
    let r := fs.read capacity s.path s.fs
    (⟨.ok,r.1.1,r.1.2⟩,{ s with fs := r.2 })

/-- `!_file || _file.position() >= _file.size()`, by the size that the file has now. -/
def eof (s : FileSource φ) : Bool × FileSource φ :=
  if s.file = false then (true,s)
  else
    let position := fs.position s.path s.fs
    let size := fs.size s.path position.2
    (decide (size.1 ≤ position.1),{ s with fs := size.2 })

def source : CompressionSource (FileSource φ) where
  open' := open' fs
  close := close fs
  read := read fs
  eof := eof fs
  hasKnownSize s := (true,s)
  totalSize s := (s.size,s)

end Source

end FileSource

/-! ### Reading from a disk -/

/-- A disk as one reader of it sees it: the reader's `i`-th call finds `disks i`, whatever others have done by
then; `fails i` makes it fail, and `gives i` bounds the bytes that it gives. -/
structure ReaderState where
  disks : ℕ → Disk
  fails : ℕ → Bool
  gives : ℕ → ℕ
  calls : ℕ := 0
  position : ℕ := 0

namespace ReaderState

/-- The content of a file, at the time of the next call. -/
def content (path : Path) (s : ReaderState) : List UInt8 :=
  match s.disks s.calls path with
  | some (.file content) => content
  | _ => []

theorem content_eq {path : Path} {d : List UInt8} {s : ReaderState} (h : s.disks s.calls path = some (.file d)) :
    s.content path = d := by
  rw [content,h]

/-- The next call has been made. -/
def called (s : ReaderState) : ReaderState := { s with calls := s.calls + 1 }

/-- Only files are opened. -/
def openRead (path : Path) (s : ReaderState) : Bool × ReaderState :=
  match s.disks s.calls path with
  | some (.file _) => if s.fails s.calls then (false,s.called) else (true,{ s.called with position := 0 })
  | _ => (false,s.called)

/-- A read may give nothing at all, also before the end of the file. -/
def read (capacity : ℕ) (path : Path) (s : ReaderState) :
    { bytes : List UInt8 // bytes.length ≤ capacity } × ReaderState :=
  let given := if s.fails s.calls then 0 else min capacity (s.gives s.calls)
  let bytes := ((s.content path).drop s.position).take given
  have hle : bytes.length ≤ capacity := by
    have hgiven : given ≤ capacity := by
      dsimp only [given]
      split_ifs
      · exact Nat.zero_le _
      · exact min_le_left _ _
    exact (List.length_take_le _ _).trans hgiven
  (⟨bytes,hle⟩,{ s.called with position := s.position + bytes.length })

/-- No call fails, and every read may give something. -/
def Working (s : ReaderState) : Prop := ∀ i, s.fails i = false ∧ 0 < s.gives i

end ReaderState

/-- The files of a disk, as one reader of it finds them; the sizes and the position are true. -/
def diskReader : FileReader ReaderState where
  openRead := ReaderState.openRead
  size path s := ((s.content path).length,s.called)
  read := ReaderState.read
  position _ s := (s.position,s.called)
  closeFile _ s := s.called

namespace FileSource

/-- The file of an open source holds `d` at every call, and `rest` of that remains to be read. -/
structure Remains (d rest : List UInt8) (s : FileSource ReaderState) : Prop where
  file : s.file = true
  isOpen : s.isOpen = true
  size_eq : s.size = UInt64.ofNat d.length
  holds : ∀ i, s.fs.disks i s.path = some (.file d)
  rest_eq : rest = d.drop s.fs.position

namespace Remains

variable {d rest : List UInt8} {s : FileSource ReaderState}

theorem content_eq (h : Remains d rest s) (i : ℕ) : { s.fs with calls := i }.content s.path = d :=
  ReaderState.content_eq (h.holds i)

/-- Calls that leave the file where it was. -/
theorem later (h : Remains d rest s) (n : ℕ) : Remains d rest { s with fs := { s.fs with calls := n } } :=
  ⟨h.file,h.isOpen,h.size_eq,h.holds,h.rest_eq⟩

theorem read_eq (h : Remains d rest s) (capacity : ℕ) :
    (source diskReader).read capacity s = (⟨.ok,(s.fs.read capacity s.path).1.1,(s.fs.read capacity s.path).1.2⟩,
      { s with fs := (s.fs.read capacity s.path).2 }) := by
  have hopen : ¬(s.isOpen = false ∨ s.file = false) := by simp [h.file,h.isOpen]
  change FileSource.read diskReader capacity s = _
  rw [FileSource.read,if_neg hopen]
  rfl

theorem read_data (h : Remains d rest s) (capacity : ℕ) : (s.fs.read capacity s.path).1.1 =
    rest.take (if s.fs.fails s.fs.calls then 0 else min capacity (s.fs.gives s.fs.calls)) := by
  rw [h.rest_eq]
  change (List.drop _ (s.fs.content s.path)).take _ = _
  rw [show s.fs.content s.path = d from h.content_eq s.fs.calls]

theorem after_read (h : Remains d rest s) (capacity : ℕ) :
    Remains d (rest.drop (s.fs.read capacity s.path).1.1.length)
      { s with fs := (s.fs.read capacity s.path).2 } :=
  ⟨h.file,h.isOpen,h.size_eq,h.holds,by rw [h.rest_eq,List.drop_drop]; rfl⟩

theorem eof_eq (h : Remains d rest s) : (source diskReader).eof s =
    (decide (rest = []),{ s with fs := { s.fs with calls := s.fs.calls + 2 } }) := by
  have hcontent : s.fs.called.content s.path = d := h.content_eq (s.fs.calls + 1)
  change FileSource.eof diskReader s = _
  rw [FileSource.eof,if_neg (by simp [h.file])]
  simp only [diskReader,hcontent,h.rest_eq,List.drop_eq_nil_iff]
  rfl

end Remains

/-- A file that keeps its content is a truthful source of it, whatever reads fail. -/
theorem truthful (d : List UInt8) : Truthful (source diskReader) d true (Remains d) where
  read_inv {rest s} capacity h := by
    have hfront : (s.fs.read capacity s.path).1.1 <+: rest := by
      rw [h.read_data]
      exact List.take_prefix _ _
    rw [h.read_eq]
    exact ⟨_,(List.prefix_iff_eq_append.mp hfront).symm,h.after_read capacity⟩
  eof_inv h := by
    rw [h.eof_eq]
    exact h.later _
  hasKnownSize_inv h := h
  totalSize_inv h := h
  eof_late h hended := by
    rw [h.eof_eq] at hended
    exact of_decide_eq_true hended
  known_eq _ := rfl
  size_eq h _ := h.size_eq

/-- When moreover the calls work, it is an honest one. -/
theorem honest (d : List UInt8) :
    Honest (source diskReader) d true fun rest s => Remains d rest s ∧ s.fs.Working := by
  have hread : ∀ {rest : List UInt8} {s : FileSource ReaderState} {capacity : ℕ}, Remains d rest s → s.fs.Working →
      0 < capacity → ((source diskReader).read capacity s).1.data = [] → rest = [] := by
    intro rest s capacity h hworking hpos hempty
    rw [h.read_eq] at hempty
    have hdata := (h.read_data capacity).symm.trans hempty
    have hgives := (hworking s.fs.calls).2
    rw [(hworking s.fs.calls).1,if_neg (by simp),List.take_eq_nil_iff] at hdata
    exact hdata.resolve_left (by omega)
  refine ⟨⟨?_,?_,?_,?_,?_,?_⟩,?_,?_,?_,?_⟩
  · intro rest s capacity h
    rw [h.1.read_eq]
  · intro rest s capacity h
    obtain ⟨rest',hrest,hinv⟩ := (truthful d).read_inv capacity h.1
    refine ⟨rest',hrest,hinv,?_⟩
    rw [h.1.read_eq]
    exact h.2
  · intro rest s capacity h hpos hne hempty
    exact hne (hread h.1 h.2 hpos hempty)
  · intro rest s h
    rw [h.1.eof_eq]
    exact ⟨h.1.later _,h.2⟩
  · exact fun h => h
  · exact fun h => h
  · exact fun h hended => (truthful d).eof_late h.1 hended
  · intro rest s capacity h hpos hempty
    have hnil := hread h.1 h.2 hpos hempty
    rw [h.1.read_eq,(h.1.after_read capacity).eof_eq,hnil]
    simp
  · exact fun _ => rfl
  · exact fun h _ => h.1.size_eq

section Open

variable {d : List UInt8} {s : FileSource ReaderState}

theorem open_eq (hholds : ∀ i, s.fs.disks i s.path = some (.file d)) : (source diskReader).open' s =
    if s.path = [] then (.invalidArgument,s)
    else if s.fs.fails s.fs.calls then (.openFailed,{ s with fs := s.fs.called, file := false })
    else (.ok,{ s with
      fs := { s.fs with calls := s.fs.calls + 2, position := 0 }
      file := true, isOpen := true, size := UInt64.ofNat d.length }) := by
  have hopened : diskReader.openRead s.path s.fs =
      if s.fs.fails s.fs.calls then (false,s.fs.called) else (true,{ s.fs.called with position := 0 }) := by
    change ReaderState.openRead s.path s.fs = _
    rw [ReaderState.openRead,hholds]
  have hsize : (diskReader.size s.path { s.fs.called with position := 0 }).1 = d.length :=
    congrArg List.length (ReaderState.content_eq (hholds (s.fs.calls + 1)))
  change FileSource.open' diskReader s = _
  rw [FileSource.open',hopened]
  split_ifs with hpath hfails
  · rfl
  · rfl
  · dsimp only
    rw [if_neg (by simp),hsize]
    rfl

/-- Where there is no file, none is opened. -/
theorem open_fails (hnone : ∀ v, s.fs.disks s.fs.calls s.path ≠ some (.file v)) :
    ((source diskReader).open' s).1 ≠ .ok := by
  have hopened : (diskReader.openRead s.path s.fs).1 = false := by
    change (ReaderState.openRead s.path s.fs).1 = false
    unfold ReaderState.openRead
    split
    · exact absurd ‹_› (hnone _)
    · rfl
  change (FileSource.open' diskReader s).1 ≠ .ok
  unfold FileSource.open'
  dsimp only
  rw [if_pos hopened]
  split_ifs <;> simp

/-- A file that holds `d` whenever it is looked at can be read when it has been opened. -/
theorem remains_open (hholds : ∀ i, s.fs.disks i s.path = some (.file d))
    (hok : ((source diskReader).open' s).1 = .ok) : Remains d d ((source diskReader).open' s).2 := by
  rw [open_eq hholds] at hok ⊢
  split_ifs at hok ⊢
  exact ⟨rfl,rfl,rfl,hholds,rfl⟩

theorem open_ok (hholds : ∀ i, s.fs.disks i s.path = some (.file d)) (hpath : s.path ≠ [])
    (hworking : s.fs.Working) : ((source diskReader).open' s).1 = .ok := by
  rw [open_eq hholds,if_neg hpath,if_neg (by simp [(hworking _).1])]

end Open

end FileSource
end EspCompressor
