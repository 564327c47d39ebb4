import EspCompressor.DirectoryTree
import EspCompressor.FileReplace
import EspCompressor.FileSource
import EspCompressor.RoundTrip

/-! Jobs from file to file on a file system that works: whatever was at the destination and at its two side
names, the destination then holds the result, and nothing else has changed. -/
namespace EspCompressor
namespace FileTransfers

open FileSink (ask cleanup cleanupTemp cleanupBackup openTemp publish)

/-! ### File systems that work -/

/-- The directory of `path` is there. -/
def Housed (d : Disk) (path : Path) : Prop :=
  espCompressorDirname path = [] ∨ espCompressorDirname path = ['/'] ∨ d (espCompressorDirname path) = some .dir

/-- Every call does what it is there for, on the disk that `view` shows; no file is replaced by a rename. -/
structure Works {φ : Type} (fs : FileSystem φ) (view : φ → Disk) : Prop where
  exists' : ∀ q s, (fs.exists' q s).1 = (view s q).isSome ∧ view (fs.exists' q s).2 = view s
  mkdir : ∀ {q s}, view s q = none → Housed (view s) q →
    (fs.mkdir q s).1 = true ∧ view (fs.mkdir q s).2 = Function.update (view s) q (some .dir)
  openWrite : ∀ {q s}, view s q ≠ some .dir → Housed (view s) q →
    (fs.openWrite q s).1 = true ∧ view (fs.openWrite q s).2 = Function.update (view s) q (some (.file []))
  write : ∀ {q s content} bytes, view s q = some (.file content) → (fs.write q bytes s).1 = bytes.length ∧
    view (fs.write q bytes s).2 = Function.update (view s) q (some (.file (content ++ bytes)))
  closeFile : ∀ q s, view (fs.closeFile q s) = view s
  remove : ∀ {q s content}, view s q = some (.file content) →
    (fs.remove q s).1 = true ∧ view (fs.remove q s).2 = Function.update (view s) q none
  rename : ∀ {a c s content}, view s a = some (.file content) → view s c = none → Housed (view s) c →
    (fs.rename a c s).1 = true ∧ view (fs.rename a c s).2 =
      Function.update (Function.update (view s) a none) c (some (.file content))

/-! ### Directories -/

/-- `q` is `path`, or a directory above it. -/
def Above (path q : Path) : Prop := ∃ n, q = espCompressorDirname^[n] path

theorem Above.self (path : Path) : Above path path := ⟨0,rfl⟩

theorem Above.dirname {path q : Path} (h : Above (espCompressorDirname path) q) : Above path q := by
  obtain ⟨n,rfl⟩ := h
  exact ⟨n + 1,(Function.iterate_succ_apply _ _ _).symm⟩

theorem dirname_length_le (path : Path) : (espCompressorDirname path).length ≤ path.length := by
  by_cases hroot : path = [] ∨ path = ['/']
  · obtain rfl | rfl := hroot
    · exact le_refl _
    · exact (show espCompressorDirname ['/'] = ['/'] by decide) ▸ le_refl _
  · exact (espCompressorDirname_length_lt (fun h => hroot (.inl h)) fun h => hroot (.inr h)).le

theorem Above.length_le {path q : Path} (h : Above path q) : q.length ≤ path.length := by
  obtain ⟨n,rfl⟩ := h
  induction n with
  | zero => exact le_refl _
  | succ n ih =>
    rw [Function.iterate_succ_apply']
    exact (dirname_length_le _).trans ih

/-- A suffix without a slash does not change the directory. -/
theorem dirname_append {p : Path} (hp : p ≠ []) {suffix : Path} (h : '/' ∉ suffix) :
    espCompressorDirname (p ++ suffix) = espCompressorDirname p := by
  have hreverse : '/' ∉ suffix.reverse := mt List.mem_reverse.mp h
  have hfind : rfind '/' (p ++ suffix) = rfind '/' p := by
    unfold rfind
    have hindex : (p ++ suffix).reverse.idxOf? '/' = (p.reverse.idxOf? '/').map (· + suffix.length) := by
      rw [List.reverse_append,List.idxOf?,List.findIdx?_append,← List.idxOf?,List.idxOf?_eq_none_iff.mpr hreverse,
        Option.none_or,List.length_reverse]
    rw [hindex,Option.map_map]
    refine congrFun (congrArg _ (funext fun i => ?_)) _
    simp only [Function.comp_apply,List.length_append]
    omega
  rw [espCompressorDirname,espCompressorDirname,hfind,if_neg hp,if_neg (by simp [hp])]
  cases hr : rfind '/' p with
  | none => rfl
  | some pos =>
    dsimp only
    rw [List.take_append_of_le_length (rfind_mem hr).2.le]

theorem dirname_tempPath {p : Path} (hp : p ≠ []) : espCompressorDirname (tempPath p) = espCompressorDirname p :=
  dirname_append hp (by decide)

theorem dirname_backupPath {p : Path} (hp : p ≠ []) :
    espCompressorDirname (backupPath p) = espCompressorDirname p := dirname_append hp (by decide)

/-- The disk after some directories above `path` were made. -/
def Made (path : Path) (d d' : Disk) : Prop :=
  ∀ q, d' q = d q ∨ Above path q ∧ d q = none ∧ d' q = some .dir

/-- No directory above `path` can be made where a file is. -/
def Unblocked (d : Disk) (path : Path) : Prop := ∀ q content, Above path q → d q ≠ some (.file content)

section Works

variable {φ : Type} {fs : FileSystem φ} {view : φ → Disk} (works : Works fs view)

include works

/-- The directory is there afterwards, and only directories above it were made. -/
theorem ensureDir_works (path : Path) (s : φ) (hfree : Unblocked (view s) path) :
    (espCompressorEnsureDir fs path s).1 = true ∧ Made path (view s) (view (espCompressorEnsureDir fs path s).2) ∧
      (path = [] ∨ path = ['/'] ∨ view (espCompressorEnsureDir fs path s).2 path = some .dir) := by
  induction hn : path.length using Nat.strong_induction_on generalizing path s with
  | _ n ih =>
    by_cases hroot : path = [] ∨ path = ['/']
    · rw [DirectoryTree.ensureDir_root hroot]
      exact ⟨rfl,fun q => .inl rfl,hroot.imp_right .inl⟩
    obtain ⟨hanswer,hsame⟩ := works.exists' path s
    rcases hexists : fs.exists' path s with ⟨_ | _,s'⟩
    · rw [hexists] at hanswer hsame
      have hnone : view s path = none := by simpa using hanswer.symm
      have hshorter := espCompressorDirname_length_lt (fun h => hroot (.inl h)) fun h => hroot (.inr h)
      obtain ⟨hmade,hframe,hparent⟩ := ih _ (hn ▸ hshorter) (espCompressorDirname path) s'
        (fun q content hq => by rw [hsame]; exact hfree q content hq.dirname) rfl
      rw [DirectoryTree.ensureDir_missing hroot hexists,if_pos hmade]
      generalize espCompressorEnsureDir fs (espCompressorDirname path) s' = made at hmade hframe hparent ⊢
      rw [hsame] at hframe
      -- the path itself is not above its directory
      have hstill : view made.2 path = none := by
        obtain hkept | ⟨habove,-⟩ := hframe path
        · exact hkept.trans hnone
        · exact absurd habove.length_le (not_le.mpr hshorter)
      obtain ⟨hok,hview⟩ := works.mkdir hstill hparent
      rw [hview]
      refine ⟨hok,fun q => ?_,.inr (.inr (Function.update_self _ _ _))⟩
      by_cases hq : q = path
      · exact .inr ⟨hq ▸ .self q,hq ▸ hnone,by rw [hq,Function.update_self]⟩
      · rw [Function.update_of_ne hq]
        exact (hframe q).imp_right fun hdir => ⟨hdir.1.dirname,hdir.2⟩
    · rw [hexists] at hanswer hsame
      rw [DirectoryTree.ensureDir_present hroot hexists]
      refine ⟨rfl,fun q => .inl (congrFun hsame q),.inr (.inr ?_)⟩
      rw [hsame]
      cases hnode : view s path with
      | none => rw [hnode] at hanswer; cases hanswer
      | some node =>
        cases node with
        | file content => exact absurd hnode (hfree path content (.self path))
        | dir => rfl

theorem cleanup_works {q : Path} {k : FileSink φ} (hdir : view k.fs q ≠ some .dir) :
    (cleanup fs q k).path = k.path ∧ (cleanup fs q k).written = k.written ∧
      view (cleanup fs q k).fs = Function.update (view k.fs) q none := by
  obtain ⟨hanswer,hsame⟩ := works.exists' q k.fs
  refine ⟨by unfold cleanup ask; dsimp only; split_ifs <;> rfl,by unfold cleanup ask; dsimp only; split_ifs <;> rfl,?_⟩
  unfold cleanup ask
  dsimp only
  cases hnode : view k.fs q with
  | none =>
    rw [hanswer,hnode,if_neg (by simp),hsame,← hnode,Function.update_eq_self]
  | some node =>
    cases node with
    | file content =>
      rw [hanswer,hnode,if_pos (by simp)]
      rw [← hsame] at hnode ⊢
      exact (works.remove hnode).2
    | dir => exact absurd hnode hdir

theorem cleanupTemp_works {p : Path} {k : FileSink φ} (hpath : k.path = p)
    (hdir : view k.fs (tempPath p) ≠ some .dir) : (cleanupTemp fs k).path = p ∧ (cleanupTemp fs k).written = k.written ∧
      view (cleanupTemp fs k).fs = Function.update (view k.fs) (tempPath p) none := by
  subst hpath
  exact cleanup_works works hdir

theorem cleanupBackup_works {p : Path} {k : FileSink φ} (hpath : k.path = p)
    (hdir : view k.fs (backupPath p) ≠ some .dir) : (cleanupBackup fs k).path = p ∧
      (cleanupBackup fs k).written = k.written ∧ view (cleanupBackup fs k).fs = Function.update (view k.fs) (backupPath p) none := by
  subst hpath
  exact cleanup_works works hdir

end Works

/-! ### The sink -/

/-- The sink can be used: there are no directories at its three paths, no files above them, and if it must not
replace a file, there is none. -/
structure Writable {φ : Type} (view : φ → Disk) (k : FileSink φ) : Prop where
  path_ne : k.path ≠ []
  not_root : k.path ≠ ['/']
  path_dir : view k.fs k.path ≠ some .dir
  temp_dir : view k.fs (tempPath k.path) ≠ some .dir
  backup_dir : view k.fs (backupPath k.path) ≠ some .dir
  unblocked : Unblocked (view k.fs) (espCompressorDirname k.path)
  replaces : k.truncate = true ∨ view k.fs k.path = none

/-- Nothing has changed but at the three paths of a sink of `p`, apart from directories made above them. -/
def Elsewhere (p : Path) (d d' : Disk) : Prop := ∀ q, q ≠ p → q ≠ tempPath p → q ≠ backupPath p →
  d' q = d q ∨ Above (espCompressorDirname p) q ∧ d q = none ∧ d' q = some .dir

theorem Elsewhere.update {p : Path} {d d' : Disk} (h : Elsewhere p d d') {q : Path}
    (hq : q = p ∨ q = tempPath p ∨ q = backupPath p) (node : Option Node) :
    Elsewhere p d (Function.update d' q node) := by
  intro q' hp ht hb
  have hne : q' ≠ q := by
    rintro rfl
    obtain hq | hq | hq := hq
    · exact hp hq
    · exact ht hq
    · exact hb hq
  rw [Function.update_of_ne hne]
  exact h q' hp ht hb

theorem Housed.update {p q : Path} {d : Disk} (h : Housed d p) (hq : (espCompressorDirname p).length < q.length)
    (node : Option Node) : Housed (Function.update d q node) p := by
  refine h.imp_right (Or.imp_right fun hdir => ?_)
  rw [Function.update_of_ne (fun hself => by rw [hself] at hq; exact lt_irrefl _ hq)]
  exact hdir

theorem housed_tempPath {p : Path} (hp : p ≠ []) {d : Disk} : Housed d (tempPath p) ↔ Housed d p := by
  rw [Housed,dirname_tempPath hp,Housed]

theorem housed_backupPath {p : Path} (hp : p ≠ []) {d : Disk} : Housed d (backupPath p) ↔ Housed d p := by
  rw [Housed,dirname_backupPath hp,Housed]

/-- What a session that has written `bytes` leaves on the disk until its commit. -/
structure Staging {φ : Type} (view : φ → Disk) (k₀ : FileSink φ) (bytes : List UInt8) (k : FileSink φ) : Prop where
  path_eq : k.path = k₀.path
  isOpen : k.isOpen = true
  file : k.file = true
  written_eq : k.written = UInt64.ofNat bytes.length
  temp : view k.fs (tempPath k₀.path) = some (.file bytes)
  backup : view k.fs (backupPath k₀.path) = none
  destination : view k.fs k₀.path = view k₀.fs k₀.path
  housed : Housed (view k.fs) k₀.path
  elsewhere : Elsewhere k₀.path (view k₀.fs) (view k.fs)

/-- The destination holds `bytes`, and the side names are free. -/
structure Replaced {φ : Type} (view : φ → Disk) (k₀ : FileSink φ) (bytes : List UInt8) (k : FileSink φ) : Prop where
  written_eq : k.written = UInt64.ofNat bytes.length
  destination : view k.fs k₀.path = some (.file bytes)
  temp : view k.fs (tempPath k₀.path) = none
  backup : view k.fs (backupPath k₀.path) = none
  elsewhere : Elsewhere k₀.path (view k₀.fs) (view k.fs)

theorem tempPath_length_le (p : Path) : p.length ≤ (tempPath p).length := by simp [tempPath]

theorem backupPath_length_le (p : Path) : p.length ≤ (backupPath p).length := by simp [backupPath]

theorem Writable.dirname_lt {φ : Type} {view : φ → Disk} {k₀ : FileSink φ} (h : Writable view k₀) {q : Path}
    (hq : k₀.path.length ≤ q.length) : (espCompressorDirname k₀.path).length < q.length :=
  (espCompressorDirname_length_lt h.path_ne h.not_root).trans_le hq

section Sink

variable {φ : Type} {fs : FileSystem φ} {view : φ → Disk} (works : Works fs view) {k₀ k : FileSink φ}
  (writable : Writable view k₀)

include works writable

/-- The directory of the destination is there, and only shorter paths have been touched. -/
theorem ensureParent_works (hview : view k.fs = view k₀.fs) :
    let made := ask (espCompressorEnsureDir fs (espCompressorDirname k₀.path)) k
    made.1 = true ∧ Housed (view made.2.fs) k₀.path ∧ Elsewhere k₀.path (view k₀.fs) (view made.2.fs) ∧
      ∀ q : Path, k₀.path.length ≤ q.length → view made.2.fs q = view k₀.fs q := by
  obtain ⟨hok,hframe,hparent⟩ := ensureDir_works works (espCompressorDirname k₀.path) k.fs
    (by rw [hview]; exact writable.unblocked)
  rw [hview] at hframe
  refine ⟨hok,hparent,fun q _ _ _ => hframe q,fun q hq => ?_⟩
  exact (hframe q).resolve_right fun hmade => absurd hmade.1.length_le (not_le.mpr (writable.dirname_lt hq))

omit writable in
/-- Whatever was at the side names is gone. -/
theorem sideNames_work (hpath : k.path = k₀.path) (htemp : view k.fs (tempPath k₀.path) ≠ some .dir)
    (hbackup : view k.fs (backupPath k₀.path) ≠ some .dir) :
    (cleanupBackup fs (cleanupTemp fs k)).path = k₀.path ∧ view (cleanupBackup fs (cleanupTemp fs k)).fs =
      Function.update (Function.update (view k.fs) (tempPath k₀.path) none) (backupPath k₀.path) none := by
  obtain ⟨hpath',-,hview⟩ := cleanupTemp_works works hpath htemp
  have hbackup' : view (cleanupTemp fs k).fs (backupPath k₀.path) ≠ some .dir := by
    rw [hview,Function.update_of_ne (tempPath_ne_backupPath _).symm]
    exact hbackup
  obtain ⟨hpath'',-,hview'⟩ := cleanupBackup_works works hpath' hbackup'
  rw [hview] at hview'
  exact ⟨hpath'',hview'⟩

theorem openTemp_works (hpath : k.path = k₀.path) (hview : view k.fs = view k₀.fs) :
    (openTemp fs k).1 = .ok ∧ Staging view k₀ [] (openTemp fs k).2 := by
  obtain ⟨hok,hhoused,helsewhere,hkept⟩ := ensureParent_works works writable hview
  unfold openTemp
  dsimp only
  rw [hpath]
  have hpath₁ : (ask (espCompressorEnsureDir fs (espCompressorDirname k₀.path)) k).2.path = k₀.path := hpath
  generalize ask (espCompressorEnsureDir fs (espCompressorDirname k₀.path)) k = made
    at hok hhoused helsewhere hkept hpath₁ ⊢
  obtain ⟨hpath₂,hview₂⟩ := sideNames_work works hpath₁
    (by rw [hkept _ (tempPath_length_le _)]; exact writable.temp_dir)
    (by rw [hkept _ (backupPath_length_le _)]; exact writable.backup_dir)
  generalize cleanupBackup fs (cleanupTemp fs made.2) = k₂ at hpath₂ hview₂ ⊢
  have htemp₂ : view k₂.fs (tempPath k₀.path) = none := by
    rw [hview₂,Function.update_of_ne (tempPath_ne_backupPath _),Function.update_self]
  have hhoused₂ : Housed (view k₂.fs) k₀.path := by
    rw [hview₂]
    exact (hhoused.update (writable.dirname_lt (tempPath_length_le _)) none).update
      (writable.dirname_lt (backupPath_length_le _)) none
  obtain ⟨hopened,hview₃⟩ := works.openWrite (by rw [htemp₂]; simp) ((housed_tempPath writable.path_ne).mpr hhoused₂)
  rw [if_neg (by simp [hok]),hpath₂]
  change (ask (fs.openWrite (tempPath k₀.path)) k₂).1 = true at hopened
  rw [if_neg (by simp [hopened])]
  refine ⟨rfl,⟨hpath₂,rfl,rfl,rfl,?_,?_,?_,?_,?_⟩⟩
  all_goals dsimp only [ask]; rw [hview₃]
  · exact Function.update_self _ _ _
  · rw [Function.update_of_ne (tempPath_ne_backupPath _).symm,hview₂,Function.update_self]
  · rw [Function.update_of_ne (tempPath_ne _).symm,hview₂,Function.update_of_ne (backupPath_ne _).symm,
      Function.update_of_ne (tempPath_ne _).symm,hkept _ (le_refl _)]
  · exact hhoused₂.update (writable.dirname_lt (tempPath_length_le _)) _
  · rw [hview₂]
    exact ((helsewhere.update (.inr (.inl rfl)) none).update (.inr (.inr rfl)) none).update (.inr (.inl rfl)) _

theorem open_works : (FileSink.open' fs k₀).1 = .ok ∧ Staging view k₀ [] (FileSink.open' fs k₀).2 := by
  unfold FileSink.open'
  dsimp only
  rw [if_neg writable.path_ne]
  obtain ⟨hanswer,hsame⟩ := works.exists' k₀.path k₀.fs
  split_ifs with htruncate hpresent
  · have hnone := writable.replaces.resolve_left (by simp [htruncate])
    rw [hnone] at hanswer
    exact absurd hpresent (by simp [ask,hanswer])
  · exact openTemp_works works writable rfl hsame
  · exact openTemp_works works writable rfl rfl

theorem write_works {bytes : List UInt8} (h : Staging view k₀ bytes k) (more : List UInt8) :
    (FileSink.write fs more k).1 = .ok ∧ Staging view k₀ (bytes ++ more) (FileSink.write fs more k).2 := by
  unfold FileSink.write
  rw [if_neg (by simp [h.isOpen,h.file])]
  by_cases hempty : more.length = 0
  · rw [if_pos hempty,List.length_eq_zero_iff.mp hempty,List.append_nil]
    exact ⟨rfl,h⟩
  rw [if_neg hempty,h.path_eq]
  obtain ⟨hall,hview⟩ := works.write more h.temp
  dsimp only [ask]
  rw [if_neg (by simp [hall])]
  refine ⟨rfl,⟨h.path_eq,h.isOpen,h.file,?_,?_,?_,?_,?_,?_⟩⟩
  · rw [h.written_eq,hall,← UInt64.ofNat_add,List.length_append]
  all_goals dsimp only; rw [hview]
  · exact Function.update_self _ _ _
  · rw [Function.update_of_ne (tempPath_ne_backupPath _).symm,h.backup]
  · rw [Function.update_of_ne (tempPath_ne _).symm,h.destination]
  · exact h.housed.update (writable.dirname_lt (tempPath_length_le _)) _
  · exact h.elsewhere.update (.inr (.inl rfl)) _

theorem staged_works {bytes : List UInt8} (h : Staged (FileSink.sink fs) k₀ bytes k) : Staging view k₀ bytes k := by
  induction h with
  | opened _ => exact (open_works works writable).2
  | wrote more _ _ ih => exact (write_works works writable ih more).2

omit writable in
/-- The staged file is moved to where nothing is. -/
theorem publish_works (hadDestination : Bool) {bytes : List UInt8} (hpath : k.path = k₀.path)
    (htemp : view k.fs (tempPath k₀.path) = some (.file bytes)) (hnone : view k.fs k₀.path = none)
    (hbackup : view k.fs (backupPath k₀.path) ≠ some .dir) (hhoused : Housed (view k.fs) k₀.path)
    (helsewhere : Elsewhere k₀.path (view k₀.fs) (view k.fs)) (hwritten : k.written = UInt64.ofNat bytes.length) :
    (publish fs hadDestination k).1 = .ok ∧ Replaced view k₀ bytes (publish fs hadDestination k).2 := by
  obtain ⟨hok,hview⟩ := works.rename htemp hnone hhoused
  unfold publish
  dsimp only
  rw [hpath]
  have hpath' : (ask (fs.rename (tempPath k₀.path) k₀.path) k).2.path = k₀.path := hpath
  have hwritten' : (ask (fs.rename (tempPath k₀.path) k₀.path) k).2.written = UInt64.ofNat bytes.length := hwritten
  change (ask (fs.rename (tempPath k₀.path) k₀.path) k).1 = true at hok
  change view (ask (fs.rename (tempPath k₀.path) k₀.path) k).2.fs = _ at hview
  generalize ask (fs.rename (tempPath k₀.path) k₀.path) k = moved at hok hview hpath' hwritten' ⊢
  have hbackup' : view moved.2.fs (backupPath k₀.path) ≠ some .dir := by
    rw [hview,Function.update_of_ne (backupPath_ne _),Function.update_of_ne (tempPath_ne_backupPath _).symm]
    exact hbackup
  obtain ⟨-,hcount,hclean⟩ := cleanupBackup_works works hpath' hbackup'
  rw [if_neg (by simp [hok])]
  refine ⟨rfl,⟨hcount.trans hwritten',?_,?_,?_,?_⟩⟩
  all_goals dsimp only; rw [hclean]
  · rw [Function.update_of_ne (backupPath_ne _).symm,hview,Function.update_self]
  · rw [Function.update_of_ne (tempPath_ne_backupPath _),hview,Function.update_of_ne (tempPath_ne _),
      Function.update_self]
  · exact Function.update_self _ _ _
  · rw [hview]
    exact ((helsewhere.update (.inr (.inl rfl)) none).update (.inl rfl) _).update (.inr (.inr rfl)) none

/-- The old destination is moved aside. -/
theorem displace_works {v : List UInt8} (hpath : k.path = k₀.path) (hv : view k.fs k₀.path = some (.file v))
    (hbackup : view k.fs (backupPath k₀.path) = none) (hhoused : Housed (view k.fs) k₀.path) :
    let moved := ask (fs.rename k₀.path (backupPath k₀.path)) (cleanupBackup fs k)
    moved.1 = true ∧ moved.2.path = k₀.path ∧ moved.2.written = k.written ∧ view moved.2.fs =
      Function.update (Function.update (view k.fs) k₀.path none) (backupPath k₀.path) (some (.file v)) := by
  obtain ⟨hpath',hcount,hview⟩ := cleanupBackup_works works hpath (by rw [hbackup]; simp)
  have hsame : view (cleanupBackup fs k).fs = view k.fs := by
    rw [hview,← hbackup,Function.update_eq_self]
  rw [← hsame] at hv hbackup hhoused
  obtain ⟨hok,hmoved⟩ := works.rename hv hbackup ((housed_backupPath writable.path_ne).mpr hhoused)
  rw [hsame] at hmoved
  exact ⟨hok,hpath',hcount,hmoved⟩

omit works in
/-- What is at the destination is a file. -/
theorem Staging.destination_file {bytes : List UInt8} (h : Staging view k₀ bytes k)
    (hpresent : (view k.fs k₀.path).isSome) : ∃ v, view k.fs k₀.path = some (.file v) := by
  obtain ⟨node,hnode⟩ := Option.isSome_iff_exists.mp hpresent
  cases node with
  | file v => exact ⟨v,hnode⟩
  | dir =>
    rw [h.destination] at hnode
    exact absurd hnode writable.path_dir

theorem commit_works {bytes : List UInt8} (h : Staging view k₀ bytes k) :
    (FileSink.commit fs k).1 = .ok ∧ Replaced view k₀ bytes (FileSink.commit fs k).2 := by
  obtain ⟨hanswer,hsame⟩ := works.exists' k₀.path (FileSink.closeFile fs k).fs
  rw [show view (FileSink.closeFile fs k).fs = view k.fs from works.closeFile _ _] at hanswer hsame
  unfold FileSink.commit
  dsimp only
  rw [if_neg (by simp [h.isOpen,h.file]),h.path_eq]
  have hpath : (ask (fs.exists' k₀.path) (FileSink.closeFile fs k)).2.path = k₀.path := h.path_eq
  have hwritten : (ask (fs.exists' k₀.path) (FileSink.closeFile fs k)).2.written = UInt64.ofNat bytes.length :=
    h.written_eq
  change (ask (fs.exists' k₀.path) (FileSink.closeFile fs k)).1 = _ at hanswer
  change view (ask (fs.exists' k₀.path) (FileSink.closeFile fs k)).2.fs = _ at hsame
  generalize ask (fs.exists' k₀.path) (FileSink.closeFile fs k) = present at hanswer hsame hpath hwritten ⊢
  by_cases hpresent : present.1 = true
  · obtain ⟨v,hv⟩ := h.destination_file writable (hanswer.symm.trans hpresent)
    obtain ⟨hok,hpath',hcount,hview⟩ := displace_works works writable hpath (hsame ▸ hv) (hsame ▸ h.backup)
      (hsame ▸ h.housed)
    rw [if_pos hpresent,show (cleanupBackup fs present.2).path = k₀.path from hpath']
    rw [hsame] at hview
    generalize ask (fs.rename k₀.path (backupPath k₀.path)) (cleanupBackup fs present.2) = moved
      at hok hpath' hcount hview ⊢
    rw [if_neg (by simp [hok])]
    refine publish_works works true hpath' ?_ ?_ ?_ ?_ ?_ (hcount.trans hwritten)
    all_goals rw [hview]
    · rw [Function.update_of_ne (tempPath_ne_backupPath _),Function.update_of_ne (tempPath_ne _),h.temp]
    · rw [Function.update_of_ne (backupPath_ne _).symm,Function.update_self]
    · rw [Function.update_self]
      simp
    · exact (h.housed.update (writable.dirname_lt (le_refl _)) none).update
        (writable.dirname_lt (backupPath_length_le _)) _
    · exact (h.elsewhere.update (.inl rfl) none).update (.inr (.inr rfl)) _
  · rw [if_neg hpresent]
    rw [Bool.eq_false_of_not_eq_true hpresent] at hanswer
    refine publish_works works false hpath ?_ ?_ ?_ ?_ ?_ hwritten
    all_goals rw [hsame]
    · exact h.temp
    · simpa using hanswer.symm
    · rw [h.backup]
      simp
    · exact h.housed
    · exact h.elsewhere

/-- The sink accepts everything. -/
theorem accepts : Accepts (FileSink.sink fs) k₀ where
  open_ok := (open_works works writable).1
  write_ok h more := (write_works works writable (staged_works works writable h) more).1
  commit_ok h := (commit_works works writable (staged_works works writable h)).1

/-- A session that ends with `Ok` has replaced the destination by what it wrote. -/
theorem ending_works {opened : Bool} {cs : List CompressionError} {bytes : List UInt8}
    (h : SinkEnding (FileSink.sink fs) k₀ opened cs bytes .ok k) : Replaced view k₀ bytes k := by
  cases h with
  | rejected he => exact absurd rfl he
  | sourceFailed he => exact absurd rfl he
  | openFailed he _ => exact absurd rfl he
  | aborted he _ => exact absurd rfl he
  | @committed _ k hstaged _ =>
    obtain ⟨-,hreplaced⟩ := commit_works works writable (staged_works works writable hstaged)
    have hclosed : view (FileSink.close fs (FileSink.commit fs k).2).fs = view (FileSink.commit fs k).2.fs ∧
        (FileSink.close fs (FileSink.commit fs k).2).written = (FileSink.commit fs k).2.written := by
      unfold FileSink.close
      dsimp only
      split_ifs
      · exact ⟨works.closeFile _ _,rfl⟩
      · exact ⟨rfl,rfl⟩
    obtain ⟨hwritten,hdestination,htemp,hbackup,helsewhere⟩ := hreplaced
    rw [← hclosed.1] at hdestination htemp hbackup helsewhere
    exact ⟨hclosed.2.trans hwritten,hdestination,htemp,hbackup,helsewhere⟩

end Sink

/-! ### Jobs -/

/-- Memory for all that a job asks for at a time. -/
def memoryNeed (config : ESPCompressorConfig) : CompressionOperation → ℕ
  | .compress => Compressor.blockNeed config.blockSize
  | .decompress => uint32Max

/-- A job that reads a file, which holds `d` at each of its calls, into a file of the disk that `view` shows. The
calls of the source work, memory is enough, and nobody cancels. -/
structure FileTransfer {φ : Type} (view : φ → Disk) (operation : CompressionOperation) (d : List UInt8) where
  config : ESPCompressorConfig
  options : CompressionJobOptions
  cancelRequested : ℕ → Bool
  source : FileSource ReaderState
  k₀ : FileSink φ
  heap : Heap
  fuel : ℕ
  valid : Compressor.ValidConfig config
  uncancelled : ∀ n, cancelRequested n = false
  path_ne : source.path ≠ []
  holds : ∀ i, source.fs.disks i source.path = some (.file d)
  working : source.fs.Working
  writable : Writable view k₀
  ample : heap.Ample (memoryNeed config operation)
  fuel_gt : d.length < fuel

namespace FileTransfer

variable {φ : Type} {fs : FileSystem φ} {view : φ → Disk} {operation : CompressionOperation} {d : List UInt8}

def ctx (fs : FileSystem φ) (job : FileTransfer view operation d) : RunContext (FileSource ReaderState) (FileSink φ) where
  config := job.config
  operation
  source := FileSource.source diskReader
  sink := FileSink.sink fs
  options := job.options
  cancelRequested := job.cancelRequested

/-- The run of the job on the file system. -/
def run (fs : FileSystem φ) (job : FileTransfer view operation d) :
    Option CompressionResult × RunState (FileSource ReaderState) (FileSink φ) :=
  Compressor.jobRun (job.ctx fs) job.fuel job.source job.k₀ job.heap

theorem opened (job : FileTransfer view operation d) :
    FileSource.Remains d d ((FileSource.source diskReader).open' job.source).2 ∧
      ((FileSource.source diskReader).open' job.source).2.fs.Working := by
  have hok := FileSource.open_ok job.holds job.path_ne job.working
  refine ⟨FileSource.remains_open job.holds hok,?_⟩
  rw [FileSource.open_eq job.holds,if_neg job.path_ne,if_neg (by simp [(job.working _).1])]
  exact job.working

/-- A job that returns `Ok` has replaced its destination by what it published. -/
theorem replaced (works : Works fs view) (job : FileTransfer view operation d) {r : CompressionResult}
    {s : RunState (FileSource ReaderState) (FileSink φ)} (hrun : job.run fs = (some r,s)) (hok : r.error = .ok)
    {bytes : List UInt8} (hpublished : published s.trace = some bytes) : Replaced view job.k₀ bytes s.sink := by
  have hends := Proc.exec_of_wp (@Compressor.runSyncJob_ends _ _ job.k₀ (job.ctx fs) job.fuel job.source job.heap) hrun
  rw [hends.published_eq,if_pos hok,Option.some.injEq] at hpublished
  unfold Compressor.EndsSession at hends
  rw [hok,hpublished] at hends
  exact ending_works works job.writable hends

def toCompressJob (works : Works fs view) (job : FileTransfer view .compress d) : Compressor.CompressJob d where
  σ := FileSource ReaderState
  κ := FileSink φ
  ctx := job.ctx fs
  source := job.source
  k₀ := job.k₀
  heap := job.heap
  fuel := job.fuel
  known := true
  Inv rest s := FileSource.Remains d rest s ∧ s.fs.Working
  honest := FileSource.honest d
  opened := job.opened
  valid := job.valid
  open_ok := FileSource.open_ok job.holds job.path_ne job.working
  unhindered := ⟨.inl rfl,accepts works job.writable,job.ample,job.uncancelled⟩
  fuel_gt := job.fuel_gt

def toDecompressJob (works : Works fs view) (job : FileTransfer view .decompress d) : Compressor.DecompressJob d where
  σ := FileSource ReaderState
  κ := FileSink φ
  ctx := job.ctx fs
  source := job.source
  k₀ := job.k₀
  heap := job.heap
  fuel := job.fuel
  Inv rest s := FileSource.Remains d rest s ∧ s.fs.Working
  delivers := (FileSource.honest d).toDelivers
  open_ok := FileSource.open_ok job.holds job.path_ne job.working
  opened := job.opened
  unhindered := ⟨.inl rfl,accepts works job.writable,job.ample,job.uncancelled⟩
  fuel_gt := job.fuel_gt

end FileTransfer

/-- What has been compressed into a file is restored from it, byte for byte, wherever the two jobs write. -/
theorem file_round_trip {φ : Type} {fs : FileSystem φ} {view : φ → Disk} (works : Works fs view) {d : List UInt8}
    (job : FileTransfer view .compress d) : ∃ r s c, job.run fs = (some r,s) ∧ r.error = .ok ∧
      Replaced view job.k₀ c s.sink ∧ r.inputBytes = UInt64.ofNat d.length ∧ r.outputBytes = UInt64.ofNat c.length ∧
      ∀ job' : FileTransfer view .decompress c, ∃ r' s', job'.run fs = (some r',s') ∧ r'.error = .ok ∧
        Replaced view job'.k₀ d s'.sink ∧ r'.inputBytes = UInt64.ofNat c.length ∧
        r'.outputBytes = UInt64.ofNat d.length := by
  obtain ⟨r,s,hrun,hok⟩ := (job.toCompressJob works).returns
  obtain ⟨c,-,hpublished,hdecode,hinput,k,hstaged,-,houtput⟩ := (job.toCompressJob works).result hrun hok
  obtain ⟨-,hcommitted⟩ := commit_works works job.writable (staged_works works job.writable hstaged)
  refine ⟨r,s,c,hrun,hok,job.replaced works hrun hok hpublished,hinput,houtput.trans hcommitted.written_eq,fun job' => ?_⟩
  obtain ⟨r',s',hrun',hok',hpublished',hdone⟩ := (job'.toDecompressJob works).returns_ok hdecode
  obtain ⟨rest,hrest,hposition⟩ := hdone.decoded
  obtain ⟨hwritten,rfl⟩ := Prod.mk.inj (Except.ok.inj (hdecode.symm.trans hrest))
  have hconsumed : (meter s'.trace).position = c.length := hposition
  exact ⟨r',s',hrun',hok',job'.replaced works hrun' hok' hpublished',by rw [hdone.inputBytes,hconsumed],
    by rw [hdone.outputBytes,← hwritten]⟩

/-! ### A disk on which every call works -/

/-- The calls on a disk without limits; a rename onto something fails. -/
def plainFileSystem : FileSystem Disk where
  exists' q d := ((d q).isSome,d)
  mkdir q d := if d q = none then (true,Function.update d q (some .dir)) else (false,d)
  openWrite q d := if d q = some .dir then (false,d) else (true,Function.update d q (some (.file [])))
  write q bytes d := match d q with
    | some (.file content) => (bytes.length,Function.update d q (some (.file (content ++ bytes))))
    | _ => (0,d)
  closeFile _ d := d
  remove q d := match d q with
    | some (.file _) => (true,Function.update d q none)
    | _ => (false,d)
  rename a c d := match d a with
    | some (.file content) =>
      if d c = none then (true,Function.update (Function.update d a none) c (some (.file content))) else (false,d)
    | _ => (false,d)

theorem plainFileSystem_works : Works plainFileSystem id where
  exists' _ _ := ⟨rfl,rfl⟩
  mkdir hnone _ := by
    dsimp only [id] at hnone
    simp only [plainFileSystem,hnone,if_true,id,and_self]
  openWrite hdir _ := by
    dsimp only [id] at hdir
    simp only [plainFileSystem,hdir,if_false,id,and_self]
  write bytes hfile := by
    dsimp only [id] at hfile
    simp only [plainFileSystem,hfile,id,and_self]
  closeFile _ _ := rfl
  remove hfile := by
    dsimp only [id] at hfile
    simp only [plainFileSystem,hfile,id,and_self]
  rename hfile hnone _ := by
    dsimp only [id] at hfile hnone
    simp only [plainFileSystem,hfile,hnone,if_true,id,and_self]

/-- The file `a`, in reads of one byte. -/
def sourceFile : FileSource ReaderState where
  fs := ⟨fun _ q => if q = ['a'] then some (.file [1,2,3]) else none,fun _ => false,fun _ => 1,0,0⟩
  path := ['a']

/-- An old file `b`, beside what an earlier job left. -/
def targetFile : FileSink Disk where
  fs q := if q = ['b'] then some (.file [7]) else if q = tempPath ['b'] then some (.file [8]) else none
  path := ['b']

theorem validConfig_default : Compressor.ValidConfig {} := ⟨by decide,by decide,by decide⟩
theorem sourceFile_holds (i : ℕ) : sourceFile.fs.disks i sourceFile.path = some (.file [1,2,3]) := rfl
theorem sourceFile_working : sourceFile.fs.Working := fun _ => ⟨rfl,Nat.one_pos⟩

theorem targetFile_writable : Writable id targetFile where
  path_ne := by decide
  not_root := by decide
  path_dir := by decide
  temp_dir := by decide
  backup_dir := by decide
  unblocked q content habove := by
    obtain rfl : q = [] := List.length_eq_zero_iff.mp (Nat.le_zero.mp habove.length_le)
    rw [show id targetFile.fs [] = none from rfl]
    simp
  replaces := .inl rfl

/-- The job from `a` to `b`. -/
def copyJob : FileTransfer (id : Disk → Disk) .compress [1,2,3] :=
  ⟨{},{},fun _ => false,sourceFile,targetFile,.unlimited,4,validConfig_default,fun _ => rfl,List.cons_ne_nil _ _,
    sourceFile_holds,sourceFile_working,targetFile_writable,Heap.unlimited_ample _,Nat.lt_add_one 3⟩

theorem file_round_trip_replaces : ∃ r s c, copyJob.run plainFileSystem = (some r,s) ∧ r.error = .ok ∧
    s.sink.fs ['b'] = some (.file c) ∧ s.sink.fs (tempPath ['b']) = none := by
  obtain ⟨r,s,c,hrun,hok,hreplaced,-⟩ := file_round_trip plainFileSystem_works copyJob
  exact ⟨r,s,c,hrun,hok,hreplaced.destination,hreplaced.temp⟩

end FileTransfers
end EspCompressor
