import EspCompressor.FileSystem

/-! `espCompressorEnsureDir` ends on every path, and on a tree of directories it makes exactly the
missing prefixes of a path, each after its parent, or nothing. -/
namespace EspCompressor
namespace DirectoryTree

abbrev Name := List Char

/-! ### Paths and their components -/

/-- A component is not empty and has no slash. -/
def Proper (names : List Name) : Prop := ∀ name ∈ names, name ≠ [] ∧ '/' ∉ name

/-- The path of `name` in the directory `path`. -/
def extend (path : Path) (name : Name) : Path :=
  if path = [] ∨ path = ['/'] then path ++ name else path ++ '/' :: name

/-- The path with these components. -/
def render (absolute : Bool) (names : List Name) : Path :=
  names.foldl extend (if absolute then ['/'] else [])

theorem render_append (absolute : Bool) (names : List Name) (name : Name) :
    render absolute (names ++ [name]) = extend (render absolute names) name := by
  rw [render,List.foldl_append]
  rfl

theorem render_nil (absolute : Bool) : render absolute [] = [] ∨ render absolute [] = ['/'] := by
  cases absolute with
  | false => exact .inl rfl
  | true => exact .inr rfl

/-- The last slash is the one before the last component. -/
theorem rfind_append (path : Path) {name : Name} (h : '/' ∉ name) :
    rfind '/' (path ++ '/' :: name) = some path.length := by
  have hreverse : (path ++ '/' :: name).reverse = name.reverse ++ '/' :: path.reverse := by simp
  have hindex : (name.reverse ++ '/' :: path.reverse).idxOf? '/' = some name.length := by
    rw [List.idxOf?_eq_some_iff]
    refine ⟨by simp,by simp,fun j hj => ?_⟩
    rw [List.getElem_append_left (by simpa using hj)]
    intro hslash
    exact h (List.mem_reverse.mp (hslash ▸ List.getElem_mem _))
  rw [rfind,hreverse,hindex,Option.map_some]
  congr 1
  simp

theorem rfind_none {name : Name} (h : '/' ∉ name) : rfind '/' name = none := by
  have hreverse : '/' ∉ name.reverse := mt List.mem_reverse.mp h
  rw [rfind,List.idxOf?_eq_none_iff.mpr hreverse]
  rfl

/-- The directory of `name` in `path` is `path`. -/
theorem dirname_extend (path : Path) {name : Name} (hne : name ≠ []) (hslash : '/' ∉ name) :
    espCompressorDirname (extend path name) = path := by
  unfold extend
  by_cases hempty : path = []
  · rw [if_pos (.inl hempty),hempty,List.nil_append,espCompressorDirname,if_neg hne,rfind_none hslash]
  by_cases hroot : path = ['/']
  · rw [if_pos (.inr hroot),hroot,espCompressorDirname,if_neg (by simp)]
    have hfind := rfind_append [] hslash
    rw [List.nil_append] at hfind
    rw [List.singleton_append,hfind]
    rfl
  · have hlen := List.length_pos_of_ne_nil hempty
    rw [if_neg (not_or.mpr ⟨hempty,hroot⟩),espCompressorDirname,if_neg (by simp),
      rfind_append path hslash]
    dsimp only
    rw [if_neg (by omega),List.take_left]

theorem extend_ne_root (path : Path) {name : Name} (hne : name ≠ []) (hslash : '/' ∉ name) :
    ¬(extend path name = [] ∨ extend path name = ['/']) := by
  have hlen := List.length_pos_of_ne_nil hne
  unfold extend
  by_cases hempty : path = []
  · rw [if_pos (.inl hempty),hempty,List.nil_append]
    rintro (h | h)
    · exact hne h
    · exact hslash (h ▸ List.mem_singleton_self _)
  by_cases hroot : path = ['/']
  · rw [if_pos (.inr hroot),hroot]
    rintro (h | h)
    · simp at h
    · have hlength := congrArg List.length h
      simp at hlength
      exact hne hlength
  · rw [if_neg (not_or.mpr ⟨hempty,hroot⟩)]
    rintro (h | h)
    · simp at h
    · have hlength := congrArg List.length h
      simp only [List.length_append,List.length_cons,List.length_nil] at hlength
      omega

/-! ### Termination -/

/-- The recursion as the source has it, whether or not it ends. -/
inductive EnsureDir {φ : Type} (fs : FileSystem φ) : Path → φ → Bool × φ → Prop
  | root {path : Path} {s : φ} : path = [] ∨ path = ['/'] → EnsureDir fs path s (true,s)
  | present {path : Path} {s s' : φ} : ¬(path = [] ∨ path = ['/']) → fs.exists' path s = (true,s') →
      EnsureDir fs path s (true,s')
  | parent {path : Path} {s s' : φ} {made : Bool × φ} : ¬(path = [] ∨ path = ['/']) →
      fs.exists' path s = (false,s') →
      espCompressorDirname path ≠ [] ∧ espCompressorDirname path ≠ path →
      EnsureDir fs (espCompressorDirname path) s' made →
      EnsureDir fs path s (if made.1 then fs.mkdir path made.2 else (false,made.2))
  | top {path : Path} {s s' : φ} : ¬(path = [] ∨ path = ['/']) → fs.exists' path s = (false,s') →
      ¬(espCompressorDirname path ≠ [] ∧ espCompressorDirname path ≠ path) →
      EnsureDir fs path s (fs.mkdir path s')

/-- As many rounds as the path has bytes are enough. -/
theorem ensureDirWithin_ends {φ : Type} (fs : FileSystem φ) (n : ℕ) {path : Path}
    (hn : path.length ≤ n) (s : φ) : EnsureDir fs path s (ensureDirWithin fs n path s) := by
  induction n generalizing path s with
  | zero => exact .root (.inl (List.length_eq_zero_iff.mp (Nat.le_zero.mp hn)))
  | succ n ih =>
    unfold ensureDirWithin
    by_cases hroot : path = [] ∨ path = ['/']
    · rw [if_pos hroot]
      exact .root hroot
    rw [if_neg hroot]
    rcases hexists : fs.exists' path s with ⟨_ | _,s'⟩
    · dsimp only
      rw [if_neg (by simp)]
      by_cases hparent : espCompressorDirname path ≠ [] ∧ espCompressorDirname path ≠ path
      · have hshorter := espCompressorDirname_length_lt (fun h => hroot (.inl h)) fun h => hroot (.inr h)
        rw [if_pos hparent]
        exact .parent hroot hexists hparent (ih (by omega) s')
      · rw [if_neg hparent]
        exact .top hroot hexists hparent
    · exact .present hroot hexists

theorem EnsureDir.unique {φ : Type} {fs : FileSystem φ} {path : Path} {s : φ} {r r' : Bool × φ}
    (h : EnsureDir fs path s r) (h' : EnsureDir fs path s r') : r = r' := by
  have hanswer {path : Path} {s s₁ s₂ : φ} (hyes : fs.exists' path s = (true,s₁))
      (hno : fs.exists' path s = (false,s₂)) : False := by
    rw [hyes] at hno
    exact absurd (Prod.mk.inj hno).1 (by simp)
  induction h generalizing r' with
  | root hroot =>
    cases h' with
    | root => rfl
    | present hne | parent hne | top hne => exact absurd hroot hne
  | present hne hexists =>
    cases h' with
    | root hroot => exact absurd hroot hne
    | present _ hexists' => rw [← hexists,hexists']
    | parent _ hexists' | top _ hexists' => exact (hanswer hexists hexists').elim
  | parent hne hexists hparent _ ih =>
    cases h' with
    | root hroot => exact absurd hroot hne
    | present _ hexists' => exact (hanswer hexists' hexists).elim
    | parent _ hexists' _ hrec =>
      rw [hexists] at hexists'
      obtain ⟨-,rfl⟩ := Prod.mk.inj hexists'
      rw [ih hrec]
    | top _ _ htop => exact absurd hparent htop
  | top hne hexists htop =>
    cases h' with
    | root hroot => exact absurd hroot hne
    | present _ hexists' => exact (hanswer hexists' hexists).elim
    | parent _ _ hparent => exact absurd hparent htop
    | top _ hexists' _ =>
      rw [hexists] at hexists'
      rw [(Prod.mk.inj hexists').2]

/-- The recursion ends on every path and file system, with what `espCompressorEnsureDir` returns. -/
theorem ensureDir_iff {φ : Type} (fs : FileSystem φ) (path : Path) (s : φ) (r : Bool × φ) :
    EnsureDir fs path s r ↔ espCompressorEnsureDir fs path s = r := by
  have hends := ensureDirWithin_ends fs path.length (le_refl _) s
  constructor
  · exact fun h => hends.unique h
  · intro h
    rw [← h]
    exact hends

/-! ### A tree of directories -/

/-- The nodes of a tree, by the names that lead to them from the root, which is a directory. -/
structure IsTree (node : List Name → Option Node) : Prop where
  root : node [] = some .dir
  parent : ∀ names name, node (names ++ [name]) ≠ none → node names = some .dir

theorem IsTree.present_of_prefix {node : List Name → Option Node} (h : IsTree node) {q names : List Name}
    (hq : q <+: names) (hnames : node names ≠ none) : node q ≠ none := by
  obtain ⟨rest,rfl⟩ := hq
  induction rest using List.reverseRecOn with
  | nil => rwa [List.append_nil] at hnames
  | append_singleton rest name ih =>
    rw [← List.append_assoc] at hnames
    exact ih (by rw [h.parent _ _ hnames]; simp)

/-- `exists` and `mkdir` as on a tree: a directory is made exactly where nothing is, in a directory.
`made` lists the directories made so far. -/
structure ActsOnTree {φ : Type} (fs : FileSystem φ) (node : φ → List Name → Option Node)
    (made : φ → List (List Name)) : Prop where
  exists_answer : ∀ absolute names s, Proper names →
    (fs.exists' (render absolute names) s).1 = (node s names).isSome
  exists_same : ∀ path s, node (fs.exists' path s).2 = node s ∧ made (fs.exists' path s).2 = made s
  mkdir_iff : ∀ absolute names name s, Proper (names ++ [name]) →
    ((fs.mkdir (render absolute (names ++ [name])) s).1 = true ↔
      node s (names ++ [name]) = none ∧ node s names = some .dir)
  mkdir_made : ∀ absolute names s, Proper names → (fs.mkdir (render absolute names) s).1 = true →
    node (fs.mkdir (render absolute names) s).2 = Function.update (node s) names (some .dir) ∧
      made (fs.mkdir (render absolute names) s).2 = made s ++ [names]
  mkdir_failed : ∀ path s, (fs.mkdir path s).1 = false →
    node (fs.mkdir path s).2 = node s ∧ made (fs.mkdir path s).2 = made s

/-- The longest proper prefix at which something is. -/
def NearestAncestor (node : List Name → Option Node) (names parent : List Name) : Prop :=
  (parent <+: names ∧ parent ≠ names ∧ node parent ≠ none) ∧
    ∀ q, q <+: names → q ≠ names → node q ≠ none → q <+: parent

/-- Something is there, or a directory is nearest above. -/
def Reachable (node : List Name → Option Node) (names : List Name) : Prop :=
  node names ≠ none ∨ ∃ parent, NearestAncestor node names parent ∧ node parent = some .dir

/-- The directories `created` are missing prefixes, each made after its parent. -/
structure Creates (node : List Name → Option Node) (names : List Name) (created : List (List Name)) :
    Prop where
  missing : ∀ q ∈ created, q <+: names ∧ node q = none
  ordered : ∀ earlier q later, created = earlier ++ q :: later →
    ∃ parent name, q = parent ++ [name] ∧ (node parent = some .dir ∨ parent ∈ earlier)

/-- What `espCompressorEnsureDir` answers and does. -/
structure Ensured (node node' : List Name → Option Node) (names : List Name)
    (created : List (List Name)) (ok : Bool) : Prop where
  creates : Creates node names created
  node_eq : ∀ q, node' q = if q ∈ created then some .dir else node q
  answer : ok = true ↔ Reachable node names
  complete : ok = true → ∀ q, q <+: names → node' q ≠ none
  unchanged : ok = false ∨ node names ≠ none → created = []

section Recursion

variable {φ : Type} {fs : FileSystem φ}

theorem ensureDir_root {path : Path} (hroot : path = [] ∨ path = ['/']) (s : φ) :
    espCompressorEnsureDir fs path s = (true,s) := (ensureDir_iff fs path s _).mp (.root hroot)

theorem ensureDir_present {path : Path} {s s' : φ} (hroot : ¬(path = [] ∨ path = ['/']))
    (hexists : fs.exists' path s = (true,s')) : espCompressorEnsureDir fs path s = (true,s') :=
  (ensureDir_iff fs path s _).mp (.present hroot hexists)

/-- A missing path is made after its parent. -/
theorem ensureDir_missing {path : Path} {s s' : φ} (hroot : ¬(path = [] ∨ path = ['/']))
    (hexists : fs.exists' path s = (false,s')) : espCompressorEnsureDir fs path s =
      if (espCompressorEnsureDir fs (espCompressorDirname path) s').1 then
        fs.mkdir path (espCompressorEnsureDir fs (espCompressorDirname path) s').2
      else (false,(espCompressorEnsureDir fs (espCompressorDirname path) s').2) := by
  by_cases hparent : espCompressorDirname path ≠ [] ∧ espCompressorDirname path ≠ path
  · exact (ensureDir_iff fs path s _).mp (.parent hroot hexists hparent ((ensureDir_iff fs _ s' _).mpr rfl))
  · have hshorter := espCompressorDirname_length_lt (fun h => hroot (.inl h)) fun h => hroot (.inr h)
    have hempty : espCompressorDirname path = [] := by
      by_contra hne
      refine hparent ⟨hne,fun hself => ?_⟩
      rw [hself] at hshorter
      exact absurd hshorter (lt_irrefl _)
    rw [ensureDir_root (.inl hempty),if_pos rfl]
    exact (ensureDir_iff fs path s _).mp (.top hroot hexists hparent)

end Recursion

/-! ### What is created -/

/-- A proper prefix of a path is a prefix of its directory. -/
theorem prefix_of_append {q names : List Name} {name : Name} (h : q <+: names ++ [name])
    (hne : q ≠ names ++ [name]) : q <+: names := by
  rw [List.prefix_concat_iff] at h
  exact h.resolve_left hne

theorem append_singleton_ne (names : List Name) (name : Name) : names ≠ names ++ [name] := by
  intro h
  have hlength := congrArg List.length h
  rw [List.length_append,List.length_singleton] at hlength
  omega

/-- Above a missing path, its directory is nearest, if it is there. -/
theorem reachable_append {node : List Name → Option Node} {names : List Name} {name : Name}
    (hmissing : node (names ++ [name]) = none) : Reachable node (names ++ [name]) ↔
      node names = some .dir ∨ node names = none ∧ Reachable node names := by
  have habove (q : List Name) (hq : node q ≠ none) : q ≠ names ++ [name] := by
    intro h
    exact hq (h ▸ hmissing)
  have hbegins : names <+: names ++ [name] := List.prefix_append _ _
  constructor
  · intro hreach
    obtain ⟨parent,⟨⟨hparent,hne,hnode⟩,hnearest⟩,hdir⟩ := hreach.resolve_left (not_not.mpr hmissing)
    have hbelow := prefix_of_append hparent hne
    by_cases hnames : node names = none
    · refine .inr ⟨hnames,.inr ⟨parent,⟨⟨hbelow,?_,hnode⟩,fun q hq _ hqnode => ?_⟩,hdir⟩⟩
      · intro h
        exact hnode (h ▸ hnames)
      · exact hnearest q (hq.trans hbegins) (habove q hqnode) hqnode
    · have hback := hnearest names hbegins (append_singleton_ne names name) hnames
      rw [hbelow.eq_of_length_le hback.length_le] at hdir
      exact .inl hdir
  · rintro (hdir | ⟨hnames,hreach⟩)
    · refine .inr ⟨names,⟨⟨hbegins,append_singleton_ne names name,by simp [hdir]⟩,fun q hq hne _ => ?_⟩,hdir⟩
      exact prefix_of_append hq hne
    · obtain ⟨parent,⟨⟨hparent,-,hnode⟩,hnearest⟩,hdir⟩ := hreach.resolve_left (not_not.mpr hnames)
      refine .inr ⟨parent,⟨⟨hparent.trans hbegins,habove parent hnode,hnode⟩,fun q hq hne hqnode => ?_⟩,hdir⟩
      refine hnearest q (prefix_of_append hq hne) ?_ hqnode
      intro h
      exact hqnode (h ▸ hnames)

/-- Nothing is created where something is. -/
theorem ensured_present {node : List Name → Option Node} {names : List Name} (htree : IsTree node)
    (hpresent : node names ≠ none) : Ensured node node names [] true where
  creates := ⟨nofun,fun earlier q later h => absurd h (by simp)⟩
  node_eq q := by rw [if_neg List.not_mem_nil]
  answer := iff_of_true rfl (.inl hpresent)
  complete _ q hq := htree.present_of_prefix hq hpresent
  unchanged _ := rfl

section Step

variable {node node' : List Name → Option Node} {names : List Name} {name : Name}
  {created : List (List Name)}

theorem ensured_parentFailed (h : Ensured node node' names created false)
    (hmissing : node (names ++ [name]) = none) : Ensured node node' (names ++ [name]) [] false := by
  obtain rfl := h.unchanged (.inl rfl)
  have hunreachable : ¬Reachable node names := mt h.answer.mpr (by simp)
  refine ⟨⟨nofun,fun earlier q later h => absurd h (by simp)⟩,h.node_eq,iff_of_false (by simp) ?_,nofun,
    fun _ => rfl⟩
  rw [reachable_append hmissing]
  rintro (hdir | ⟨-,hreach⟩)
  · exact hunreachable (.inl (by simp [hdir]))
  · exact hunreachable hreach

/-- Below a directory that was there or has just been made. -/
theorem ensured_made (h : Ensured node node' names created true)
    (hmissing : node (names ++ [name]) = none) (hdir : node' names = some .dir) :
    Ensured node (Function.update node' (names ++ [name]) (some .dir)) (names ++ [name])
      (created ++ [names ++ [name]]) true := by
  have hparent : node names = some .dir ∨ node names = none ∧ names ∈ created := by
    have hvalue := h.node_eq names
    rw [hdir] at hvalue
    by_cases hmem : names ∈ created
    · exact .inr ⟨(h.creates.missing names hmem).2,hmem⟩
    · rw [if_neg hmem] at hvalue
      exact .inl hvalue.symm
  refine ⟨⟨?_,?_⟩,fun q => ?_,iff_of_true rfl ?_,fun _ q hq => ?_,?_⟩
  · intro q hq
    rcases List.mem_append.mp hq with hq | hq
    · obtain ⟨hbegins,hnone⟩ := h.creates.missing q hq
      exact ⟨hbegins.trans (List.prefix_append _ _),hnone⟩
    · rw [List.mem_singleton.mp hq]
      exact ⟨List.prefix_refl _,hmissing⟩
  · intro earlier q later hsplit
    rcases List.eq_nil_or_concat later with rfl | ⟨later',last,rfl⟩
    · obtain ⟨rfl,hq⟩ := List.append_inj' hsplit rfl
      exact ⟨names,name,(List.singleton_inj.mp hq).symm,hparent.imp_right And.right⟩
    · rw [List.concat_eq_append,← List.cons_append,← List.append_assoc] at hsplit
      exact h.creates.ordered earlier q later' (List.append_inj' hsplit rfl).1
  · by_cases hq : q = names ++ [name]
    · rw [hq,Function.update_self,if_pos (by simp)]
    · rw [Function.update_of_ne hq,h.node_eq q]
      simp only [List.mem_append,List.mem_singleton,hq,or_false]
  · rw [reachable_append hmissing]
    exact hparent.imp_right fun hnone => ⟨hnone.1,h.answer.mp rfl⟩
  · by_cases hfull : q = names ++ [name]
    · rw [hfull,Function.update_self]
      simp
    · rw [Function.update_of_ne hfull]
      exact h.complete rfl q (prefix_of_append hq hfull)
  · rintro (hfalse | hpresent)
    · simp at hfalse
    · exact absurd hmissing hpresent

/-- Below a file. -/
theorem ensured_blocked (h : Ensured node node' names created true)
    (hmissing : node (names ++ [name]) = none) (hfile : node' names ≠ some .dir) :
    created = [] ∧ Ensured node node' (names ++ [name]) [] false := by
  have hvalue := h.node_eq names
  have hmem : names ∉ created := by
    intro hmem
    rw [if_pos hmem] at hvalue
    exact hfile hvalue
  rw [if_neg hmem] at hvalue
  have hpresent : node names ≠ none := by
    rw [← hvalue]
    exact h.complete rfl names (List.prefix_refl _)
  obtain rfl := h.unchanged (.inr hpresent)
  refine ⟨rfl,⟨nofun,fun earlier q later h => absurd h (by simp)⟩,h.node_eq,iff_of_false (by simp) ?_,nofun,
    fun _ => rfl⟩
  rw [reachable_append hmissing,← hvalue]
  rintro (hdir | ⟨hnone,-⟩)
  · exact hfile hdir
  · rw [hvalue] at hnone
    exact hpresent hnone

end Step

/-- By induction on the components: the directory first, then the path in it. -/
theorem ensureDir_spec {φ : Type} {fs : FileSystem φ} {node : φ → List Name → Option Node}
    {made : φ → List (List Name)} (laws : ActsOnTree fs node made) (absolute : Bool) {names : List Name}
    (hnames : Proper names) (s : φ) (htree : IsTree (node s)) :
    ∃ created, made (espCompressorEnsureDir fs (render absolute names) s).2 = made s ++ created ∧
      Ensured (node s) (node (espCompressorEnsureDir fs (render absolute names) s).2) names created
        (espCompressorEnsureDir fs (render absolute names) s).1 := by
  induction names using List.reverseRecOn generalizing s with
  | nil =>
    rw [ensureDir_root (render_nil absolute)]
    exact ⟨[],(List.append_nil _).symm,ensured_present htree (by simp [htree.root])⟩
  | append_singleton names name ih =>
    obtain ⟨hne,hslash⟩ := hnames name (by simp)
    have hproper : Proper names := fun n hn => hnames n (List.mem_append_left _ hn)
    have hroot := extend_ne_root (render absolute names) hne hslash
    have hanswer := laws.exists_answer absolute (names ++ [name]) s hnames
    obtain ⟨hsame,hmade⟩ := laws.exists_same (render absolute (names ++ [name])) s
    rw [← render_append] at hroot
    rcases hexists : fs.exists' (render absolute (names ++ [name])) s with ⟨_ | _,s₁⟩
    · rw [hexists] at hanswer hsame hmade
      have hmissing : node s (names ++ [name]) = none := by simpa using hanswer.symm
      obtain ⟨created,hcreated,hensured⟩ := ih hproper s₁ (hsame ▸ htree)
      rw [ensureDir_missing hroot hexists,render_append,dirname_extend _ hne hslash,← render_append]
      rw [hsame] at hensured
      rw [hmade] at hcreated
      rcases hrec : espCompressorEnsureDir fs (render absolute names) s₁ with ⟨_ | _,s₂⟩
      · rw [hrec] at hensured hcreated
        rw [if_neg (by simp)]
        obtain rfl := hensured.unchanged (.inl rfl)
        exact ⟨[],hcreated,ensured_parentFailed hensured hmissing⟩
      · rw [hrec] at hensured hcreated
        rw [if_pos rfl]
        have hnew : names ++ [name] ∉ created := fun hmem => by
          have hlength := (hensured.creates.missing _ hmem).1.length_le
          rw [List.length_append,List.length_singleton] at hlength
          omega
        have hstill : node s₂ (names ++ [name]) = none := by rw [hensured.node_eq,if_neg hnew,hmissing]
        have hiff := laws.mkdir_iff absolute names name s₂ hnames
        by_cases hdir : node s₂ names = some .dir
        · have hmkdir := hiff.mpr ⟨hstill,hdir⟩
          obtain ⟨hnode,hlog⟩ := laws.mkdir_made absolute _ s₂ hnames hmkdir
          rw [hmkdir,hnode,hlog,hcreated,List.append_assoc]
          exact ⟨_,rfl,ensured_made hensured hmissing hdir⟩
        · have hmkdir := Bool.eq_false_iff.mpr (mt hiff.mp fun h => hdir h.2)
          obtain ⟨hnode,hlog⟩ := laws.mkdir_failed _ s₂ hmkdir
          obtain ⟨rfl,hblocked⟩ := ensured_blocked hensured hmissing hdir
          rw [hmkdir,hnode,hlog]
          exact ⟨[],hcreated,hblocked⟩
    · rw [hexists] at hanswer hsame hmade
      rw [ensureDir_present hroot hexists,hsame,hmade]
      have hpresent : node s (names ++ [name]) ≠ none := by
        intro hnone
        rw [hnone] at hanswer
        simp at hanswer
      exact ⟨[],(List.append_nil _).symm,ensured_present htree hpresent⟩

/-! ### A file system that is a tree -/

/-- A component that has been read. -/
def endName (name : Name) : List Name := if name = [] then [] else [name]

/-- A slash ends a component. -/
def readChar (p : List Name × Name) (c : Char) : List Name × Name :=
  if c = '/' then (p.1 ++ endName p.2,[]) else (p.1,p.2 ++ [c])

/-- The names that lead to a path; relative paths start at the root, too. -/
def resolve (path : Path) : List Name :=
  (path.foldl readChar ([],[])).1 ++ endName (path.foldl readChar ([],[])).2

theorem foldl_readChar (names : List Name) (front : Name) {name : Name} (h : '/' ∉ name) :
    name.foldl readChar (names,front) = (names,front ++ name) := by
  induction name generalizing front with
  | nil => rw [List.foldl_nil,List.append_nil]
  | cons c cs ih =>
    obtain ⟨hc,hcs⟩ := not_or.mp (mt List.mem_cons.mpr h)
    rw [List.foldl_cons,readChar,if_neg (Ne.symm hc),ih _ hcs,List.append_assoc,List.singleton_append]

theorem resolve_extend (path : Path) {name : Name} (hne : name ≠ []) (hslash : '/' ∉ name) :
    resolve (extend path name) = resolve path ++ [name] := by
  have hend : endName name = [name] := if_neg hne
  unfold extend
  split_ifs with hroot
  · rcases hroot with rfl | rfl
    · rw [List.nil_append,resolve,foldl_readChar _ _ hslash]
      exact hend
    · rw [List.singleton_append,resolve,List.foldl_cons]
      change (name.foldl readChar ([],[])).1 ++ endName (name.foldl readChar ([],[])).2 = _
      rw [foldl_readChar _ _ hslash]
      exact hend
  · rw [resolve,List.foldl_append,List.foldl_cons,readChar,if_pos rfl,foldl_readChar _ _ hslash,
      List.nil_append,hend]
    rfl

theorem resolve_render (absolute : Bool) {names : List Name} (h : Proper names) :
    resolve (render absolute names) = names := by
  induction names using List.reverseRecOn with
  | nil =>
    cases absolute with
    | false => rfl
    | true => rfl
  | append_singleton names name ih =>
    obtain ⟨hne,hslash⟩ := h name (by simp)
    rw [render_append,resolve_extend _ hne hslash,ih fun n hn => h n (List.mem_append_left _ hn)]

/-- The nodes, and the directories made so far. -/
structure TreeState where
  node : List Name → Option Node
  made : List (List Name)

namespace TreeState

def put (names : List Name) (value : Option Node) (s : TreeState) : TreeState :=
  { s with node := Function.update s.node names value }

def mkdir (names : List Name) (s : TreeState) : Bool × TreeState :=
  if s.node names = none ∧ s.node names.dropLast = some .dir then
    (true,⟨Function.update s.node names (some .dir),s.made ++ [names]⟩)
  else (false,s)

def openWrite (names : List Name) (s : TreeState) : Bool × TreeState :=
  if s.node names.dropLast = some .dir ∧ s.node names ≠ some .dir then
    (true,s.put names (some (.file [])))
  else (false,s)

def write (names : List Name) (bytes : List UInt8) (s : TreeState) : ℕ × TreeState :=
  match s.node names with
  | some (.file content) => (bytes.length,s.put names (some (.file (content ++ bytes))))
  | _ => (0,s)

def remove (names : List Name) (s : TreeState) : Bool × TreeState :=
  match s.node names with
  | some (.file _) => (true,s.put names none)
  | _ => (false,s)

def rename (namesFrom namesTo : List Name) (s : TreeState) : Bool × TreeState :=
  match s.node namesFrom with
  | some (.file content) =>
    if s.node namesTo.dropLast = some .dir ∧ s.node namesTo ≠ some .dir then
      (true,(s.put namesFrom none).put namesTo (some (.file content)))
    else (false,s)
  | _ => (false,s)

end TreeState

def treeFileSystem : FileSystem TreeState where
  exists' path s := ((s.node (resolve path)).isSome,s)
  mkdir path s := s.mkdir (resolve path)
  openWrite path s := s.openWrite (resolve path)
  write path bytes s := s.write (resolve path) bytes
  closeFile _ s := s
  remove path s := s.remove (resolve path)
  rename pathFrom pathTo s := s.rename (resolve pathFrom) (resolve pathTo)

theorem treeFileSystem_acts : ActsOnTree treeFileSystem TreeState.node TreeState.made where
  exists_answer absolute names s h := by
    change (s.node (resolve (render absolute names))).isSome = _
    rw [resolve_render absolute h]
  exists_same _ _ := ⟨rfl,rfl⟩
  mkdir_iff absolute names name s h := by
    change (s.mkdir (resolve (render absolute (names ++ [name])))).1 = true ↔ _
    rw [resolve_render absolute h,TreeState.mkdir,List.dropLast_concat]
    split_ifs with hcan
    · exact iff_of_true rfl hcan
    · exact iff_of_false (by simp) hcan
  mkdir_made absolute names s h := by
    change (s.mkdir (resolve (render absolute names))).1 = true →
      (s.mkdir (resolve (render absolute names))).2.node = _ ∧
        (s.mkdir (resolve (render absolute names))).2.made = _
    rw [resolve_render absolute h,TreeState.mkdir]
    split_ifs
    · exact fun _ => ⟨rfl,rfl⟩
    · exact fun hfalse => absurd hfalse (by simp)
  mkdir_failed path s := by
    change (s.mkdir (resolve path)).1 = false → (s.mkdir (resolve path)).2.node = _ ∧
      (s.mkdir (resolve path)).2.made = _
    rw [TreeState.mkdir]
    split_ifs
    · exact fun htrue => absurd htrue (by simp)
    · exact fun _ => ⟨rfl,rfl⟩

/-- The recursion ends on every path; on a tree it answers whether the path is there or a directory is
nearest above it, and makes the missing prefixes in order or leaves the tree as it was. -/
theorem ensureDir_complete_minimal :
    (∀ (φ : Type) (fs : FileSystem φ) (path : Path) (s : φ) (r : Bool × φ),
      EnsureDir fs path s r ↔ espCompressorEnsureDir fs path s = r) ∧
    ∀ (φ : Type) (fs : FileSystem φ) (node : φ → List Name → Option Node) (made : φ → List (List Name)),
      ActsOnTree fs node made → ∀ (absolute : Bool) (names : List Name) (s : φ), Proper names →
      IsTree (node s) → ∀ ok s', espCompressorEnsureDir fs (render absolute names) s = (ok,s') →
      (ok = true ↔ Reachable (node s) names) ∧
      (ok = true → ∀ q, q <+: names → node s' q ≠ none) ∧
      (∃ created, made s' = made s ++ created ∧ Creates (node s) names created ∧
        ∀ q, node s' q = if q ∈ created then some .dir else node s q) ∧
      (ok = false → node s' = node s ∧ made s' = made s) := by
  refine ⟨fun φ fs => ensureDir_iff fs,fun φ fs node made laws absolute names s hnames htree ok s' hrun => ?_⟩
  obtain ⟨created,hmade,hensured⟩ := ensureDir_spec laws absolute hnames s htree
  rw [hrun] at hmade hensured
  refine ⟨hensured.answer,hensured.complete,⟨created,hmade,hensured.creates,hensured.node_eq⟩,fun hfailed => ?_⟩
  obtain rfl := hensured.unchanged (.inl hfailed)
  refine ⟨funext fun q => ?_,hmade.trans (List.append_nil _)⟩
  rw [hensured.node_eq q,if_neg List.not_mem_nil]

/-- An empty disk. -/
def emptyTree : TreeState := ⟨fun names => if names = [] then some .dir else none,[]⟩

theorem ensureDir_complete_minimal_tree :
    let r := espCompressorEnsureDir treeFileSystem (render true ["a".toList,"b".toList]) emptyTree
    r.1 = true ∧ r.2.made = ["a".toList :: [],["a".toList,"b".toList]] ∧
      ∀ q, q <+: ["a".toList,"b".toList] → r.2.node q ≠ none := by
  intro r
  have hproper : Proper ["a".toList,"b".toList] := by simp [Proper]
  have htree : IsTree emptyTree.node := by
    refine ⟨rfl,fun names name hpresent => ?_⟩
    simp [emptyTree] at hpresent
  obtain ⟨-,hcomplete,-,-⟩ := ensureDir_complete_minimal.2 _ treeFileSystem _ _ treeFileSystem_acts
    true _ emptyTree hproper htree r.1 r.2 rfl
  have hok : r.1 = true := by decide
  exact ⟨hok,by decide,hcomplete hok⟩

end DirectoryTree
end EspCompressor
