import SpufsTestsuite.DiscoveryProofs
import SpufsTestsuite.FileTreeProofs

/-! # The path of a test — from the directory it is run in

    `find_tests` names a test by a path that the runner looks up from its own
    directory.  The child has gone to the working directory, which lies in the
    runner's, and puts `../` in front of the path and of its directory part.

    Behind `../` a path is looked up from the runner's directory, whatever it
    begins with.  For a relative path that is what the runner does, too; an
    absolute one loses its root (`executed_iff`). -/

namespace SpufsExecPath

open CString FileTree SpufsTest SpufsDiscovery Worklist

/-! ## What the runner finds -/

/-- A file: a regular one, with its `S_IXUSR`, or another one. -/
abbrev File := Option Bool

/-- What `stat` says of it. -/
def modeOf : Kind File → Mode
  | .dir => .dir
  | .file (some xusr) => .reg xusr
  | .file none => .other

/-- The answers of the two system calls to a process in the directory `cwd`. -/
def view (T : FileTree File) (cwd : Place) : FileSystem where
  opendir p := (T.lookup cwd p).bind fun q =>
    if (T.kind q).any Kind.isDir then some (str "." :: str ".." :: T.names q) else none
  stat p := (T.lookup cwd p).bind fun q => (T.kind q).map modeOf

/-- A path that `find_tests` has made of an entry of a directory it has read,
    and that `stat` has found. -/
def Found (fs : FileSystem) (path : Bytes) : Prop :=
  ∃ dir file names, path = entryPath dir file ∧ fs.opendir dir = some names
    ∧ file ∈ names ∧ hidden file = false ∧ (fs.stat path).isSome = true

section Discovery

variable {fs : FileSystem} {type : TestType} {dir : Bytes}

theorem readEntry_found {names : List Bytes} (hopen : fs.opendir dir = some names)
    {s : State Bytes Test} {file : Bytes} (hfile : file ∈ names)
    (hs : ∀ t ∈ s.found, Found fs t.path) :
    ∀ t ∈ (readEntry fs type dir s file).found, Found fs t.path := by
  rw [readEntry]
  by_cases hh : hidden file = true
  · rw [if_pos hh]
    exact hs
  · rw [if_neg hh]
    dsimp only
    cases hstat : fs.stat (entryPath dir file) with
    | none => exact hs
    | some mode =>
        dsimp only
        split
        · exact hs
        · split
          · intro t ht
            rcases List.mem_append.mp ht with ht | ht
            · exact hs t ht
            · rw [List.mem_singleton.mp ht]
              refine ⟨dir, file, names, rfl, hopen, hfile, by simpa using hh, ?_⟩
              show (fs.stat (entryPath dir file)).isSome = true
              rw [hstat]
              rfl
          · exact hs

/-- **Every test is found**: its path is that of an entry. -/
theorem findTests_found {testpath : Bytes} {fuel : Nat} {tests : List (Option Test)}
    {t : Test} (h : findTests fs testpath type fuel = some (some tests))
    (ht : some t ∈ tests) : Found fs t.path := by
  obtain ⟨o, hrun, ho⟩ := Option.map_eq_some_iff.mp h
  cases o with
  | failed => exact nomatch ho
  | done s =>
      have hkeep : ∀ {dir : Bytes} {s s' : State Bytes Test},
          readDir fs type dir s = some s' → (∀ t ∈ s.found, Found fs t.path) →
          ∀ t ∈ s'.found, Found fs t.path := by
        intro dir s s' hread hs
        obtain ⟨names, hopen, rfl⟩ := Option.map_eq_some_iff.mp hread
        -- by induction over the entries, all of them names of the directory
        have hfold : ∀ (rest : List Bytes) (s : State Bytes Test),
            (∀ f ∈ rest, f ∈ names) → (∀ t ∈ s.found, Found fs t.path) →
            ∀ t ∈ (rest.foldl (readEntry fs type dir) s).found, Found fs t.path := by
          intro rest
          induction rest with
          | nil => exact fun s _ hs => hs
          | cons f rest ih =>
              intro s hmem hs
              exact ih _ (fun g hg => hmem g (List.mem_cons_of_mem _ hg))
                (readEntry_found hopen (hmem f List.mem_cons_self) hs)
        exact hfold names s (fun f hf => hf) hs
      have hall := run_keeps (P := fun s => ∀ t ∈ s.found, Found fs t.path) hkeep hrun
        (fun t ht => nomatch ht)
      rw [← Option.some.inj ho] at ht
      rcases List.mem_append.mp ht with ht | ht
      · obtain ⟨u, hu, hut⟩ := List.mem_map.mp ht
        obtain rfl := Option.some.inj hut
        exact hall u ((List.mergeSort_perm ..).mem_iff.mp hu)
      · exact nomatch List.mem_singleton.mp ht

end Discovery

/-! ## What the child executes -/

/-- The first argument of `execl`. -/
def execPath (path : Bytes) : Bytes := str "../" ++ path

/-- The value the child gives `PATH`, where the path has a slash. -/
def childPath (path env : Bytes) : Option Bytes :=
  (splitLastSlash path).map fun s => str "../" ++ s.1 ++ str ":" ++ env

/-- The first entry of a `PATH`. -/
def firstEntry (value : Bytes) : Bytes := value.takeWhile (· != 58)

/-- The child, in the directory `wd`, executes the file that the path names in
    the runner's directory `cwd`, and the first entry of its `PATH` is the
    directory of that file. -/
structure Executed (T : FileTree File) (wd cwd : Place) (path env : Bytes) : Prop where
  exec : ∃ file, T.lookup cwd path = some file ∧ T.lookup wd (execPath path) = some file
  entry : ∃ value file dir, childPath path env = some value
    ∧ T.lookup cwd path = some (file :: dir)
    ∧ T.lookup wd (firstEntry value) = some dir

/-- The path is looked up from the runner's directory, or climbs up from there
    to the root. -/
def Rooted (T : FileTree File) (cwd : Place) (path : Bytes) : Prop :=
  ¬ Absolute path
    ∨ ∃ pre, pre <+: FileTree.components path ∧ T.resolve cwd pre = some []

/-- What stands in front of the first `:` of the directory part names the
    directory, where there is one. -/
def ColonSafe (T : FileTree File) (cwd : Place) (path : Bytes) : Prop :=
  ∀ dir file, splitLastSlash path = some (dir, file) → (58 : UInt8) ∈ dir →
    T.resolve cwd (FileTree.components (dir.takeWhile (· != 58))) = T.lookup cwd dir

section Child

variable {T : FileTree File} {cwd : Place} {w : Name} {path : Bytes}

/-- A found path as the code splits it, and what it names. -/
structure Names (T : FileTree File) (cwd : Place) (path dir file : Bytes) (place : Place) :
    Prop where
  path_eq : path = dir ++ slash :: file
  proper : Proper file
  dir_ne : dir ≠ []
  dir_at : T.lookup cwd dir = some place
  file_at : T.lookup cwd path = some (file :: place)

theorem Found.names (h : Found (view T cwd) path) :
    ∃ dir file place, Names T cwd path dir file place := by
  obtain ⟨dir, file, names, hpath, hopen, hmem, hhidden, hstat⟩ := h
  obtain ⟨place, hplace, hopen⟩ := Option.bind_eq_some_iff.mp hopen
  have hpath' : path = dir ++ slash :: file := by
    rw [hpath, entryPath, List.append_assoc]
    rfl
  have hne : dir ≠ [] := by
    intro hnil
    rw [FileTree.lookup, if_pos hnil] at hplace
    cases hplace
  -- the dots are hidden, so the name is that of an entry
  have hproper : Proper file := by
    split at hopen
    · rw [← Option.some.inj hopen] at hmem
      rcases List.mem_cons.mp hmem with rfl | hmem
      · cases hhidden
      · rcases List.mem_cons.mp hmem with rfl | hmem
        · cases hhidden
        · exact T.proper (T.mem_names.mp hmem)
    · cases hopen
  obtain ⟨mode, hmode⟩ := Option.isSome_iff_exists.mp hstat
  obtain ⟨q, hq, -⟩ := Option.bind_eq_some_iff.mp hmode
  have hentry := hq
  rw [hpath'] at hentry
  obtain ⟨d, hd, rfl⟩ := FileTree.lookup_entry hproper hne hentry
  obtain rfl := Option.some.inj (hd.symm.trans hplace)
  exact ⟨dir, file, d, hpath', hproper, hne, hplace, hq⟩

theorem takeWhile_stop {s env : Bytes} :
    (s ++ 58 :: env).takeWhile (· != 58) = s.takeWhile (· != 58) := by
  induction s with
  | nil => rfl
  | cons b s ih =>
      rw [List.cons_append, List.takeWhile_cons, List.takeWhile_cons, ih]

section Split

variable {dir file env : Bytes} {place : Place}

theorem Names.split (h : Names T cwd path dir file place) :
    splitLastSlash path = some (dir, file) := by
  rw [h.path_eq]
  exact splitLastSlash_append dir h.proper.2.2.2

/-- The first entry of `PATH` ends at a `:` of the directory part. -/
theorem Names.firstEntry (h : Names T cwd path dir file place) (env : Bytes) :
    (childPath path env).map firstEntry
      = some (FileTree.dotdot ++ slash :: dir.takeWhile (· != 58)) := by
  have hvalue : str "../" ++ dir ++ str ":" ++ env
      = FileTree.dotdot ++ slash :: (dir ++ 58 :: env) := by
    rw [List.append_assoc, List.append_assoc]
    rfl
  rw [childPath, h.split, Option.map_some, Option.map_some, hvalue,
    ← @takeWhile_stop dir env]
  rfl

variable (hdir : T.kind (w :: cwd) = some .dir)

include hdir

/-- The path the child executes leads to the test. -/
theorem Names.exec_iff (h : Names T cwd path dir file place) :
    T.lookup (w :: cwd) (execPath path) = some (file :: place) ↔ Rooted T cwd path := by
  have hexec : T.lookup (w :: cwd) (execPath path)
      = T.resolve cwd (FileTree.components path) := FileTree.lookup_dotdot hdir
  have hres := FileTree.lookup_eq h.file_at
  rw [hexec, Rooted]
  by_cases habs : Absolute path
  · rw [if_pos habs] at hres
    rw [FileTree.resolve_eq_root_iff hres]
    exact (or_iff_right (not_not_intro habs)).symm
  · rw [if_neg habs] at hres
    exact iff_of_true hres (Or.inl habs)

/-- Where it does, the first entry of `PATH` leads to the directory. -/
theorem Names.entry_iff (h : Names T cwd path dir file place) (hroot : Rooted T cwd path) :
    T.lookup (w :: cwd) (FileTree.dotdot ++ slash :: dir.takeWhile (· != 58)) = some place
      ↔ ColonSafe T cwd path := by
  rw [FileTree.lookup_dotdot hdir]
  by_cases hcolon : (58 : UInt8) ∈ dir
  · constructor
    · intro hres d f hs _
      obtain ⟨rfl, rfl⟩ := Prod.mk.inj (Option.some.inj (h.split.symm.trans hs))
      rw [hres, h.dir_at]
    · intro hsafe
      rw [hsafe dir file h.split hcolon, h.dir_at]
  · have hself : dir.takeWhile (· != 58) = dir := by
      rw [List.takeWhile_eq_self_iff]
      intro b hb
      rw [bne_iff_ne]
      exact fun heq => hcolon (heq ▸ hb)
    have hexec := (h.exec_iff hdir).mpr hroot
    rw [show T.lookup (w :: cwd) (execPath path)
      = T.resolve cwd (FileTree.components path) from FileTree.lookup_dotdot hdir,
      h.path_eq, FileTree.components_append,
      FileTree.components_name h.proper.2.2.2] at hexec
    obtain ⟨d, hd, heq⟩ := FileTree.resolve_snoc h.proper hexec
    rw [hself, hd, (List.cons.inj heq).2]
    refine iff_of_true rfl ?_
    intro d' f hs hmem
    obtain ⟨rfl, rfl⟩ := Prod.mk.inj (Option.some.inj (h.split.symm.trans hs))
    exact absurd hmem hcolon

theorem Names.executed_iff (h : Names T cwd path dir file place) (env : Bytes) :
    Executed T (w :: cwd) cwd path env ↔ Rooted T cwd path ∧ ColonSafe T cwd path := by
  obtain ⟨value, hvalue, hfirst⟩ := Option.map_eq_some_iff.mp (h.firstEntry env)
  constructor
  · rintro ⟨⟨q, hq, hexec⟩, v, f, d, hv, hd, hentry⟩
    obtain rfl := Option.some.inj (hq.symm.trans h.file_at)
    have hroot := (h.exec_iff hdir).mp hexec
    obtain rfl := Option.some.inj (hv.symm.trans hvalue)
    obtain ⟨-, rfl⟩ := List.cons.inj (Option.some.inj (hd.symm.trans h.file_at))
    rw [hfirst] at hentry
    exact ⟨hroot, (h.entry_iff hdir hroot).mp hentry⟩
  · rintro ⟨hroot, hsafe⟩
    refine ⟨⟨_, h.file_at, (h.exec_iff hdir).mpr hroot⟩, value, file, place, hvalue,
      h.file_at, ?_⟩
    rw [hfirst]
    exact (h.entry_iff hdir hroot).mpr hsafe

end Split

end Child

/-- **The runner executes the test it has found**, and puts its directory first
    in `PATH`, exactly when the path is relative or climbs up to the root on
    its way, and no `:` cuts the directory off. -/
theorem findTests_executed {T : FileTree File} {cwd : Place} {w : Name}
    {testpath : Bytes} {type : TestType} {fuel : Nat} {tests : List (Option Test)} {t : Test}
    (hcwd : T.kind cwd = some .dir) (hnew : T.kind (w :: cwd) = none) (hw : Proper w)
    (h : findTests (view T cwd) testpath type fuel = some (some tests))
    (ht : some t ∈ tests) (env : Bytes) :
    Executed (T.mkdir cwd w hcwd hw) (w :: cwd) cwd t.path env
      ↔ Rooted (T.mkdir cwd w hcwd hw) cwd t.path
        ∧ ColonSafe (T.mkdir cwd w hcwd hw) cwd t.path := by
  obtain ⟨dir, file, place, hnames⟩ := (findTests_found h ht).names
  have hext := FileTree.mkdir_extends hcwd hw hnew
  have hnames' : Names (T.mkdir cwd w hcwd hw) cwd t.path dir file place :=
    ⟨hnames.path_eq, hnames.proper, hnames.dir_ne, hext.lookup hnames.dir_at,
      hext.lookup hnames.file_at⟩
  exact hnames'.executed_iff (FileTree.mkdir_dir hcwd hw) env

/-! ## A test under an absolute path -/

/-- What is at the places of a tree with the directories `/home` and `/t`, and
    the test `/t/01-a`. -/
def sampleKind (p : Place) : Option (Kind File) :=
  if p = [] ∨ p = [str "t"] ∨ p = [str "home"] then some .dir
  else if p = [str "01-a", str "t"] then some (.file (some true))
  else none

theorem sampleKind_cons {c : Name} {p : Place} (h : (sampleKind (c :: p)).isSome = true) :
    (p = [] ∧ (c = str "t" ∨ c = str "home")) ∨ (p = [str "t"] ∧ c = str "01-a") := by
  rw [sampleKind] at h
  split at h
  · next hdir =>
      rcases hdir with hc | hc | hc
      · exact nomatch hc
      · exact Or.inl ⟨(List.cons.inj hc).2, Or.inl (List.cons.inj hc).1⟩
      · exact Or.inl ⟨(List.cons.inj hc).2, Or.inr (List.cons.inj hc).1⟩
  · split at h
    · next hfile => exact Or.inr ⟨(List.cons.inj hfile).2, (List.cons.inj hfile).1⟩
    · exact nomatch h

def sampleTree : FileTree File where
  kind := sampleKind
  names := fun p =>
    if p = [] then [str "t", str "home"] else if p = [str "t"] then [str "01-a"] else []
  root_dir := rfl
  parent_dir := by
    intro c p h
    rcases sampleKind_cons h with ⟨rfl, -⟩ | ⟨rfl, -⟩ <;> rfl
  proper := by
    intro c p h
    rcases sampleKind_cons h with ⟨-, rfl | rfl⟩ | ⟨-, rfl⟩ <;> decide
  mem_names := by
    intro c p
    constructor
    · intro h
      split at h
      · next hp =>
          rw [hp]
          simp only [List.mem_cons, List.not_mem_nil, or_false] at h
          rcases h with rfl | rfl <;> rfl
      · split at h
        · next hp =>
            rw [hp, List.mem_singleton.mp h]
            rfl
        · exact nomatch h
    · intro h
      rcases sampleKind_cons h with ⟨rfl, rfl | rfl⟩ | ⟨rfl, rfl⟩ <;> decide

/-- The tests under a path, for a runner in `/home`. -/
def sampleTests (testpath : Bytes) : Option (Option (List (Option Test))) :=
  findTests (view sampleTree [str "home"]) testpath .test 1

theorem sampleTests_single {testpath : Bytes} {t : Test}
    (h : run (readDir (view sampleTree [str "home"]) .test) 1 0 ⟨[testpath], []⟩
      = some (.done ⟨[testpath], [t]⟩)) :
    sampleTests testpath = some (some [some t, none]) := by
  have hsort : sortTests [t] = [t] := List.mergeSort_singleton _
  rw [sampleTests, findTests, h, Option.map_some]
  dsimp only
  rw [hsort]
  rfl

theorem findTests_executed_sample :
    sampleTests (str "../t") = some (some [some (testCreate (str "../t/01-a") .test), none])
      ∧ (Executed (sampleTree.mkdir [str "home"] (str "run") rfl (by decide))
            [str "run", str "home"] [str "home"] (str "../t/01-a") (str "/bin")
        ↔ Rooted (sampleTree.mkdir [str "home"] (str "run") rfl (by decide))
            [str "home"] (str "../t/01-a")
          ∧ ColonSafe (sampleTree.mkdir [str "home"] (str "run") rfl (by decide))
            [str "home"] (str "../t/01-a")) := by
  have hfind : sampleTests (str "../t")
      = some (some [some (testCreate (str "../t/01-a") .test), none]) :=
    sampleTests_single rfl
  exact ⟨hfind, findTests_executed rfl rfl (by decide) hfind List.mem_cons_self (str "/bin")⟩

/-- From `/home/run` the child executes `..//t/01-a`, which is
    `/home/t/01-a`. -/
theorem findTests_executed_absolute :
    (sampleTests (str "/t") = some (some [some (testCreate (str "/t/01-a") .test), none])
      ∧ sampleTree.lookup [str "home"] (str "/t/01-a") = some [str "01-a", str "t"]
      ∧ (sampleTree.mkdir [str "home"] (str "run") rfl (by decide)).lookup
          [str "run", str "home"] (execPath (str "/t/01-a")) = none)
    ∧ ¬ ∀ (T : FileTree File) (cwd : Place) (w : Name) (testpath : Bytes) (type : TestType)
      (fuel : Nat) (tests : List (Option Test)) (t : Test)
      (hcwd : T.kind cwd = some .dir) (_ : T.kind (w :: cwd) = none) (hw : Proper w),
      findTests (view T cwd) testpath type fuel = some (some tests) → some t ∈ tests →
      ∀ env, Executed (T.mkdir cwd w hcwd hw) (w :: cwd) cwd t.path env := by
  have hfind : sampleTests (str "/t")
      = some (some [some (testCreate (str "/t/01-a") .test), none]) :=
    sampleTests_single rfl
  have hnone : (sampleTree.mkdir [str "home"] (str "run") rfl (by decide)).lookup
      [str "run", str "home"] (execPath (str "/t/01-a")) = none := by decide
  refine ⟨⟨hfind, by decide, hnone⟩, ?_⟩
  intro h
  have hexec := (h sampleTree [str "home"] (str "run") (str "/t") .test 1 _ _ rfl rfl
    (by decide) hfind List.mem_cons_self (str "/bin")).exec
  obtain ⟨file, -, hfile⟩ := hexec
  exact nomatch hnone.symm.trans hfile

end SpufsExecPath
