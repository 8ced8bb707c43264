import SpufsTestsuite.TestRecordProofs
import SpufsTestsuite.WorklistProofs

/-! # Test discovery — `find_tests` and `is_test`

    `find_tests` walks the tree under the test path with an array of
    directories that grows while it is gone through, and sorts what it has
    found by path.

    The file system is what the two system calls answer.  `Shows` says that
    the answers are those of a finite tree, with the entries of each
    directory in any order; symbolic links are followed by `stat`, so the
    tree is the one behind them.  Then the result is fixed by the tree alone
    (`findTests_exact`). -/

namespace SpufsDiscovery

open CString SpufsTest Worklist

/-- What the code asks `st_mode` for: `S_ISDIR`, or `S_ISREG` and `S_IXUSR`. -/
inductive Mode
  | dir
  | reg (xusr : Bool)
  | other
  deriving DecidableEq

/-- The file system: the names `readdir` returns for a directory that can be
    opened, and the mode `stat` fills in. -/
structure FileSystem where
  opendir : Bytes → Option (List Bytes)
  stat : Bytes → Option Mode

/-- `strcmp`, on strings without a NUL. -/
def strcmp : Bytes → Bytes → Int
  | [], [] => 0
  | [], b :: _ => -(b.toNat + 1)
  | a :: _, [] => a.toNat + 1
  | a :: s, b :: t => if a = b then strcmp s t else (a.toNat : Int) - b.toNat

/-- `is_test`: `file[0]` and `file[1]` are read from a C string. -/
def isTest (file : Bytes) : Mode → Bool
  | .reg xusr => xusr && isdigit (file.getD 0 0) && isdigit (file.getD 1 0)
  | .dir | .other => false

/-- The path of an entry. -/
def entryPath (dir file : Bytes) : Bytes := dir ++ str "/" ++ file

/-- A name that starts with `.`. -/
def hidden (file : Bytes) : Bool := file.head? == some 46

/-- One entry of a directory. -/
def readEntry (fs : FileSystem) (type : TestType) (dir : Bytes)
    (s : State Bytes Test) (file : Bytes) : State Bytes Test :=
  if hidden file then s
  else
    let path := entryPath dir file
    match fs.stat path with
    | none => s
    | some mode =>
        if mode = .dir then { s with items := s.items ++ [path] }
        else if isTest file mode then
          { s with found := s.found ++ [testCreate path type] }
        else s

/-- One turn of the outer loop. -/
def readDir (fs : FileSystem) (type : TestType) (dir : Bytes) (s : State Bytes Test) :
    Option (State Bytes Test) :=
  (fs.opendir dir).map (fun names => names.foldl (readEntry fs type dir) s)

/-- `qsort` with `qsort_testcmp`. -/
def sortTests (tests : List Test) : List Test :=
  tests.mergeSort (fun a b => decide (strcmp a.path b.path ≤ 0))

/-- `find_tests`: the array it returns, with the null pointer behind the
    tests, or the null pointer it returns when a directory cannot be opened. -/
def findTests (fs : FileSystem) (testpath : Bytes) (type : TestType) (fuel : Nat) :
    Option (Option (List (Option Test))) :=
  (run (readDir fs type) fuel 0 ⟨[testpath], []⟩).map fun o =>
    match o with
    | .failed => none
    | .done s => some ((sortTests s.found).map some ++ [none])

/-! ## The tree -/

/-- What a name stands for, symbolic links followed. -/
inductive Node
  | dir (entries : List (Bytes × Node))
  | reg (xusr : Bool)
  | other
  | broken

abbrev Entries := List (Bytes × Node)

/-- What `stat` says. -/
def Node.mode : Node → Option Mode
  | .dir _ => some .dir
  | .reg xusr => some (.reg xusr)
  | .other => some .other
  | .broken => none

/-- The names of a directory are different, and none holds a slash. -/
inductive WellNamed : Entries → Prop
  | intro {es : Entries} (nodup : (es.map Prod.fst).Nodup)
      (noSlash : ∀ e ∈ es, (47 : UInt8) ∉ e.1)
      (below : ∀ c sub, (c, Node.dir sub) ∈ es → WellNamed sub) : WellNamed es

/-- A directory tree. -/
structure Tree where
  entries : Entries
  wellNamed : WellNamed entries

/-- The file system has this tree at the path: every directory can be opened
    and its entries come in some order, with `.` and `..` among them. -/
inductive Shows (fs : FileSystem) : Bytes → Entries → Prop
  | intro {p : Bytes} {es : Entries} {names : List Bytes}
      (opens : fs.opendir p = some names)
      (lists : names.Perm (str "." :: str ".." :: es.map Prod.fst))
      (stats : ∀ e ∈ es, fs.stat (entryPath p e.1) = e.2.mode)
      (below : ∀ c sub, (c, Node.dir sub) ∈ es → Shows fs (entryPath p c) sub) :
      Shows fs p es

/-- The tests of a tree, as the components of their paths: directories that
    are not hidden, and in them an executable file whose name starts with two
    digits. -/
inductive TestIn : Entries → List Bytes → Prop
  | here {es : Entries} {c : Bytes} (mem : (c, Node.reg true) ∈ es)
      (shown : hidden c = false)
      (digits : isdigit (c.getD 0 0) = true ∧ isdigit (c.getD 1 0) = true) : TestIn es [c]
  | inner {es sub : Entries} {c : Bytes} {cs : List Bytes} (mem : (c, Node.dir sub) ∈ es)
      (shown : hidden c = false) (rest : TestIn sub cs) : TestIn es (c :: cs)

/-- The path of the components below a directory. -/
def joinPath : Bytes → List Bytes → Bytes
  | p, [] => p
  | p, c :: cs => joinPath (entryPath p c) cs

/-! ## What a subtree contributes -/

mutual
/-- The tests at or below a path. -/
def testsAt (type : TestType) (path name : Bytes) : Node → List Test
  | .dir es => testsIn type path es
  | .reg xusr => if isTest name (.reg xusr) then [testCreate path type] else []
  | .other => []
  | .broken => []

/-- The tests of a directory's entries. -/
def testsIn (type : TestType) (dir : Bytes) : List (Bytes × Node) → List Test
  | [] => []
  | (c, n) :: es =>
      (if hidden c then [] else testsAt type (entryPath dir c) c n) ++ testsIn type dir es
end

mutual
/-- How many directories there are at or below a node. -/
def dirsAt : Node → Nat
  | .dir es => 1 + dirsIn es
  | .reg _ => 0
  | .other => 0
  | .broken => 0

def dirsIn : List (Bytes × Node) → Nat
  | [] => 0
  | (c, n) :: es => (if hidden c then 0 else dirsAt n) + dirsIn es
end

/-- An entry that is walked into, as its path and its own entries. -/
def childOf (dir : Bytes) (e : Bytes × Node) : Option (Bytes × Entries) :=
  if hidden e.1 then none
  else
    match e.2 with
    | .dir sub => some (entryPath dir e.1, sub)
    | _ => none

/-- An entry that is a test. -/
def testOf (type : TestType) (dir : Bytes) (e : Bytes × Node) : Option Test :=
  if hidden e.1 then none
  else
    match e.2 with
    | .reg xusr =>
        if isTest e.1 (.reg xusr) then some (testCreate (entryPath dir e.1) type) else none
    | _ => none

/-! ## The scan of one directory -/

section Scan

variable {fs : FileSystem} {type : TestType} {dir : Bytes}

/-- What an entry of the tree does to the two arrays. -/
theorem readEntry_entry (s : State Bytes Test) {e : Bytes × Node}
    (he : hidden e.1 = true ∨ fs.stat (entryPath dir e.1) = e.2.mode) :
    readEntry fs type dir s e.1
      = ⟨s.items ++ ((childOf dir e).map Prod.fst).toList,
          s.found ++ (testOf type dir e).toList⟩ := by
  rw [readEntry, childOf, testOf]
  cases hh : hidden e.1 with
  | true => simp
  | false =>
      have hstat := he.resolve_left (by rw [hh]; decide)
      rw [if_neg Bool.false_ne_true, if_neg Bool.false_ne_true, if_neg Bool.false_ne_true]
      dsimp only
      rw [hstat]
      cases e.2 with
      | dir sub => simp [Node.mode]
      | reg xusr =>
          cases ht : isTest e.1 (.reg xusr) <;> simp [Node.mode, ht]
      | other => simp [Node.mode, isTest]
      | broken => simp [Node.mode]

/-- **One scan** appends the directories and the tests of the directory, in the
    order in which its entries come. -/
theorem foldl_readEntry {w : Entries} (s : State Bytes Test)
    (hw : ∀ e ∈ w, hidden e.1 = true ∨ fs.stat (entryPath dir e.1) = e.2.mode) :
    (w.map Prod.fst).foldl (readEntry fs type dir) s
      = ⟨s.items ++ (w.filterMap (childOf dir)).map Prod.fst,
          s.found ++ w.filterMap (testOf type dir)⟩ := by
  induction w generalizing s with
  | nil => simp
  | cons e w ih =>
      rw [List.map_cons, List.foldl_cons, readEntry_entry s (hw e List.mem_cons_self),
        ih _ (fun e' he' => hw e' (List.mem_cons_of_mem _ he')), List.filterMap_cons,
        List.filterMap_cons]
      cases childOf dir e <;> cases testOf type dir e <;> simp

/-- `.` and `..`, as entries. -/
def dots : Entries := [(str ".", .other), (str "..", .other)]

/-- A scan looks at the entries of the directory in some order. -/
theorem Shows.scan {es : Entries} (h : Shows fs dir es) :
    ∃ w : Entries, w.Perm (dots ++ es) ∧ fs.opendir dir = some (w.map Prod.fst)
      ∧ ∀ e ∈ w, hidden e.1 = true ∨ fs.stat (entryPath dir e.1) = e.2.mode := by
  obtain ⟨opens, lists, stats, below⟩ := h
  rename_i names
  have hmap : List.Forall₂ (fun (c : Bytes) (e : Bytes × Node) => c = e.1)
      ((dots ++ es).map Prod.fst) (dots ++ es) := by
    rw [List.forall₂_map_left_iff]
    exact List.forall₂_same.mpr (fun _ _ => rfl)
  obtain ⟨w, hw, hperm⟩ := List.perm_comp_forall₂ lists hmap
  have hnames : names = w.map Prod.fst := by
    rw [← List.forall₂_eq_eq_eq, List.forall₂_map_right_iff]
    exact hw
  refine ⟨w, hperm, hnames ▸ opens, ?_⟩
  intro e he
  rcases List.mem_append.mp (hperm.mem_iff.mp he) with hd | hes
  · left
    simp only [dots, List.mem_cons, List.not_mem_nil, or_false] at hd
    rcases hd with rfl | rfl <;> rfl
  · exact Or.inr (stats e hes)

/-- The dots are skipped. -/
theorem childOf_dots : dots.filterMap (childOf dir) = [] := rfl

theorem testOf_dots : dots.filterMap (testOf type dir) = [] := rfl

/-- **A visit of the worklist**: the directories of the tree are added and its
    tests collected. -/
theorem readDir_visits (fs : FileSystem) (type : TestType) :
    Visits (fun x (i : Bytes × Entries) => x = i.1 ∧ Shows fs i.1 i.2)
      (fun i => i.2.filterMap (childOf i.1)) (fun i => i.2.filterMap (testOf type i.1))
      (readDir fs type) := by
  rintro x ⟨p, es⟩ s ⟨rfl, hshows⟩
  obtain ⟨w, hperm, hopen, hw⟩ := hshows.scan
  have hchildren : (w.filterMap (childOf x)).Perm (es.filterMap (childOf x)) := by
    have h := hperm.filterMap (childOf x)
    rw [List.filterMap_append, childOf_dots, List.nil_append] at h
    exact h
  have htests : (w.filterMap (testOf type x)).Perm (es.filterMap (testOf type x)) := by
    have h := hperm.filterMap (testOf type x)
    rw [List.filterMap_append, testOf_dots, List.nil_append] at h
    exact h
  refine ⟨(w.filterMap (childOf x)).map Prod.fst, w.filterMap (testOf type x),
    w.filterMap (childOf x), ?_, ?_, hchildren, htests⟩
  · rw [readDir, hopen, Option.map_some, foldl_readEntry s hw]
  · rw [List.forall₂_map_left_iff]
    refine List.forall₂_same.mpr ?_
    intro q hq
    refine ⟨rfl, ?_⟩
    obtain ⟨e, he, hchild⟩ := List.mem_filterMap.mp (hchildren.mem_iff.mp hq)
    obtain ⟨-, -, -, below⟩ := hshows
    rw [childOf] at hchild
    split at hchild
    · exact nomatch hchild
    · split at hchild
      · rename_i sub hsub
        rw [← Option.some.inj hchild]
        exact below e.1 sub (hsub ▸ he)
      · exact nomatch hchild

end Scan

/-! ## The tests of a tree -/

section Tests

variable {type : TestType} {t : Test}

/-- The tests of a directory are its own and those of its directories. -/
theorem testsIn_perm (type : TestType) (dir : Bytes) (es : Entries) :
    (testsIn type dir es).Perm (es.filterMap (testOf type dir)
      ++ (es.filterMap (childOf dir)).flatMap (fun q => testsIn type q.1 q.2)) := by
  induction es with
  | nil => exact List.Perm.refl _
  | cons e es ih =>
      obtain ⟨c, n⟩ := e
      rw [testsIn, List.filterMap_cons, List.filterMap_cons, childOf, testOf]
      cases hidden c with
      | true => exact ih
      | false =>
          cases n with
          | dir sub =>
              rw [if_neg Bool.false_ne_true, if_neg Bool.false_ne_true,
                if_neg Bool.false_ne_true]
              dsimp only
              rw [testsAt, List.flatMap_cons]
              -- the tests of the subdirectory change places with the own ones
              exact (ih.append_left _).trans (List.perm_append_comm_assoc _ _ _)
          | reg xusr =>
              rw [if_neg Bool.false_ne_true, if_neg Bool.false_ne_true,
                if_neg Bool.false_ne_true]
              dsimp only
              rw [testsAt]
              cases isTest c (.reg xusr) with
              | true => exact ih.cons _
              | false => exact ih
          | other => exact ih
          | broken => exact ih

theorem dirsIn_eq (dir : Bytes) (es : Entries) :
    dirsIn es = ((es.filterMap (childOf dir)).map (fun q => 1 + dirsIn q.2)).sum := by
  induction es with
  | nil => rfl
  | cons e es ih =>
      obtain ⟨c, n⟩ := e
      rw [dirsIn, List.filterMap_cons, childOf, ih]
      cases hidden c with
      | true => exact Nat.zero_add _
      | false =>
          cases n with
          | dir sub =>
              rw [if_neg Bool.false_ne_true, if_neg Bool.false_ne_true, dirsAt]
              rfl
          | reg xusr => exact Nat.zero_add _
          | other => exact Nat.zero_add _
          | broken => exact Nat.zero_add _

theorem testIn_cons {c : Bytes} {n : Node} {es : Entries} {cs : List Bytes} :
    TestIn ((c, n) :: es) cs
      ↔ (hidden c = false ∧ (isTest c (n.mode.getD .other) = true ∧ cs = [c]
          ∨ ∃ sub rest, n = .dir sub ∧ TestIn sub rest ∧ cs = c :: rest))
        ∨ TestIn es cs := by
  constructor
  · intro h
    cases h with
    | here mem shown digits =>
        rcases List.mem_cons.mp mem with heq | mem
        · obtain ⟨rfl, rfl⟩ := Prod.mk.inj heq
          refine Or.inl ⟨shown, Or.inl ⟨?_, rfl⟩⟩
          rw [Node.mode, Option.getD_some, isTest, digits.1, digits.2]
          rfl
        · exact Or.inr (.here mem shown digits)
    | inner mem shown rest =>
        rcases List.mem_cons.mp mem with heq | mem
        · obtain ⟨rfl, rfl⟩ := Prod.mk.inj heq
          exact Or.inl ⟨shown, Or.inr ⟨_, _, rfl, rest, rfl⟩⟩
        · exact Or.inr (.inner mem shown rest)
  · rintro (⟨shown, ⟨htest, rfl⟩ | ⟨sub, rest, rfl, hrest, rfl⟩⟩ | h)
    · cases n with
      | reg xusr =>
          cases xusr with
          | true =>
              rw [Node.mode, Option.getD_some, isTest, Bool.true_and,
                Bool.and_eq_true] at htest
              exact .here List.mem_cons_self shown htest
          | false => exact nomatch htest
      | dir sub => exact nomatch htest
      | other => exact nomatch htest
      | broken => exact nomatch htest
    · exact .inner List.mem_cons_self shown hrest
    · cases h with
      | here mem shown digits => exact .here (List.mem_cons_of_mem _ mem) shown digits
      | inner mem shown rest => exact .inner (List.mem_cons_of_mem _ mem) shown rest

mutual
/-- The tests at a path, by induction on the node. -/
theorem mem_testsAt (type : TestType) (path name : Bytes) :
    ∀ n : Node, t ∈ testsAt type path name n
      ↔ isTest name (n.mode.getD .other) = true ∧ t = testCreate path type
        ∨ ∃ sub cs, n = .dir sub ∧ TestIn sub cs ∧ t = testCreate (joinPath path cs) type
  | .dir es => by
      rw [testsAt, mem_testsIn type path es]
      constructor
      · rintro ⟨cs, hcs, rfl⟩
        exact Or.inr ⟨es, cs, rfl, hcs, rfl⟩
      · rintro (⟨h, -⟩ | ⟨sub, cs, hsub, hcs, rfl⟩)
        · exact nomatch h
        · obtain rfl := Node.dir.inj hsub
          exact ⟨cs, hcs, rfl⟩
  | .reg xusr => by
      rw [testsAt]
      cases h : isTest name (.reg xusr) with
      | true =>
          rw [if_pos rfl, List.mem_singleton]
          constructor
          · intro ht
            exact Or.inl ⟨h, ht⟩
          · rintro (⟨-, ht⟩ | ⟨sub, cs, hsub, -⟩)
            · exact ht
            · exact nomatch hsub
      | false =>
          rw [if_neg Bool.false_ne_true]
          constructor
          · intro ht
            exact nomatch ht
          · rintro (⟨ht, -⟩ | ⟨sub, cs, hsub, -⟩)
            · exact absurd (h.symm.trans ht) Bool.false_ne_true
            · exact nomatch hsub
  | .other => by
      constructor
      · intro ht
        exact nomatch ht
      · rintro (⟨ht, -⟩ | ⟨sub, cs, hsub, -⟩)
        · exact nomatch ht
        · exact nomatch hsub
  | .broken => by
      constructor
      · intro ht
        exact nomatch ht
      · rintro (⟨ht, -⟩ | ⟨sub, cs, hsub, -⟩)
        · exact nomatch ht
        · exact nomatch hsub

/-- **The tests of a tree** are those of its paths. -/
theorem mem_testsIn (type : TestType) (dir : Bytes) :
    ∀ es : List (Bytes × Node), t ∈ testsIn type dir es
      ↔ ∃ cs, TestIn es cs ∧ t = testCreate (joinPath dir cs) type
  | [] => by
      constructor
      · intro ht
        exact nomatch ht
      · rintro ⟨cs, hcs, -⟩
        cases hcs with
        | here mem => exact nomatch mem
        | inner mem => exact nomatch mem
  | (c, n) :: es => by
      rw [testsIn, List.mem_append, mem_testsIn type dir es]
      cases hh : hidden c with
      | true =>
          rw [if_pos rfl]
          constructor
          · rintro (h | ⟨cs, hcs, ht⟩)
            · exact nomatch h
            · exact ⟨cs, testIn_cons.mpr (Or.inr hcs), ht⟩
          · rintro ⟨cs, hcs, ht⟩
            rcases testIn_cons.mp hcs with ⟨hc, -⟩ | hcs
            · exact absurd (hc.symm.trans hh) Bool.false_ne_true
            · exact Or.inr ⟨cs, hcs, ht⟩
      | false =>
          rw [if_neg Bool.false_ne_true, mem_testsAt type (entryPath dir c) c n]
          constructor
          · rintro ((⟨htest, ht⟩ | ⟨sub, cs, hn, hcs, ht⟩) | ⟨cs, hcs, ht⟩)
            · exact ⟨[c], testIn_cons.mpr (Or.inl ⟨hh, Or.inl ⟨htest, rfl⟩⟩), ht⟩
            · exact ⟨c :: cs, testIn_cons.mpr
                (Or.inl ⟨hh, Or.inr ⟨sub, cs, hn, hcs, rfl⟩⟩), ht⟩
            · exact ⟨cs, testIn_cons.mpr (Or.inr hcs), ht⟩
          · rintro ⟨cs, hcs, ht⟩
            rcases testIn_cons.mp hcs with
              ⟨-, ⟨htest, rfl⟩ | ⟨sub, rest, hn, hrest, rfl⟩⟩ | hcs
            · exact Or.inl (Or.inl ⟨htest, ht⟩)
            · exact Or.inl (Or.inr ⟨sub, rest, hn, hrest, ht⟩)
            · exact Or.inr ⟨cs, hcs, ht⟩
end

/-! ## Different tests have different paths -/

/-- What follows a component: nothing, or a slash. -/
def Boundary (rest : Bytes) : Prop := rest = [] ∨ ∃ r, rest = 47 :: r

theorem joinPath_eq (p : Bytes) (cs : List Bytes) :
    ∃ rest, joinPath p cs = p ++ rest ∧ Boundary rest := by
  induction cs generalizing p with
  | nil => exact ⟨[], (List.append_nil p).symm, Or.inl rfl⟩
  | cons c cs ih =>
      obtain ⟨rest, hrest, -⟩ := ih (entryPath p c)
      refine ⟨str "/" ++ c ++ rest, ?_, Or.inr ⟨c ++ rest, rfl⟩⟩
      rw [joinPath, hrest, entryPath]
      simp only [List.append_assoc]

/-- A component ends where the next slash is. -/
theorem component_inj {c c' rest rest' : Bytes} (hc : (47 : UInt8) ∉ c)
    (hc' : (47 : UInt8) ∉ c') (hr : Boundary rest) (hr' : Boundary rest')
    (h : c ++ rest = c' ++ rest') : c = c' := by
  have htake : ∀ {c rest : Bytes}, (47 : UInt8) ∉ c → Boundary rest →
      (c ++ rest).takeWhile (· != 47) = c := by
    intro c rest hc hr
    have hall : ∀ x ∈ c, (x != 47) = true := by
      intro x hx
      exact bne_iff_ne.mpr (fun h => hc (h ▸ hx))
    rw [List.takeWhile_append_of_pos hall]
    rcases hr with rfl | ⟨r, rfl⟩
    · exact List.append_nil c
    · exact List.append_nil c
  rw [← htake hc hr, h, htake hc' hr']

/-- A test of a directory lies below one of its entries. -/
theorem path_testsIn {dir : Bytes} {es : Entries} (ht : t ∈ testsIn type dir es) :
    ∃ e ∈ es, ∃ rest, t.path = entryPath dir e.1 ++ rest ∧ Boundary rest := by
  obtain ⟨cs, hcs, rfl⟩ := (mem_testsIn type dir es).mp ht
  have hfirst : ∃ e ∈ es, ∃ rest, cs = e.1 :: rest := by
    cases hcs with
    | here mem => exact ⟨_, mem, [], rfl⟩
    | inner mem _ _ => exact ⟨_, mem, _, rfl⟩
  obtain ⟨e, he, rest, rfl⟩ := hfirst
  obtain ⟨tail, htail, hb⟩ := joinPath_eq (entryPath dir e.1) rest
  exact ⟨e, he, tail, htail, hb⟩

theorem path_testsAt {path name : Bytes} {n : Node} (ht : t ∈ testsAt type path name n) :
    ∃ rest, t.path = path ++ rest ∧ Boundary rest := by
  rcases (mem_testsAt type path name n).mp ht with ⟨-, rfl⟩ | ⟨sub, cs, -, -, rfl⟩
  · exact ⟨[], (List.append_nil path).symm, Or.inl rfl⟩
  · exact joinPath_eq path cs

mutual
theorem nodup_testsAt (type : TestType) (path name : Bytes) :
    ∀ n : Node, (∀ sub, n = .dir sub → WellNamed sub) →
      ((testsAt type path name n).map Test.path).Nodup
  | .dir es, h => by
      rw [testsAt]
      exact nodup_testsIn type path es (h es rfl)
  | .reg xusr, _ => by
      rw [testsAt]
      split
      · exact List.nodup_singleton _
      · exact List.nodup_nil
  | .other, _ => List.nodup_nil
  | .broken, _ => List.nodup_nil

/-- **No path comes twice**: two entries of a directory have different names,
    and the path of a test begins with the name of its entry. -/
theorem nodup_testsIn (type : TestType) (dir : Bytes) :
    ∀ es : List (Bytes × Node), WellNamed es →
      ((testsIn type dir es).map Test.path).Nodup
  | [], _ => List.nodup_nil
  | (c, n) :: es, h => by
      obtain ⟨nodup, noSlash, below⟩ := h
      obtain ⟨hfresh, hes⟩ := List.nodup_cons.mp nodup
      have htail : WellNamed es := ⟨hes,
        fun e he => noSlash e (List.mem_cons_of_mem _ he),
        fun c' sub he => below c' sub (List.mem_cons_of_mem _ he)⟩
      have hc : (47 : UInt8) ∉ c := noSlash (c, n) List.mem_cons_self
      rw [testsIn, List.map_append]
      refine List.nodup_append.mpr ⟨?_, nodup_testsIn type dir es htail, ?_⟩
      · split
        · exact List.nodup_nil
        · exact nodup_testsAt type (entryPath dir c) c n
            (fun sub hn => below c sub (hn ▸ List.mem_cons_self))
      · intro x hx y hy hxy
        split at hx
        · exact nomatch hx
        · obtain ⟨t, ht, rfl⟩ := List.mem_map.mp hx
          obtain ⟨u, hu, rfl⟩ := List.mem_map.mp hy
          obtain ⟨rest, hpath, hb⟩ := path_testsAt ht
          obtain ⟨e, he, rest', hpath', hb'⟩ := path_testsIn hu
          rw [hpath, hpath', entryPath, entryPath, List.append_assoc, List.append_assoc,
            List.append_assoc, List.append_assoc] at hxy
          have hcomp := component_inj hc (noSlash e (List.mem_cons_of_mem _ he)) hb hb'
            (List.append_cancel_left (List.append_cancel_left hxy))
          exact hfresh (List.mem_map.mpr ⟨e, he, hcomp.symm⟩)
end

end Tests

/-! ## The order -/

theorem strcmp_neg (s t : Bytes) : strcmp t s = -strcmp s t := by
  induction s generalizing t with
  | nil =>
      cases t with
      | nil => rfl
      | cons b t => exact (Int.neg_neg _).symm
  | cons a s ih =>
      cases t with
      | nil => rfl
      | cons b t =>
          rw [strcmp, strcmp]
          by_cases hab : a = b
          · rw [if_pos hab, if_pos hab.symm, ih]
          · rw [if_neg hab, if_neg (Ne.symm hab), Int.neg_sub]

theorem toNat_sub_ne {a b : UInt8} (h : a ≠ b) : (a.toNat : Int) - b.toNat ≠ 0 := by
  intro h0
  exact h (UInt8.toNat_inj.mp (by omega))

theorem strcmp_eq_zero {s t : Bytes} (h : strcmp s t = 0) : s = t := by
  induction s generalizing t with
  | nil =>
      cases t with
      | nil => rfl
      | cons b t => rw [strcmp] at h; omega
  | cons a s ih =>
      cases t with
      | nil => rw [strcmp] at h; omega
      | cons b t =>
          rw [strcmp] at h
          by_cases hab : a = b
          · rw [if_pos hab] at h
            rw [hab, ih h]
          · rw [if_neg hab] at h
            exact absurd h (toNat_sub_ne hab)

theorem strcmp_trans {s t u : Bytes} (h : strcmp s t ≤ 0) (h' : strcmp t u ≤ 0) :
    strcmp s u ≤ 0 := by
  induction s generalizing t u with
  | nil =>
      cases u with
      | nil => exact Int.le_refl _
      | cons c u => rw [strcmp]; omega
  | cons a s ih =>
      cases t with
      | nil => rw [strcmp] at h; omega
      | cons b t =>
          cases u with
          | nil => rw [strcmp] at h'; omega
          | cons c u =>
              rw [strcmp] at h h' ⊢
              by_cases hab : a = b
              · by_cases hbc : b = c
                · rw [if_pos hab] at h
                  rw [if_pos hbc] at h'
                  rw [if_pos (hab.trans hbc)]
                  exact ih h h'
                · rw [if_neg hbc] at h'
                  rw [if_neg (hab ▸ hbc), hab]
                  exact h'
              · rw [if_neg hab] at h
                have hlt := toNat_sub_ne hab
                by_cases hbc : b = c
                · rw [← hbc, if_neg hab]
                  exact h
                · rw [if_neg hbc] at h'
                  have hac : a ≠ c := by
                    rintro rfl
                    omega
                  rw [if_neg hac]
                  omega

/-- **`qsort` sorts strictly** where no path comes twice. -/
theorem sortTests_strict {tests : List Test} (h : (tests.map Test.path).Nodup) :
    (sortTests tests).Pairwise (fun a b => strcmp a.path b.path < 0) := by
  have hsorted : (sortTests tests).Pairwise
      (fun a b => decide (strcmp a.path b.path ≤ 0) = true) := by
    refine List.pairwise_mergeSort ?_ ?_ tests
    · intro a b c hab hbc
      exact decide_eq_true (strcmp_trans (of_decide_eq_true hab) (of_decide_eq_true hbc))
    · intro a b
      rw [Bool.or_eq_true, decide_eq_true_eq, decide_eq_true_eq, strcmp_neg a.path b.path]
      omega
  have hnodup : (sortTests tests).Pairwise (fun a b => a.path ≠ b.path) := by
    have hperm := (List.mergeSort_perm tests
      (fun a b => decide (strcmp a.path b.path ≤ 0))).map Test.path
    exact List.pairwise_map.mp (hperm.nodup_iff.mpr h)
  refine (hsorted.and hnodup).imp ?_
  rintro a b ⟨hle, hne⟩
  have hle' := of_decide_eq_true hle
  have hne' : strcmp a.path b.path ≠ 0 := fun h0 => hne (strcmp_eq_zero h0)
  omega

/-- Strictly sorted tests are in the one order there is. -/
theorem sortTests_perm {tests tests' : List Test} (h : tests.Perm tests')
    (hnodup : (tests'.map Test.path).Nodup) : sortTests tests = sortTests tests' := by
  have hperm : (sortTests tests).Perm (sortTests tests') :=
    (List.mergeSort_perm ..).trans (h.trans (List.mergeSort_perm ..).symm)
  have hs := sortTests_strict ((h.map Test.path).nodup_iff.mpr hnodup)
  refine hperm.eq_of_pairwise ?_ hs (sortTests_strict hnodup)
  intro a b _ _ hab hba
  have hneg := strcmp_neg a.path b.path
  omega

/-! ## `find_tests` -/

/-- **Test discovery is exact, sorted and independent of the order** in which
    `readdir` returns the entries: the tree fixes one list of tests, and
    `find_tests` ends and returns it on every file system with this tree. -/
theorem findTests_exact (root : Bytes) (T : Tree) (type : TestType) :
    ∃ tests : List Test,
      (∀ fs, Shows fs root T.entries → ∃ n, ∀ fuel ≥ n,
        findTests fs root type fuel = some (some (tests.map some ++ [none])))
      ∧ tests.Pairwise (fun a b => strcmp a.path b.path < 0)
      ∧ ∀ t, t ∈ tests ↔ ∃ cs, TestIn T.entries cs ∧ t = testCreate (joinPath root cs) type := by
  have hnodup := nodup_testsIn type root T.entries T.wellNamed
  refine ⟨sortTests (testsIn type root T.entries), ?_, sortTests_strict hnodup, ?_⟩
  · intro fs hshows
    refine ⟨1 + dirsIn T.entries, fun fuel hfuel => ?_⟩
    -- the array starts with the test path, which stands for the whole tree
    obtain ⟨s', hrun, hfound⟩ := @run_collects _ _ _ _ _ _ _
      (fun q : Bytes × Entries => testsIn type q.1 q.2) (fun q => 1 + dirsIn q.2)
      (readDir_visits fs type) (fun q => testsIn_perm type q.1 q.2)
      (fun q => congrArg (1 + ·) (dirsIn_eq q.1 q.2)) fuel 0 ⟨[root], []⟩
      [(root, T.entries)] (.cons ⟨rfl, hshows⟩ .nil) hfuel
    have hperm : s'.found.Perm (testsIn type root T.entries) := by
      simpa using hfound
    rw [findTests, hrun, Option.map_some]
    dsimp only
    rw [sortTests_perm hperm hnodup]
  · intro t
    rw [← mem_testsIn]
    exact (List.mergeSort_perm ..).mem_iff

/-- A tree with a hidden directory, a broken link and a test one level down. -/
def sampleEntries : Entries :=
  [(str "a", .dir [(str "01-x", .reg true), (str "README", .reg false)]),
    (str ".git", .dir []), (str "link", .broken)]

def sampleTree : Tree where
  entries := sampleEntries
  wellNamed := by
    refine ⟨by decide, by decide, ?_⟩
    intro c sub h
    simp only [sampleEntries, List.mem_cons, Prod.mk.injEq, Node.dir.injEq,
      List.not_mem_nil, or_false, reduceCtorEq, and_false] at h
    rcases h with ⟨-, rfl⟩ | ⟨-, rfl⟩
    · exact ⟨by decide, by decide, fun c sub h => by simp at h⟩
    · exact ⟨List.nodup_nil, fun e he => (nomatch he), fun c sub he => (nomatch he)⟩

/-- The same tree as system calls, with the entries in other orders. -/
def sampleFs : FileSystem where
  opendir p :=
    if p = str "t" then some [str "link", str ".", str ".git", str "a", str ".."]
    else if p = str "t/a" then some [str "README", str "..", str "01-x", str "."]
    else if p = str "t/.git" then some [str ".", str ".."]
    else none
  stat p :=
    if p = str "t/a" ∨ p = str "t/.git" then some .dir
    else if p = str "t/a/01-x" then some (.reg true)
    else if p = str "t/a/README" then some (.reg false)
    else none

theorem sampleFs_shows : Shows sampleFs (str "t") sampleTree.entries := by
  refine .intro rfl (by decide) ?_ ?_
  · intro e he
    simp only [sampleTree, sampleEntries, List.mem_cons, List.not_mem_nil, or_false] at he
    rcases he with rfl | rfl | rfl <;> rfl
  · intro c sub h
    simp only [sampleTree, sampleEntries, List.mem_cons, Prod.mk.injEq, Node.dir.injEq,
      List.not_mem_nil, or_false, reduceCtorEq, and_false] at h
    rcases h with ⟨rfl, rfl⟩ | ⟨rfl, rfl⟩
    · refine .intro rfl (by decide) ?_ (fun c sub h => by simp at h)
      intro e he
      simp only [List.mem_cons, List.not_mem_nil, or_false] at he
      rcases he with rfl | rfl <;> rfl
    · exact .intro rfl (by decide) (fun e he => (nomatch he)) (fun c sub he => (nomatch he))

theorem findTests_exact_sample :
    ∃ (tests : List Test) (n : Nat), (∀ fuel ≥ n,
        findTests sampleFs (str "t") .test fuel = some (some (tests.map some ++ [none])))
      ∧ testCreate (str "t/a/01-x") .test ∈ tests := by
  obtain ⟨tests, hrun, -, hmem⟩ := findTests_exact (str "t") sampleTree .test
  obtain ⟨n, hn⟩ := hrun sampleFs sampleFs_shows
  refine ⟨tests, n, hn, (hmem _).mpr ⟨[str "a", str "01-x"], ?_, rfl⟩⟩
  exact .inner List.mem_cons_self rfl (.here List.mem_cons_self rfl ⟨rfl, rfl⟩)

end SpufsDiscovery
