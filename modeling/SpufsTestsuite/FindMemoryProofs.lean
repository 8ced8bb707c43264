import Mathlib
import SpufsTestsuite.DiscoveryProofs
import SpufsTestsuite.TallocOwnProofs

/-! # The memory of `find_tests`

    What the functions of `bin/run-tests.c` and `bin/test.c` do to the memory, and
    nothing else: every call of talloc with its context, and which chunks are used
    in between (`touch`).  What they do on account of files is an input.

    `find_tests` keeps two arrays.  The paths of directories belong to `dirs`;
    the records of tests belong to `tests`, and each path to its record.  So one
    root is left when it returns, and all that was found goes with it.  When a
    directory cannot be opened it returns at once, and both arrays stay. -/

namespace SpufsMemory

open CString SpufsDiscovery Talloc
open Fuel (Returns)

/-- The memory, and how often it was asked for some. -/
structure Mem where
  heap : Heap
  asked : Nat

/-- The sizes of a pointer, of `struct test` and of `struct required_cap`. -/
structure Sizes where
  ptr : Nat
  test : Nat
  cap : Nat
  ptr_pos : 0 < ptr
  cap_pos : 0 < cap
  test_lt : test < maxTallocSize

/-- A chunk is read or written: it must be there. -/
def touch (p : Option Ptr) (s : Mem) : Option Unit := do
  let p ← p
  let _ ← s.heap p
  some ()

def touchAll (l : List Ptr) (s : Mem) : Option Unit := l.forM (fun p => touch (some p) s)

section Program

variable (m : Allocator) (z : Sizes) (fs : FileSystem) (n : Nat)

/-- `talloc()` and the functions that make a new chunk; what is returned is used
    at once. -/
def newChunk (context : Option Ptr) (size : Nat) (name : String) (s : Mem) :
    Option (Ptr × Mem) := do
  let (p, h) ← tallocNamedConst (some (m.malloc s.asked s.heap)) context size (some name) s.heap
  let p ← p
  some (p, ⟨h, s.asked + 1⟩)

/-- `talloc_realloc()` -/
def resize (context ptr : Option Ptr) (elSize count : Nat) (name : String) (s : Mem) :
    Option (Option Ptr × Mem) := do
  let new :=
    match ptr with
    | none => m.malloc s.asked s.heap
    | some p => m.realloc s.asked p s.heap
  let (p, h) ← tallocReallocArray n (some new) context ptr elSize count (some name) s.heap
  some (p, ⟨h, s.asked + 1⟩)

def freeChunk (p : Ptr) (s : Mem) : Option Mem := do
  let (_, h) ← tallocFree n (some p) s.heap
  some { s with heap := h }

def stealChunk (newCtx p : Ptr) (s : Mem) : Option Mem := do
  let h ← tallocSteal (some newCtx) p s.heap
  some { s with heap := h }

/-! ## `find_tests` -/

/-- The arrays `dirs` and `tests`, the paths `dirs[1]` and on, and the records
    `tests[0]` and on, each with its path. -/
structure Found where
  mem : Mem
  dirs : Ptr
  paths : List Ptr
  tests : Option Ptr
  created : List (Ptr × Ptr)

/-- `test_create` -/
def testCreate (ctx path : Ptr) (s : Mem) : Option (Ptr × Mem) := do
  let (test, s) ← newChunk m (some ctx) z.test "struct test" s
  let s ← stealChunk test path s
  some (test, s)

/-- One entry of a directory: `file`, read from `dir`, which is one of `dirs`. -/
def readEntry (l : Found) (dir file : Bytes) : Option Found :=
  if hidden file then some l
  else do
    touchAll (l.dirs :: l.paths) l.mem
    let (path, s) ← newChunk m none ((entryPath dir file).length + 1) "path" l.mem
    match fs.stat (entryPath dir file) with
    | none => do
        let s ← freeChunk n path s
        some { l with mem := s }
    | some mode =>
        if mode = .dir then do
          let (dirs, s) ← resize m n none (some l.dirs) z.ptr (l.paths.length + 2) "char *" s
          let dirs ← dirs
          let s ← stealChunk dirs path s
          some { l with mem := s, dirs := dirs, paths := l.paths ++ [path] }
        else if isTest file mode then do
          let (tests, s) ← resize m n none l.tests z.ptr (l.created.length + 1) "struct test *" s
          let tests ← tests
          let (test, s) ← testCreate m z tests path s
          some { l with mem := s, tests := some tests, created := l.created ++ [(test, path)] }
        else do
          let s ← freeChunk n path s
          some { l with mem := s }

/-- All entries that are read, in their order. -/
def readEntries : List (Bytes × Bytes) → Found → Option Found
  | [], l => some l
  | (dir, file) :: reads, l => do
      let l ← readEntry m z fs n l dir file
      readEntries reads l

/-- `find_tests` up to the end of its loops, or to the `opendir` that fails. -/
def readDirs (reads : List (Bytes × Bytes)) (s : Mem) : Option Found := do
  let (dirs, s) ← resize m n none none z.ptr 1 "char *" s
  let dirs ← dirs
  readEntries m z fs n reads ⟨s, dirs, [], none, []⟩

variable (sort : List (Ptr × Ptr) → List (Ptr × Ptr))

/-- The end of `find_tests`: the records are sorted by their paths, a place is made
    for the null pointer, and `dirs` is freed. -/
def endTests (l : Found) : Option (Ptr × List (Ptr × Ptr) × Mem) := do
  touchAll (l.tests.toList ++ l.created.flatMap (fun t => [t.1, t.2])) l.mem
  let (tests, s) ← resize m n none l.tests z.ptr (l.created.length + 1) "struct test *" l.mem
  let tests ← tests
  let s ← freeChunk n l.dirs s
  some (tests, sort l.created, s)

/-- `find_tests`: the array and its records.  If not all directories open, it
    returns `NULL` and frees nothing. -/
def findTests (reads : List (Bytes × Bytes)) (opens : Bool) (s : Mem) :
    Option (Option (Ptr × List (Ptr × Ptr)) × Mem) := do
  let l ← readDirs m z fs n reads s
  if opens then do
    let (tests, created, s) ← endTests m z n sort l
    some (some (tests, created), s)
  else some (none, l.mem)

end Program

section Calls

variable {m : Allocator} {P : Pool} {a p : Ptr} {k size : Nat}

/-- What is allocated can be read and written. -/
theorem touch_node {s : Mem} (hs : s.heap = P.heap) (ha : a ∈ P.forest.nodes) :
    touch (some a) s = some () := by
  show (s.heap a).bind _ = _
  rw [hs, heap_node ha]
  rfl

theorem touchAll_nodes {l : List Ptr} {s : Mem} (hs : s.heap = P.heap)
    (h : ∀ p ∈ l, p ∈ P.forest.nodes) : touchAll l s = some () := by
  induction l with
  | nil => rfl
  | cons p l ih =>
      show (touch (some p) s).bind _ = _
      rw [touch_node hs (h p List.mem_cons_self), Option.bind_some]
      exact ih (fun q hq => h q (List.mem_cons_of_mem p hq))

variable (context : Option Ptr) (name : String)

theorem newChunk_spec (hP : P.Calm) (hctx : ∀ p, context = some p → p ∈ P.forest.nodes)
    (hsize : size < maxTallocSize) :
    ∃ a P', Grown P P' a context ∧
      newChunk m context size name ⟨P.heap, k⟩ = some (a, ⟨P'.heap, k + 1⟩) := by
  obtain ⟨P', hP', hrun⟩ := alloc_rule (some name) hP
    (m.malloc_free k P.heap P.exists_free) hctx hsize
  refine ⟨_, P', hP', ?_⟩
  show (tallocNamedConst _ context size (some name) P.heap).bind _ = _
  rw [hrun]
  rfl

/-- `_talloc_realloc_array` lets no size through that is too big. -/
theorem array_lt {elSize count : Nat} (hel : 0 < elSize) (h : count < maxTallocSize / elSize) :
    elSize * count < maxTallocSize := by
  rw [Nat.mul_comm]
  exact (Nat.mul_lt_mul_of_pos_right h hel).trans_le (Nat.div_mul_le_self _ _)

/-- A request that is too big leaves the memory as it was. -/
theorem resize_refused {ptr : Option Ptr} {elSize count : Nat} {s : Mem}
    (h : maxTallocSize / elSize ≤ count) (n : Nat) :
    resize m n context ptr elSize count name s = some (none, ⟨s.heap, s.asked + 1⟩) := by
  show (tallocReallocArray n _ context ptr elSize count (some name) s.heap).bind _ = _
  rw [tallocReallocArray, if_pos h]
  rfl

theorem resize_new {elSize count : Nat} (hP : P.Calm)
    (hctx : ∀ p, context = some p → p ∈ P.forest.nodes) (hel : 0 < elSize) (hpos : 0 < count)
    (hcount : count < maxTallocSize / elSize) :
    ∃ a P', Grown P P' a context ∧ ∀ n, resize m n context none elSize count name ⟨P.heap, k⟩ =
      some (some a, ⟨P'.heap, k + 1⟩) := by
  have hlt := array_lt hel hcount
  have hne : elSize * count ≠ 0 := (Nat.mul_pos hel hpos).ne'
  obtain ⟨P', hP', hrun⟩ := alloc_rule (some name) hP
    (m.malloc_free k P.heap P.exists_free) hctx hlt
  refine ⟨_, P', hP', fun n => ?_⟩
  show (tallocReallocArray n _ context none elSize count (some name) P.heap).bind _ = _
  unfold tallocReallocArray tallocRealloc
  rw [if_neg (by omega), if_neg hne, if_neg (by omega)]
  show (tallocNamedConst _ context _ (some name) P.heap).bind _ = _
  rw [hrun]
  rfl

theorem resize_old {elSize count : Nat} (hP : P.Calm) (ha : a ∈ P.forest.nodes) (hel : 0 < elSize)
    (hpos : 0 < count) (hcount : count < maxTallocSize / elSize) :
    ∃ b P', Moved P P' a b ∧ ∀ n, resize m n context (some a) elSize count name ⟨P.heap, k⟩ =
      some (some b, ⟨P'.heap, k + 1⟩) := by
  have hlt := array_lt hel hcount
  have hne : elSize * count ≠ 0 := (Nat.mul_pos hel hpos).ne'
  have hland : Landing P.forest a (m.realloc k a P.heap) :=
    (m.realloc_free k a P.heap).imp_right free_iff.mp
  obtain ⟨P', hP', hrun⟩ := realloc_rule context (some name) hP ha hland hne hlt
  refine ⟨_, P', hP', fun n => ?_⟩
  show (tallocReallocArray n _ context (some a) elSize count (some name) P.heap).bind _ = _
  unfold tallocReallocArray
  rw [if_neg (by omega)]
  show (tallocRealloc n (some (m.realloc k a P.heap)) context (some a) _ _ _).bind _ = _
  rw [hrun]
  rfl

theorem freeChunk_spec (hP : P.Calm) (ha : a ∈ P.forest.nodes) :
    ∃ P', Cut P P' a ∧ Returns (fun n => freeChunk n a ⟨P.heap, k⟩) ⟨P'.heap, k⟩ := by
  obtain ⟨P', hP', hret⟩ := free_rule hP ha
  exact ⟨P', hP', hret.out (fun r : Int × Heap => Mem.mk r.2 k) (fun n => rfl)⟩

theorem stealChunk_spec (hP : P.Calm) (ha : a ∈ P.forest.nodes) (hp : P.forest.Target (some p) a) :
    ∃ P', Handed P P' a (some p) ∧ stealChunk p a ⟨P.heap, k⟩ = some ⟨P'.heap, k⟩ := by
  obtain ⟨P', hP', hrun⟩ := steal_rule hP ha hp
  refine ⟨P', hP', ?_⟩
  show (tallocSteal (some p) a P.heap).bind _ = _
  rw [hrun]
  rfl

end Calls

/-! ## What `find_tests` holds -/

/-- The roots `S`, and `tests`. -/
def besides (tests : Option Ptr) (S : Finset Ptr) : Finset Ptr := tests.toFinset ∪ S

@[simp] theorem mem_besides {tests : Option Ptr} {S : Finset Ptr} {c : Ptr} :
    c ∈ besides tests S ↔ tests = some c ∨ c ∈ S := by
  simp [besides, Option.mem_def]

/-- The records are children of the array, and the paths those of the records. -/
def Records (tests : Option Ptr) (created : List (Ptr × Ptr)) (p c : Ptr) : Prop :=
  (tests = some p ∧ c ∈ created.map Prod.fst) ∨ (p, c) ∈ created

/-- All chunks that `find_tests` has a pointer to. -/
def Found.chunks (l : Found) : List Ptr :=
  l.dirs :: (l.paths ++ l.tests.toList ++ l.created.flatMap (fun t => [t.1, t.2]))

/-- Between two entries: `dirs` and `tests` are roots, the records are children of
    `tests`, and nothing else has been made. -/
structure Finding (P : Pool) (X : Finset Ptr) (l : Found) : Prop where
  heap   : l.mem.heap = P.heap
  owned  : Owned P (besides l.tests {l.dirs}) X (Records l.tests l.created)
  listed : Listed P X l.chunks
  empty  : l.tests = none ↔ l.created = []

/-- Whether an entry is a directory that is gone into. -/
def isSubdir (fs : FileSystem) (dir file : Bytes) : Bool :=
  !hidden file && fs.stat (entryPath dir file) == some .dir

/-- Whether a test is made of an entry. -/
def isFound (fs : FileSystem) (dir file : Bytes) : Bool :=
  !hidden file && isTest file ((fs.stat (entryPath dir file)).getD .other)

section Find

variable {m : Allocator} {z : Sizes} {P P₁ : Pool} {R S X : Finset Ptr}
  {K : Ptr → Ptr → Prop} {l : Found} {d path T p c : Ptr} {k count : Nat} {tests : Option Ptr}
  {created : List (Ptr × Ptr)} {chunks : List Ptr}

/-- What `find_tests` has a pointer to can be read and written. -/
theorem touch_listed {l : List Ptr} (h : Listed P X chunks) (hl : l ⊆ chunks) :
    touchAll l ⟨P.heap, k⟩ = some () :=
  touchAll_nodes rfl (fun p hp => (h.nodes p).mpr (.inr (hl hp)))

theorem Finding.apart (h : Finding P X l) : l.tests ≠ some l.dirs := by
  intro heq
  have hnd := h.listed.nodup
  rw [Found.chunks, heq] at hnd
  simp at hnd

/-- No record is a root. -/
theorem record_ne (h : Owned P R X (Records tests created)) (hempty : tests = none → created = [])
    (hd : d ∈ R) (hp : (p, c) ∈ created) : p ≠ d := by
  cases tests with
  | none =>
      rw [hempty rfl] at hp
      cases hp
  | some T => exact h.kid_ne hd (h.kids T p (.inl ⟨rfl, List.mem_map.mpr ⟨_, hp, rfl⟩⟩))

/-- The records and their paths hang from the array. -/
theorem records_below (h : Owned P (besides tests S) X (Records tests created))
    (hempty : tests = none → created = []) (hpc : Records tests created p c) :
    ∃ r ∈ besides tests S, P.forest.Below r p ∧ P.forest.Below r c := by
  have hchild := h.kids p c hpc
  rcases hpc with ⟨hp, -⟩ | hpc
  · exact ⟨p, mem_besides.mpr (.inl hp), .refl, .single hchild⟩
  · cases tests with
    | none =>
        rw [hempty rfl] at hpc
        cases hpc
    | some T =>
        have hTp := h.kids T p (.inl ⟨rfl, List.mem_map.mpr ⟨_, hpc, rfl⟩⟩)
        exact ⟨T, mem_besides.mpr (.inl rfl), .single hTp,
          (Relation.ReflTransGen.single hTp).tail hchild⟩

/-- What is made for a moment is freed, and nothing else. -/
theorem drop_spec (h : Owned P R X K) (hg : Grown P P₁ path none)
    (hK : ∀ p c, K p c → ∃ r ∈ R, P.forest.Below r c) :
    ∃ P₂, Owned P₂ R X K ∧ Cut P₁ P₂ path ∧
      Returns (fun n => freeChunk n path ⟨P₁.heap, k⟩) ⟨P₂.heap, k⟩ := by
  have hnew := (h.fresh hg).1
  have h₁ := h.grow hg
  have hmem := Finset.mem_insert_self path R
  obtain ⟨P₂, hcut, hret⟩ := freeChunk_spec (k := k) h₁.calm (h₁.node hmem)
  have h₂ := h₁.cut hmem hcut (fun p c hpc => ?_)
  · rw [Finset.erase_insert hnew] at h₂
    exact ⟨P₂, h₂, hcut, hret⟩
  · obtain ⟨r, hr, hb⟩ := hK p c hpc
    exact ⟨r, Finset.mem_insert_of_mem hr, fun heq => hnew (heq ▸ hr), hg.below hb⟩

/-- A root that is handed over is below another root. -/
theorem hand_spec {a p r : Ptr} (h : Owned P R X K) (ha : a ∈ R) (hr : r ∈ R) (hne : a ≠ r)
    (hp : P.forest.Below r p) :
    ∃ P', Owned P' (R.erase a) X (fun q c => K q c ∨ (q = p ∧ c = a)) ∧
      Handed P P' a (some p) ∧ stealChunk p a ⟨P.heap, k⟩ = some ⟨P'.heap, k⟩ := by
  have hpX : p ∉ X := fun hpX => h.aside r hr ((h.whole_below hp).mpr hpX)
  obtain ⟨P', hhand, hsteal⟩ := stealChunk_spec (k := k) h.calm (h.node ha)
    (h.target ha hr hne hp (hp.node' (h.node hr)))
  exact ⟨P', h.hand ha hpX hhand, hhand, hsteal⟩

/-- A directory: the array gets another place, and the path. -/
theorem keepDir (hcount : count < maxTallocSize / z.ptr) (hpos : 0 < count) (hd : tests ≠ some d)
    (hempty : tests = none → created = [])
    (h : Owned P (besides tests {d}) X (Records tests created)) (hlist : Listed P X (d :: chunks))
    (hg : Grown P P₁ path none) :
    ∃ b s P₂, Owned P₂ (besides tests {b}) X (Records tests created) ∧
      Listed P₂ X (b :: path :: chunks) ∧
      (∀ n, resize m n none (some d) z.ptr count "char *" ⟨P₁.heap, k⟩ = some (some b, s)) ∧
      stealChunk b path s = some ⟨P₂.heap, k + 1⟩ := by
  have hnew := (h.fresh hg).1
  have h₁ := h.grow hg
  have hdmem : d ∈ insert path (besides tests {d}) := by simp
  obtain ⟨b, P₂, hmoved, hresize⟩ := resize_old (m := m) (k := k) none "char *"
    h₁.calm (h₁.node hdmem) z.ptr_pos hpos hcount
  obtain ⟨hb, h₂⟩ := h₁.move hdmem hmoved
  have hpd : path ≠ d ∧ tests ≠ some path := by
    constructor <;> rintro rfl <;> simp at hnew
  have hbp : path ≠ b ∧ tests ≠ some b := by
    constructor <;> rintro rfl <;> simp_all
  obtain ⟨P₃, h₃, hhand, hsteal⟩ := hand_spec (k := k + 1) h₂ (a := path) (r := b)
    (by simp [hpd]) (by simp) hbp.1 .refl
  have hroots : (insert b ((insert path (besides tests {d})).erase d)).erase path
      = besides tests {b} := by
    ext c
    simp
    grind
  rw [hroots] at h₃
  have hlist₂ := (((hlist.grow hg).perm (.swap d path chunks)).move hmoved).hand hhand
  refine ⟨b, _, P₃, h₃.mono ?_, hlist₂, hresize, hsteal⟩
  intro p c hpc
  refine .inl ⟨p, hpc, (if_neg ?_).symm⟩
  rcases hpc with ⟨hp, -⟩ | hp
  · rintro rfl
    exact hd hp
  · exact record_ne h hempty (by simp) hp

/-- The array of tests gets one place more: it is made, or it moves. -/
theorem growTests (count : Nat) (hcount : count < maxTallocSize / z.ptr) (hpos : 0 < count)
    (hS : ∀ T, tests = some T → T ∉ S) (hempty : tests = none → created = [])
    (h : Owned P (besides tests S) X (Records tests created))
    (hlist : Listed P X (tests.toList ++ chunks)) :
    ∃ T s P', Owned P' (insert T S) X (Records (some T) created) ∧ T ∉ S ∧
      Listed P' X (T :: chunks) ∧ s = ⟨P'.heap, k + 1⟩ ∧
      ∀ n, resize m n none tests z.ptr count "struct test *" ⟨P.heap, k⟩ = some (some T, s) := by
  cases tests with
  | none =>
      have hroots : besides none S = S := by simp [besides]
      rw [hroots] at h
      obtain ⟨T, P', hgrown, hresize⟩ := resize_new (m := m) (k := k) none "struct test *" h.calm
        (by simp) z.ptr_pos hpos hcount
      refine ⟨T, _, P', (h.grow hgrown).mono ?_, (h.fresh hgrown).1, hlist.grow hgrown, rfl,
        hresize⟩
      rintro p c (⟨-, hc⟩ | hc) <;> rw [hempty rfl] at hc <;> cases hc
  | some T =>
      have hmem : T ∈ besides (some T) S := by simp
      obtain ⟨b, P', hmoved, hresize⟩ := resize_old (m := m) (k := k) none "struct test *" h.calm
        (h.node hmem) z.ptr_pos hpos hcount
      obtain ⟨hb, h'⟩ := h.move hmem hmoved
      have hroots : (besides (some T) S).erase T = S := by
        ext c
        simp
        grind
      rw [hroots] at hb h'
      refine ⟨b, _, P', h'.mono ?_, hb, Listed.move hlist hmoved, rfl, hresize⟩
      rintro p c (⟨hp, hc⟩ | hpc)
      · exact ⟨T, .inl ⟨rfl, hc⟩, by rw [if_pos rfl, Option.some.inj hp]⟩
      · exact ⟨p, .inr hpc, (if_neg (record_ne h hempty hmem hpc)).symm⟩

/-- A test: its record is a child of the array, and the path one of the record. -/
theorem keepTest (hT : T ∉ S) (hpath : path ∈ S)
    (h : Owned P (insert T S) X (Records (some T) created)) (hlist : Listed P X chunks) :
    ∃ t P', Owned P' (insert T (S.erase path)) X (Records (some T) (created ++ [(t, path)])) ∧
      Listed P' X (t :: chunks) ∧
      testCreate m z T path ⟨P.heap, k⟩ = some (t, ⟨P'.heap, k + 1⟩) := by
  have hmem : T ∈ insert T S := Finset.mem_insert_self ..
  obtain ⟨t, P₁, hgrown, hnew⟩ := newChunk_spec (m := m) (k := k) (some T) "struct test" h.calm
    (fun p hp => Option.some.inj hp ▸ h.node hmem) z.test_lt
  have h₁ := h.grow_below (h.aside T hmem) hgrown
  have hne : path ≠ T := fun heq => hT (heq ▸ hpath)
  obtain ⟨P₂, h₂, hhand, hsteal⟩ := hand_spec (k := k + 1) h₁ (Finset.mem_insert_of_mem hpath) hmem
    hne (.single (h₁.kids T t (.inr ⟨rfl, rfl⟩)))
  rw [Finset.erase_insert_of_ne hne.symm] at h₂
  refine ⟨t, P₂, h₂.mono ?_, (hlist.grow hgrown).hand hhand, ?_⟩
  · rintro p c (⟨hp, hc⟩ | hpc)
    · rw [List.map_append] at hc
      rcases List.mem_append.mp hc with hc | hc
      · exact .inl (.inl (.inl ⟨hp, hc⟩))
      · exact .inl (.inr ⟨(Option.some.inj hp).symm, List.mem_singleton.mp hc⟩)
    · rcases List.mem_append.mp hpc with hpc | hpc
      · exact .inl (.inl (.inr hpc))
      · obtain ⟨rfl, rfl⟩ := Prod.mk.inj (List.mem_singleton.mp hpc)
        exact .inr ⟨rfl, rfl⟩
  · show (newChunk m (some T) z.test "struct test" ⟨P.heap, k⟩).bind _ = _
    rw [hnew]
    show (stealChunk t path ⟨P₁.heap, k + 1⟩).bind _ = _
    rw [hsteal]
    rfl

/-- **One entry** leaves the arrays as they should be, with one directory or one
    test more if it is one. -/
theorem readEntry_spec (fs : FileSystem) {dir file : Bytes} (h : Finding P X l)
    (hlen : hidden file = false → (entryPath dir file).length + 1 < maxTallocSize)
    (hdirs : l.paths.length + 1 + (isSubdir fs dir file).toNat < maxTallocSize / z.ptr)
    (htests : l.created.length + (isFound fs dir file).toNat < maxTallocSize / z.ptr) :
    ∃ l' P', Finding P' X l' ∧
      l'.paths.length = l.paths.length + (isSubdir fs dir file).toNat ∧
      l'.created.length = l.created.length + (isFound fs dir file).toNat ∧
      Returns (fun n => readEntry m z fs n l dir file) l' := by
  have hd := h.apart
  obtain ⟨⟨heap, k⟩, d, paths, tests, created⟩ := l
  obtain ⟨hheap, howned, hlist, hempty⟩ := h
  obtain rfl : heap = P.heap := hheap
  cases hhid : hidden file with
  | true =>
      refine ⟨⟨⟨P.heap, k⟩, d, paths, tests, created⟩, P, ⟨rfl, howned, hlist, hempty⟩, ?_, ?_,
        (Returns.pure _).congr (fun n => ?_)⟩
      · simp [isSubdir, hhid]
      · simp [isFound, hhid]
      · rw [readEntry, if_pos hhid]
  | false =>
      have htouch : touchAll (d :: paths) ⟨P.heap, k⟩ = some () :=
        touch_listed hlist (List.cons_subset_cons d (by simp [List.append_assoc]))
      obtain ⟨path, P₁, hgrown, hnew⟩ := newChunk_spec (m := m) (k := k) none "path" howned.calm
        (by simp) (hlen hhid)
      have hkids : ∀ p c, Records tests created p c →
          ∃ r ∈ besides tests {d}, P.forest.Below r c := by
        intro p c hpc
        obtain ⟨r, hr, -, hb⟩ := records_below howned hempty.mp hpc
        exact ⟨r, hr, hb⟩
      -- the path goes at once when it cannot be asked for, or is neither
      have hdrop : (∀ n, readEntry m z fs n ⟨⟨P.heap, k⟩, d, paths, tests, created⟩ dir file =
            (freeChunk n path ⟨P₁.heap, k + 1⟩).bind
              (fun s => some ⟨s, d, paths, tests, created⟩)) →
          ∃ P', Finding P' X ⟨⟨P'.heap, k + 1⟩, d, paths, tests, created⟩ ∧
            Returns (fun n => readEntry m z fs n ⟨⟨P.heap, k⟩, d, paths, tests, created⟩ dir file)
              ⟨⟨P'.heap, k + 1⟩, d, paths, tests, created⟩ := by
        intro hrun
        obtain ⟨P₂, h₂, hcut, hret⟩ := drop_spec (k := k + 1) howned hgrown hkids
        exact ⟨P₂, ⟨rfl, h₂, hlist.drop hgrown hcut, hempty⟩,
          hret.out (fun s => Found.mk s d paths tests created) hrun⟩
      cases hstat : fs.stat (entryPath dir file) with
      | none =>
          obtain ⟨P', hP', hret⟩ :=
            hdrop (fun n => by simp [readEntry, hhid, htouch, hnew, hstat])
          exact ⟨_, P', hP', by simp [isSubdir, hstat], by simp [isFound, hstat, isTest], hret⟩
      | some mode =>
          by_cases hdir : mode = .dir
          · have hsub : isSubdir fs dir file = true := by simp [isSubdir, hhid, hstat, hdir]
            rw [hsub] at hdirs
            have hcount : paths.length + 2 < maxTallocSize / z.ptr := hdirs
            obtain ⟨b, s, P₂, h₂, hlist₂, hresize, hsteal⟩ := keepDir (m := m) (z := z)
              (k := k + 1) hcount (Nat.succ_pos _) hd hempty.mp howned hlist hgrown
            refine ⟨⟨⟨P₂.heap, k + 1 + 1⟩, b, paths ++ [path], tests, created⟩, P₂,
              ⟨rfl, h₂, hlist₂.perm ?_, hempty⟩, ?_, ?_, (Returns.pure _).congr (fun n => ?_)⟩
            · simp only [Found.chunks, List.append_assoc, List.singleton_append]
              exact (List.perm_middle.symm).cons b
            · simp [hsub]
            · simp [isFound, hstat, hdir, isTest]
            · simp [readEntry, hhid, htouch, hnew, hstat, hdir, hresize n, hsteal]
          · have hsub : isSubdir fs dir file = false := by simp [isSubdir, hstat, hdir]
            by_cases htest : isTest file mode = true
            · have hfound : isFound fs dir file = true := by simp [isFound, hhid, hstat, htest]
              rw [hfound] at htests
              have hnew' := (howned.fresh hgrown).1
              have hpath : path ≠ d ∧ tests ≠ some path := by
                constructor <;> rintro rfl <;> simp at hnew'
              have h₁ := howned.grow hgrown
              have hroots : insert path (besides tests {d}) = besides tests {path, d} := by
                ext c
                simp
                grind
              rw [hroots] at h₁
              have hS : ∀ T, tests = some T → T ∉ ({path, d} : Finset Ptr) := by
                rintro T rfl
                simp_all
              -- the array first, then the path that was made, then the others
              have hlist₁ : Listed P₁ X (tests.toList ++ (path :: d :: (paths
                  ++ created.flatMap (fun t => [t.1, t.2])))) := by
                refine (hlist.grow hgrown).perm (List.perm_iff_count.mpr (fun c => ?_))
                simp only [Found.chunks, List.count_cons, List.count_append]
                ring
              obtain ⟨T, s, P₂, h₂, hT, hlist₂, rfl, hresize⟩ := growTests (m := m) (z := z)
                (k := k + 1) (created.length + 1) htests (Nat.succ_pos _) hS hempty.mp h₁ hlist₁
              obtain ⟨t, P₃, h₃, hlist₃, hcreate⟩ := keepTest (m := m) (z := z) (k := k + 1 + 1) hT
                (Finset.mem_insert_self ..) h₂ hlist₂
              have hroots' : insert T (({path, d} : Finset Ptr).erase path)
                  = besides (some T) {d} := by
                ext c
                simp
                grind
              rw [hroots'] at h₃
              refine ⟨⟨⟨P₃.heap, k + 1 + 1 + 1⟩, d, paths, some T, created ++ [(t, path)]⟩, P₃,
                ⟨rfl, h₃, hlist₃.perm (List.perm_iff_count.mpr (fun c => ?_)), by simp⟩, ?_, ?_,
                (Returns.pure _).congr (fun n => ?_)⟩
              · simp only [Found.chunks, List.count_cons, List.count_append, List.flatMap_append,
                  List.flatMap_cons, List.flatMap_nil, Option.toList_some, List.count_nil]
                ring
              · simp [hsub]
              · simp [hfound]
              · simp [readEntry, hhid, htouch, hnew, hstat, hdir, htest, hresize n, hcreate]
            · obtain ⟨P', hP', hret⟩ := hdrop
                (fun n => by simp [readEntry, hhid, htouch, hnew, hstat, hdir, htest])
              exact ⟨_, P', hP', by simp [hsub], by simp [isFound, hstat, htest], hret⟩

/-- How many directories are gone into. -/
def dirsIn (fs : FileSystem) (reads : List (Bytes × Bytes)) : Nat :=
  reads.countP (fun r => isSubdir fs r.1 r.2)

/-- How many tests are found. -/
def foundIn (fs : FileSystem) (reads : List (Bytes × Bytes)) : Nat :=
  reads.countP (fun r => isFound fs r.1 r.2)

theorem countP_cons_toNat {α : Type} (f : α → Bool) (a : α) (l : List α) :
    (a :: l).countP f = (f a).toNat + l.countP f := by
  rw [List.countP_cons]
  cases f a with
  | false => simp
  | true => simp [Nat.add_comm]

theorem dirsIn_cons (fs : FileSystem) (dir file : Bytes) (reads : List (Bytes × Bytes)) :
    dirsIn fs ((dir, file) :: reads) = (isSubdir fs dir file).toNat + dirsIn fs reads :=
  countP_cons_toNat ..

theorem foundIn_cons (fs : FileSystem) (dir file : Bytes) (reads : List (Bytes × Bytes)) :
    foundIn fs ((dir, file) :: reads) = (isFound fs dir file).toNat + foundIn fs reads :=
  countP_cons_toNat ..

theorem readEntries_spec (fs : FileSystem) {reads : List (Bytes × Bytes)} (h : Finding P X l)
    (hlen : ∀ r ∈ reads, hidden r.2 = false → (entryPath r.1 r.2).length + 1 < maxTallocSize)
    (hdirs : l.paths.length + 1 + dirsIn fs reads < maxTallocSize / z.ptr)
    (htests : l.created.length + foundIn fs reads < maxTallocSize / z.ptr) :
    ∃ l' P', Finding P' X l' ∧ l'.paths.length = l.paths.length + dirsIn fs reads ∧
      l'.created.length = l.created.length + foundIn fs reads ∧
      Returns (fun n => readEntries m z fs n reads l) l' := by
  induction reads generalizing P l with
  | nil => exact ⟨l, P, h, rfl, rfl, Returns.pure l⟩
  | cons r reads ih =>
      obtain ⟨dir, file⟩ := r
      rw [dirsIn_cons] at hdirs ⊢
      rw [foundIn_cons] at htests ⊢
      have hone : hidden file = false → (entryPath dir file).length + 1 < maxTallocSize :=
        hlen (dir, file) List.mem_cons_self
      obtain ⟨l₁, P₁, h₁, hd₁, hc₁, hret₁⟩ := readEntry_spec (m := m) (z := z) fs h hone
        (by omega) (by omega)
      obtain ⟨l₂, P₂, h₂, hd₂, hc₂, hret₂⟩ := ih h₁ (fun r hr => hlen r (List.mem_cons_of_mem _ hr))
        (by omega) (by omega)
      refine ⟨l₂, P₂, h₂, ?_, ?_, hret₁.bind hret₂⟩
      · rw [hd₂, hd₁, Nat.add_assoc]
      · rw [hc₂, hc₁, Nat.add_assoc]

/-- **The loops of `find_tests`**: wherever they stop, its two arrays and what
    hangs from them is all that it has made. -/
theorem readDirs_spec (fs : FileSystem) {reads : List (Bytes × Bytes)}
    (h : Owned P ∅ X (fun _ _ => False))
    (hlen : ∀ r ∈ reads, hidden r.2 = false → (entryPath r.1 r.2).length + 1 < maxTallocSize)
    (hdirs : dirsIn fs reads + 1 < maxTallocSize / z.ptr)
    (htests : foundIn fs reads < maxTallocSize / z.ptr) :
    ∃ l P', Finding P' X l ∧ l.paths.length = dirsIn fs reads ∧
      l.created.length = foundIn fs reads ∧
      Returns (fun n => readDirs m z fs n reads ⟨P.heap, k⟩) l := by
  obtain ⟨d, P₁, hgrown, hresize⟩ := resize_new (m := m) (k := k) none "char *" h.calm (by simp)
    z.ptr_pos Nat.one_pos (by omega)
  have h₁ : Finding P₁ X ⟨⟨P₁.heap, k + 1⟩, d, [], none, []⟩ := by
    refine ⟨rfl, ?_, h.listed.grow hgrown, by simp⟩
    have hroots : besides none {d} = insert d (∅ : Finset Ptr) := by simp [besides]
    rw [hroots]
    exact (h.grow hgrown).mono (fun p c hpc => by simp [Records] at hpc)
  obtain ⟨l, P₂, h₂, hd₂, hc₂, hret₂⟩ := readEntries_spec (m := m) (z := z) fs h₁ hlen
    (by rw [List.length_nil]; omega) (by rw [List.length_nil]; omega)
  refine ⟨l, P₂, h₂, by simpa using hd₂, by simpa using hc₂, hret₂.congr (fun n => ?_)⟩
  show (resize m n none none z.ptr 1 "char *" ⟨P.heap, k⟩).bind _ = _
  rw [hresize n]
  rfl

/-- **The end of `find_tests`** leaves one root, the array, and no other chunk but
    those that hang from it. -/
theorem endTests_spec (sort : List (Ptr × Ptr) → List (Ptr × Ptr)) (h : Finding P X l)
    (hcount : l.created.length + 1 < maxTallocSize / z.ptr) :
    ∃ T P' k', Owned P' {T} X (Records (some T) l.created) ∧
      Returns (fun n => endTests m z n sort l) (T, sort l.created, ⟨P'.heap, k'⟩) := by
  have hd := h.apart
  obtain ⟨⟨heap, j⟩, d, paths, tests, created⟩ := l
  obtain ⟨hheap, howned, hlist, hempty⟩ := h
  obtain rfl : heap = P.heap := hheap
  have hlist' : Listed P X (tests.toList ++ (d :: (paths
      ++ created.flatMap (fun t => [t.1, t.2])))) := by
    refine hlist.perm (List.perm_iff_count.mpr (fun c => ?_))
    simp only [Found.chunks, List.count_cons, List.count_append]
    ring
  obtain ⟨T, s, P₁, h₁, hT, -, rfl, hresize⟩ := growTests (m := m) (z := z) (k := j)
    (S := {d}) (created.length + 1) hcount (Nat.succ_pos _) (by rintro T rfl; simpa using hd)
    hempty.mp howned hlist'
  have hTd : T ≠ d := by simpa using hT
  have hmem : d ∈ insert T ({d} : Finset Ptr) := by simp
  have hTmem := Finset.mem_insert_self T ({d} : Finset Ptr)
  obtain ⟨P₂, hcut, hret⟩ := freeChunk_spec (k := j + 1) h₁.calm (h₁.node hmem)
  have h₂ := h₁.cut hmem hcut (fun p c hpc => ⟨T, hTmem, hTd.symm, ?_⟩)
  · have hroots : (insert T ({d} : Finset Ptr)).erase d = {T} := by
      ext c
      simp
      grind
    rw [hroots] at h₂
    have hrest := hret.out (fun s => (T, sort created, s)) (fun n => rfl)
    refine ⟨T, P₂, j + 1, h₂, hrest.congr (fun n => ?_)⟩
    show (touchAll (tests.toList ++ created.flatMap (fun t => [t.1, t.2])) ⟨P.heap, j⟩).bind _ = _
    rw [touch_listed hlist (by simp [Found.chunks]), Option.bind_some]
    show (resize m n none tests z.ptr (created.length + 1) "struct test *" ⟨P.heap, j⟩).bind _ = _
    rw [hresize n]
    rfl
  · rcases hpc with hpc | hpc
    · obtain rfl := Option.some.inj hpc.1
      exact .single (h₁.kids _ _ (.inl hpc))
    · have hTp := h₁.kids T p (.inl ⟨rfl, List.mem_map.mpr ⟨_, hpc, rfl⟩⟩)
      exact (Relation.ReflTransGen.single hTp).tail (h₁.kids p c (.inr hpc))

end Find

end SpufsMemory
