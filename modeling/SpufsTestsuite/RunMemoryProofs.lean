import Mathlib
import SpufsTestsuite.FindMemoryProofs

/-! # The memory of a run — `main` of `bin/run-tests.c`

    The tests run one after the other, and each of them may make chunks: below
    its record, where they stay until the end, or for a moment.  Two things stay
    longer.  The buffer of `dmesg_check` is never freed, and `test_read_config`
    frees what it makes only where there is no file to read. -/

namespace SpufsMemory

open CString Talloc
open Fuel (Returns)

/-- The pointers of `struct test` to chunks. -/
inductive Field
  | path
  | capsRequired
  | outputBuf
  deriving DecidableEq

def Field.all : List Field := [.path, .capsRequired, .outputBuf]

/-- The memory, what the records point to, and the static variables of
    `dmesg_check`.  Nobody in the program knows `lost` and `left`: the buffers that
    a refused `talloc_realloc` has taken from `dmesg_check`, and the strings that
    `test_read_config` has not freed. -/
structure Session where
  mem : Mem
  ptr : Field → Ptr → Option Ptr
  nCapsRequired : Ptr → Nat
  dmesg : Option Ptr
  dmesgSize : Int
  lost : List Ptr
  left : List Ptr

/-- How `test_read_config` goes: the path has no slash, the file cannot be opened,
    or it is read. -/
inductive Conf
  | noSlash
  | closed
  | opened

/-- What a test does to the memory, with the sizes of strings and buffers and what
    `klogctl(10)` returns.  `pass` is the `test_pass` of a benchmark, and `message`
    is `test_fail` or `test_skip`. -/
inductive Event
  | readConfig (conf : Conf) (path file pattern : Nat)
  | addRequiredCap
  | readOutput (size : Nat)
  | pass (size : Nat)
  | message (size : Nat)
  | dmesg (size : Int)

/-- A call of `find_tests` and one of `run_tests`: the entries that are read and
    whether all directories open, the size of the kernel's buffer, whether
    `run_tests` comes to its loop, and what the tests do there. -/
structure Round where
  reads : List (Bytes × Bytes)
  opens : Bool
  bufsize : Int
  ready : Bool
  outcomes : List (List Event)

section Program

variable (m : Allocator) (z : Sizes) (fs : SpufsDiscovery.FileSystem) (n : Nat)

/-- `test_read_config`, up to the tokens it finds, and what it has not freed. -/
def testReadConfig (testPath : Option Ptr) (conf : Conf) (path file pattern : Nat) (s : Mem) :
    Option (List Ptr × Mem) := do
  touch testPath s
  let (dir, s) ← newChunk m none path "dir" s
  match conf with
  | .noSlash => some ([dir], s)
  | .closed => do
      let (_, s) ← newChunk m (some dir) file "testconffile" s
      let s ← freeChunk n dir s
      some ([], s)
  | .opened => do
      let (testconffile, s) ← newChunk m (some dir) file "testconffile" s
      let (filepattern, s) ← newChunk m (some dir) pattern "filepattern" s
      some ([dir, testconffile, filepattern], s)

/-- A pointer of a record gets an array of another length, which is written at
    once. -/
def resizeField (test : Ptr) (f : Field) (elSize count : Nat) (name : String) (s : Session) :
    Option Session := do
  let (p, h) ← resize m n (some test) (s.ptr f test) elSize count name s.mem
  touch p h
  some { s with
    mem := h, ptr := Function.update s.ptr f (Function.update (s.ptr f) test p) }

/-- `test_add_required_cap` -/
def testAddRequiredCap (test : Ptr) (s : Session) : Option Session := do
  let s ← resizeField m n test .capsRequired z.cap (s.nCapsRequired test + 1)
    "struct required_cap" s
  some { s with
    nCapsRequired := Function.update s.nCapsRequired test (s.nCapsRequired test + 1) }

/-- `read_test_output`, when the buffer has no room. -/
def readTestOutput (test : Ptr) (size : Nat) (s : Session) : Option Session :=
  resizeField m n test .outputBuf 1 size "char" s

/-- `test_pass` of a benchmark: the output is copied. -/
def testPass (test : Ptr) (size : Nat) (s : Session) : Option Session := do
  touch (s.ptr .outputBuf test) s.mem
  let (_, h) ← newChunk m (some test) size "result_time" s.mem
  some { s with mem := h }

/-- `test_fail` and `test_skip`: the message is printed and freed. -/
def message (size : Nat) (s : Mem) : Option Mem := do
  let (msg, s) ← newChunk m none size "msg" s
  freeChunk n msg s

/-- `dmesg_check`, up to the log; `klogctl(10)` has returned `kernelBufsize`, which
    `talloc_realloc` takes for an unsigned number. -/
def dmesgCheck (kernelBufsize : Int) (s : Session) : Option Session := do
  let s ← if kernelBufsize = s.dmesgSize then some s
    else do
      let (buf, h) ← resize m n none s.dmesg 1 (kernelBufsize % 2 ^ 32).toNat "char" s.mem
      some { s with
        mem := h, dmesg := buf, dmesgSize := kernelBufsize,
        lost := if buf = none then s.lost ++ s.dmesg.toList else s.lost }
  -- `klogctl` refuses a null pointer
  touchAll s.dmesg.toList s.mem
  some s

def step (test : Ptr) (s : Session) : Event → Option Session
  | .readConfig conf path file pattern => do
      let (left, h) ← testReadConfig m n (s.ptr .path test) conf path file pattern s.mem
      some { s with mem := h, left := s.left ++ left }
  | .addRequiredCap => testAddRequiredCap m z n test s
  | .readOutput size => readTestOutput m n test size s
  | .pass size => testPass m test size s
  | .message size => do
      let h ← message m n size s.mem
      some { s with mem := h }
  | .dmesg size => dmesgCheck m n size s

/-- The record is used, and what it points to. -/
def touchTest (test : Ptr) (s : Session) : Option Unit :=
  touchAll (test :: Field.all.filterMap (fun f => s.ptr f test)) s.mem

/-- `run_test`, which uses the record and its arrays before and behind each of these
    calls. -/
def runTest (test : Ptr) : List Event → Session → Option Session
  | [], s => do
      touchTest test s
      some s
  | e :: es, s => do
      touchTest test s
      let s ← step m z n test s e
      runTest test es s

/-- The loop of `run_tests`, which may stop before the last test. -/
def runLoop (array : Ptr) : List Ptr → List (List Event) → Session → Option Session
  | test :: tests, es :: rest, s => do
      touch (some array) s.mem
      let s ← runTest m z n test es s
      runLoop array tests rest s
  | _, _, s => some s

/-- `run_tests`, which follows the pointer to the tests if it comes to its loop. -/
def runTests (r : Round) (tests : Option (Ptr × List Ptr)) (s : Session) : Option Session := do
  let s ← dmesgCheck m n r.bufsize s
  if r.ready then do
    let (array, created) ← tests
    runLoop m z n array created r.outcomes s
  else some s

/-- `print_summary` -/
def printSummary (array : Ptr) (created : List Ptr) (s : Mem) : Option Unit :=
  touchAll (array :: created) s

/-- `talloc_free(tests)`; nothing happens for `NULL`. -/
def freeTests (tests : Option (Ptr × List Ptr)) (s : Session) : Option Session :=
  match tests with
  | none => some s
  | some (array, _) => do
      let h ← freeChunk n array s.mem
      some { s with mem := h }

/-- The pointers of records that are new. -/
def newRecords (created : List (Ptr × Ptr)) : Field → Ptr → Option Ptr
  | .path, test => created.lookup test
  | .capsRequired, _ | .outputBuf, _ => none

variable (sort : List (Ptr × Ptr) → List (Ptr × Ptr))

/-- `find_tests`, and what is known of the records then. -/
def startTests (r : Round) (s : Session) : Option (Option (Ptr × List Ptr) × Session) := do
  let (found, h) ← findTests m z fs n sort r.reads r.opens s.mem
  match found with
  | none => some (none, { s with mem := h })
  | some (array, created) =>
      some (some (array, created.map Prod.fst),
        { s with mem := h, ptr := newRecords created, nCapsRequired := fun _ => 0 })

/-- The end of `main`. -/
def runBenchmarks (b : Round) (s : Session) : Option Session := do
  let (found, s) ← startTests m z fs n sort b s
  let s ← runTests m z n b found s
  freeTests n found s

/-- `main`, behind the options: the tests, and then the benchmarks if they are asked
    for and the tests have passed. -/
def main (tests : Round) (benchmarks : Option Round) (s : Session) : Option Session := do
  let (found, s) ← startTests m z fs n sort tests s
  match found with
  | none => some s
  | some (array, created) => do
      let s ← runTests m z n tests (some (array, created)) s
      printSummary array created s.mem
      let s ← freeTests n (some (array, created)) s
      match benchmarks with
      | none => some s
      | some b => runBenchmarks m z fs n sort b s

end Program

/-- No chunk has been made, and the static variables are zero. -/
def Session.start : Session where
  mem := ⟨noChunk, 0⟩
  ptr := fun _ _ => none
  nCapsRequired := fun _ => 0
  dmesg := none
  dmesgSize := 0
  lost := []
  left := []

/-! ## What is never freed -/

/-- The chunks of a configuration: `dir`, and the two strings below. -/
def Conf.left : Conf → Nat
  | .noSlash => 1
  | .closed => 0
  | .opened => 3

def Event.left : Event → Nat
  | .readConfig conf _ _ _ => conf.left
  | .addRequiredCap | .readOutput _ | .pass _ | .message _ | .dmesg _ => 0

def Round.left (r : Round) : Nat :=
  if r.ready then (r.outcomes.map (fun es => (es.map Event.left).sum)).sum else 0

/-- The buffer of `dmesg_check`, those it has lost, and the strings of
    configurations. -/
def Session.kept (s : Session) : List Ptr := s.dmesg.toList ++ (s.lost ++ s.left)

/-! ## What is asked of a run -/

/-- How much longer a test makes `caps_required`. -/
def Event.caps : Event → Nat
  | .addRequiredCap => 1
  | .readConfig _ _ _ _ | .readOutput _ | .pass _ | .message _ | .dmesg _ => 0

/-- The sizes that talloc accepts, and a buffer of the kernel that is not empty. -/
def Event.Fits : Event → Prop
  | .readConfig _ path file pattern =>
      path < maxTallocSize ∧ file < maxTallocSize ∧ pattern < maxTallocSize
  | .addRequiredCap => True
  | .readOutput size => 0 < size ∧ size < maxTallocSize
  | .pass size => size < maxTallocSize
  | .message size => size < maxTallocSize
  | .dmesg size => size % 2 ^ 32 ≠ 0

/-- There is output when a benchmark passes; `test_pass` follows a null pointer if
    there is none. -/
def Printed : Bool → List Event → Prop
  | _, [] => True
  | printed, .pass _ :: es => printed = true ∧ Printed printed es
  | _, .readOutput _ :: es => Printed true es
  | printed, .readConfig _ _ _ _ :: es | printed, .addRequiredCap :: es
  | printed, .message _ :: es | printed, .dmesg _ :: es => Printed printed es

/-- The sizes of a round, and no more outcomes than there are tests. -/
structure Round.Fits (z : Sizes) (fs : SpufsDiscovery.FileSystem) (r : Round) : Prop where
  paths    : ∀ e ∈ r.reads, SpufsDiscovery.hidden e.2 = false →
    (SpufsDiscovery.entryPath e.1 e.2).length + 1 < maxTallocSize
  dirs     : dirsIn fs r.reads + 1 < maxTallocSize / z.ptr
  tests    : foundIn fs r.reads + 1 < maxTallocSize / z.ptr
  bufsize  : r.bufsize % 2 ^ 32 ≠ 0
  outcomes : r.outcomes.length ≤ foundIn fs r.reads
  events   : ∀ es ∈ r.outcomes, ∀ e ∈ es, e.Fits
  printed  : ∀ es ∈ r.outcomes, Printed false es
  caps     : ∀ es ∈ r.outcomes, (es.map Event.caps).sum < maxTallocSize / z.cap

/-! ## The records and their arrays -/

/-- The records are children of `tests`, and what a record points to is a child of
    the record. -/
def Kids (T : Ptr) (created : List Ptr) (s : Session) (p c : Ptr) : Prop :=
  (p = T ∧ c ∈ created) ∨ (p ∈ created ∧ ∃ f, s.ptr f p = some c)

/-- What is kept apart is what is never freed. -/
structure Kept (X : Finset Ptr) (s : Session) : Prop where
  nodup  : s.kept.Nodup
  chunks : ∀ c, c ∈ X ↔ c ∈ s.kept

/-- While the tests run. -/
structure Running (P : Pool) (X : Finset Ptr) (T : Ptr) (created : List Ptr) (s : Session) :
    Prop where
  heap   : s.mem.heap = P.heap
  owned  : Owned P {T} X (Kids T created s)
  fields : ∀ t f g c, s.ptr f t = some c → s.ptr g t = some c → f = g
  paths  : ∀ t ∈ created, (s.ptr .path t).isSome
  kept   : Kept X s

section Run

variable {m : Allocator} {z : Sizes} {fs : SpufsDiscovery.FileSystem} {P : Pool}
  {R X : Finset Ptr} {K : Ptr → Ptr → Prop} {T t test : Ptr} {old : Option Ptr}
  {created : List Ptr} {k elSize count : Nat} {s : Session}

/-- All of them hang from the array. -/
theorem Running.below {p c : Ptr} (h : Running P X T created s)
    (hpc : Kids T created s p c) : P.forest.Below T p ∧ P.forest.Below T c := by
  have hchild := h.owned.kids p c hpc
  rcases hpc with ⟨rfl, -⟩ | ⟨hp, -⟩
  · exact ⟨.refl, .single hchild⟩
  · have hTp := h.owned.kids T p (.inl ⟨rfl, hp⟩)
    exact ⟨.single hTp, (Relation.ReflTransGen.single hTp).tail hchild⟩

theorem Running.root (h : Running P X T created s) : ∀ p c, Kids T created s p c →
    ∃ r ∈ ({T} : Finset Ptr), P.forest.Below r c :=
  fun _ _ hpc => ⟨T, Finset.mem_singleton_self T, (h.below hpc).2⟩

/-- A record is in use. -/
theorem Running.record (h : Running P X T created s) (ht : t ∈ created) :
    t ∈ P.forest.nodes ∧ t ∉ X := by
  have hchild := h.owned.kids T t (.inl ⟨rfl, ht⟩)
  refine ⟨(P.forest.closed hchild).1, fun hX => ?_⟩
  exact h.owned.aside T (Finset.mem_singleton_self T) ((h.owned.whole T t hchild).mpr hX)

/-- What a record points to can be read and written. -/
theorem Running.touch_field {f : Field} (h : Running P X T created s) (ht : t ∈ created)
    (hf : (s.ptr f t).isSome) : touch (s.ptr f t) s.mem = some () := by
  obtain ⟨c, hc⟩ := Option.isSome_iff_exists.mp hf
  have hchild := h.owned.kids t c (.inr ⟨ht, f, hc⟩)
  rw [hc]
  exact touch_node h.heap (P.forest.closed hchild).1

theorem Running.touch_test (h : Running P X T created s) (ht : t ∈ created) :
    touchTest t s = some () := by
  refine touchAll_nodes h.heap (fun p hp => ?_)
  rcases List.mem_cons.mp hp with rfl | hp
  · exact (h.record ht).1
  · obtain ⟨f, -, hf⟩ := List.mem_filterMap.mp hp
    exact (P.forest.closed (h.owned.kids t p (.inr ⟨ht, f, hf⟩))).1

theorem Running.touch_array (h : Running P X T created s) : touch (some T) s.mem = some () :=
  touch_node h.heap (h.owned.node (Finset.mem_singleton_self T))

/-- A chunk that hangs from another, and grows. -/
theorem resize_kid (name : String) (h : Owned P R X K) (ht : t ∈ P.forest.nodes) (htX : t ∉ X)
    (hold : ∀ a, old = some a → K t a) (hel : 0 < elSize) (hpos : 0 < count)
    (hcount : count < maxTallocSize / elSize) :
    ∃ b P', Owned P' R X (fun p c => (p = t ∧ c = b) ∨ (old ≠ some c ∧ old ≠ some p ∧ K p c)) ∧
      (∀ c ∈ P.forest.nodes, old ≠ some c → c ≠ b) ∧
      ∀ n, resize m n (some t) old elSize count name ⟨P.heap, k⟩ =
        some (some b, ⟨P'.heap, k + 1⟩) := by
  cases old with
  | none =>
      obtain ⟨b, P', hgrown, hresize⟩ := resize_new (m := m) (k := k) (some t) name h.calm
        (fun p hp => Option.some.inj hp ▸ ht) hel hpos hcount
      refine ⟨b, P', (h.grow_below htX hgrown).mono ?_, ?_, hresize⟩
      · rintro p c (hpc | ⟨-, -, hpc⟩)
        · exact .inr hpc
        · exact .inl hpc
      · rintro c hc - rfl
        exact hgrown.fresh hc
  | some a =>
      have hta := h.kids t a (hold a rfl)
      obtain ⟨b, P', hmoved, hresize⟩ := resize_old (m := m) (k := k) (some t) name h.calm
        (P.forest.closed hta).1 hel hpos hcount
      refine ⟨b, P', (h.move_kid htX hta hmoved).mono ?_, ?_, hresize⟩
      · rintro p c (hpc | ⟨hc, hp, hpc⟩)
        · exact .inl hpc
        · exact .inr ⟨fun heq => hc (by rw [heq]), fun heq => hp (by rw [heq]), hpc⟩
      · intro c hc hca
        exact hmoved.ne hc (fun heq => hca (by rw [heq]))

theorem update_field {ptr : Field → Ptr → Option Ptr} {f g : Field} {b : Option Ptr} :
    Function.update ptr f (Function.update (ptr f) test b) g t =
      if g = f ∧ t = test then b else ptr g t := by
  by_cases hg : g = f
  · subst hg
    by_cases ht : t = test
    · subst ht
      simp
    · simp [ht]
  · simp [hg]

/-- Nobody is a child of two. -/
theorem Running.one_parent {p q c : Ptr} (h : Running P X T created s)
    (hp : Kids T created s p c) (hq : Kids T created s q c) : p = q :=
  Option.some.inj ((h.owned.kids p c hp).symm.trans (h.owned.kids q c hq))

theorem Running.kid_ne {p c : Ptr} (h : Running P X T created s)
    (hp : Kids T created s p c) : c ≠ T :=
  h.owned.kid_ne (Finset.mem_singleton_self T) (h.owned.kids p c hp)

/-- An array of a record gets another length, and the others stay. -/
theorem resizeField_spec (f : Field) (name : String) (h : Running P X T created s)
    (ht : test ∈ created) (hel : 0 < elSize) (hpos : 0 < count)
    (hcount : count < maxTallocSize / elSize) :
    ∃ s' P', Running P' X T created s' ∧ s'.nCapsRequired = s.nCapsRequired ∧
      s'.left = s.left ∧ (∀ g t, s'.ptr g t = none → s.ptr g t = none) ∧
      (s'.ptr f test).isSome ∧
      ∀ n, resizeField m n test f elSize count name s = some s' := by
  obtain ⟨⟨heap, k⟩, ptr, nCaps, dmesg, size, lost, left⟩ := s
  obtain rfl : heap = P.heap := h.heap
  have htest : test ≠ T := h.kid_ne (.inl ⟨rfl, ht⟩)
  have hfield {g : Field} {p c : Ptr} (hp : p ∈ created) (hc : ptr g p = some c) :
      Kids T created ⟨⟨P.heap, k⟩, ptr, nCaps, dmesg, size, lost, left⟩ p c := .inr ⟨hp, g, hc⟩
  obtain ⟨hnode, hX⟩ := h.record ht
  obtain ⟨b, P', howned, hb, hresize⟩ := resize_kid (m := m) (k := k)
    name h.owned hnode hX (fun a (ha : ptr f test = some a) => hfield ht ha) hel hpos hcount
  let ptr' := Function.update ptr f (Function.update (ptr f) test (some b))
  have hself : (ptr' f test).isSome := by
    show (Function.update ptr f _ f test).isSome = true
    rw [update_field, if_pos ⟨rfl, rfl⟩]
    rfl
  have hnone : ∀ g t, ptr' g t = none → ptr g t = none := by
    intro g t hg
    replace hg := update_field.symm.trans hg
    split at hg
    · cases hg
    · exact hg
  refine ⟨⟨⟨P'.heap, k + 1⟩, ptr', nCaps, dmesg, size, lost, left⟩, P',
    ⟨rfl, howned.mono ?_, ?_, ?_, ⟨h.kept.nodup, h.kept.chunks⟩⟩, rfl, rfl, hnone,
    hself, fun n => ?_⟩
  · rintro p c (⟨rfl, hc⟩ | ⟨hp, g, hgc⟩)
    · refine .inr ⟨fun heq => ?_, fun heq => ?_, .inl ⟨rfl, hc⟩⟩
      · exact htest (h.one_parent (hfield ht heq) (.inl ⟨rfl, hc⟩))
      · exact h.kid_ne (hfield ht heq) rfl
    · replace hgc := update_field.symm.trans hgc
      split at hgc
      · rename_i heq
        exact .inl ⟨heq.2, (Option.some.inj hgc).symm⟩
      · rename_i hne
        refine .inr ⟨fun heq => ?_, fun heq => ?_, hfield hp hgc⟩
        · obtain rfl := h.one_parent (hfield hp hgc) (hfield ht heq)
          exact hne ⟨h.fields p g f c hgc heq, rfl⟩
        · exact htest (h.one_parent (hfield ht heq) (.inl ⟨rfl, hp⟩))
  · -- the new address is not the one another field has
    have hother {g : Field} (hgf : g ≠ f) (hg : ptr g test = some b) : False := by
      refine hb b (P.forest.closed (h.owned.kids test b (hfield ht hg))).1 (fun hf => ?_) rfl
      exact hgf (h.fields test g f b hg hf)
    intro t g g' c hg hg'
    replace hg := update_field.symm.trans hg
    replace hg' := update_field.symm.trans hg'
    split at hg <;> split at hg'
    · rename_i h₁ h₂
      exact h₁.1.trans h₂.1.symm
    · rename_i h₁ h₂
      obtain ⟨rfl, rfl⟩ := h₁
      obtain rfl := Option.some.inj hg
      exact (hother (fun heq => h₂ ⟨heq, rfl⟩) hg').elim
    · rename_i h₁ h₂
      obtain ⟨rfl, rfl⟩ := h₂
      obtain rfl := Option.some.inj hg'
      exact (hother (fun heq => h₁ ⟨heq, rfl⟩) hg).elim
    · exact h.fields t g g' c hg hg'
  · intro t ht
    by_contra hno
    have hpath : (ptr .path t).isSome := h.paths t ht
    rw [hnone .path t (Option.not_isSome_iff_eq_none.mp hno)] at hpath
    cases hpath
  · have hchild := howned.kids test b (.inl ⟨rfl, rfl⟩)
    show (resize m n (some test) (ptr f test) elSize count name ⟨P.heap, k⟩).bind _ = _
    rw [hresize n, Option.bind_some]
    show (touch (some b) ⟨P'.heap, k + 1⟩).bind _ = _
    rw [touch_node rfl (P'.forest.closed hchild).1]
    rfl

/-- **`test_read_config`** leaves its strings, unless there is no file to read. -/
theorem testReadConfig_spec (conf : Conf) {testPath : Option Ptr} {path file pattern : Nat}
    (h : Owned P R X K) (hK : ∀ p c, K p c → ∃ r ∈ R, P.forest.Below r c)
    (htouch : touch testPath ⟨P.heap, k⟩ = some ()) (hpath : path < maxTallocSize)
    (hfile : file < maxTallocSize) (hpattern : pattern < maxTallocSize) :
    ∃ left P' X' k', Owned P' R X' K ∧ left.length = conf.left ∧ left.Nodup ∧
      (∀ c ∈ left, c ∉ X) ∧ (∀ c, c ∈ X' ↔ c ∈ X ∨ c ∈ left) ∧
      Returns (fun n => testReadConfig m n testPath conf path file pattern ⟨P.heap, k⟩)
        (left, ⟨P'.heap, k'⟩) := by
  obtain ⟨dir, P₁, hg₁, hnew₁⟩ := newChunk_spec (m := m) (k := k) none "dir" h.calm (by simp) hpath
  have hdir : ∀ p, some dir = some p → p ∈ P₁.forest.nodes := by
    rintro p ⟨rfl⟩
    exact (hg₁.nodes dir).mpr (.inl rfl)
  obtain ⟨f, P₂, hg₂, hnew₂⟩ := newChunk_spec (m := m) (k := k + 1) (some dir) "testconffile"
    hg₁.calm hdir hfile
  obtain ⟨hdirR, hdirX⟩ := h.fresh hg₁
  cases conf with
  | noSlash =>
      refine ⟨[dir], P₁, insert dir X, k + 1, h.grow_aside (by simp) hg₁, rfl,
        List.nodup_singleton dir, ?_, fun c => ?_, (Returns.pure _).congr (fun n => ?_)⟩
      · intro c hc
        rw [List.mem_singleton.mp hc]
        exact hdirX
      · rw [Finset.mem_insert, List.mem_singleton, or_comm]
      · simp [testReadConfig, htouch, hnew₁]
  | closed =>
      have h₁ := h.grow hg₁
      have hmem := Finset.mem_insert_self dir R
      have h₂ := h₁.grow_below hdirX hg₂
      obtain ⟨P₃, hcut, hret⟩ := freeChunk_spec (k := k + 1 + 1) h₂.calm (h₂.node hmem)
      have h₂' : Owned P₂ (insert dir R) X K := h₂.mono (fun p c => .inl)
      have h₃ := h₂'.cut hmem hcut (fun p c hpc => ?_)
      · rw [Finset.erase_insert hdirR] at h₃
        refine ⟨[], P₃, X, k + 1 + 1, h₃, rfl, List.nodup_nil, by simp, by simp, ?_⟩
        exact hret.out (fun s => (([] : List Ptr), s))
          (fun n => by simp [testReadConfig, htouch, hnew₁, hnew₂])
      · obtain ⟨r, hr, hb⟩ := hK p c hpc
        exact ⟨r, Finset.mem_insert_of_mem hr, fun heq => hdirR (heq ▸ hr),
          hg₂.below (hg₁.below hb)⟩
  | opened =>
      have h₁ := h.grow_aside (by simp) hg₁
      have hdirX₁ : ∀ p, some dir = some p → p ∈ insert dir X := by
        rintro p ⟨rfl⟩
        exact Finset.mem_insert_self ..
      have h₂ := h₁.grow_aside hdirX₁ hg₂
      obtain ⟨q, P₃, hg₃, hnew₃⟩ := newChunk_spec (m := m) (k := k + 1 + 1) (some dir)
        "filepattern" hg₂.calm (fun p hp => (hg₂.nodes p).mpr (.inr (hdir p hp))) hpattern
      have hf := (h₁.fresh hg₂).2
      have hq := (h₂.fresh hg₃).2
      rw [Finset.mem_insert, not_or] at hf
      rw [Finset.mem_insert, Finset.mem_insert, not_or, not_or] at hq
      refine ⟨[dir, f, q], P₃, insert q (insert f (insert dir X)), k + 1 + 1 + 1,
        h₂.grow_aside (fun p hp => Finset.mem_insert_of_mem (hdirX₁ p hp)) hg₃, rfl, ?_, ?_,
        fun c => ?_, (Returns.pure _).congr (fun n => ?_)⟩
      · simp [Ne.symm hf.1, Ne.symm hq.1, Ne.symm hq.2.1]
      · intro c hc
        simp only [List.mem_cons, List.not_mem_nil, or_false] at hc
        rcases hc with rfl | rfl | rfl
        · exact hdirX
        · exact hf.2
        · exact hq.2.2
      · simp only [Finset.mem_insert, List.mem_cons, List.not_mem_nil, or_false]
        tauto
      · simp [testReadConfig, htouch, hnew₁, hnew₂, hnew₃]

/-- The buffer is there, if there is one. -/
theorem Kept.touch (h : Kept X s) (howned : Owned P R X K) (hheap : s.mem.heap = P.heap) :
    touchAll s.dmesg.toList s.mem = some () :=
  touchAll_nodes hheap
    (fun p hp => howned.live p ((h.chunks p).mpr (List.mem_append_left _ hp)))

theorem dmesgCheck_resized {n : Nat} {size : Int} {buf : Option Ptr} {h : Mem}
    (hsame : size ≠ s.dmesgSize)
    (hrun : resize m n none s.dmesg 1 (size % 2 ^ 32).toNat "char" s.mem = some (buf, h))
    (htouch : touchAll buf.toList h = some ()) :
    dmesgCheck m n size s = some { s with
      mem := h, dmesg := buf, dmesgSize := size,
      lost := if buf = none then s.lost ++ s.dmesg.toList else s.lost } := by
  rw [dmesgCheck, if_neg hsame, hrun]
  show (touchAll buf.toList h).bind _ = _
  rw [htouch]
  rfl

/-- **`dmesg_check`** has at most one buffer, which belongs to nobody; a refused
    `talloc_realloc` leaves it behind. -/
theorem dmesgCheck_spec {size : Int} (hheap : s.mem.heap = P.heap) (h : Owned P R X K)
    (hK : ∀ p c, K p c → p ∉ X) (hkept : Kept X s) (hsize : size % 2 ^ 32 ≠ 0) :
    ∃ s' P' X', s'.mem.heap = P'.heap ∧ Owned P' R X' K ∧ Kept X' s' ∧ s'.ptr = s.ptr ∧
      s'.nCapsRequired = s.nCapsRequired ∧ s'.left = s.left ∧
      ∀ n, dmesgCheck m n size s = some s' := by
  by_cases hsame : size = s.dmesgSize
  · refine ⟨s, P, X, hheap, h, hkept, rfl, rfl, rfl, fun n => ?_⟩
    rw [dmesgCheck, if_pos hsame]
    show (touchAll s.dmesg.toList s.mem).bind _ = _
    rw [hkept.touch h hheap]
    rfl
  obtain ⟨⟨heap, k⟩, ptr, nCaps, dmesg, oldSize, lost, left⟩ := s
  obtain rfl : heap = P.heap := hheap
  have hpos : 0 < (size % 2 ^ 32).toNat := by omega
  by_cases hcount : maxTallocSize / 1 ≤ (size % 2 ^ 32).toNat
  · -- the buffer is refused, and the old one is lost
    have hperm : (dmesg.toList ++ (lost ++ left)).Perm ((lost ++ dmesg.toList) ++ left) := by
      refine List.perm_iff_count.mpr (fun c => ?_)
      simp only [List.count_append]
      ring
    refine ⟨⟨⟨P.heap, k + 1⟩, ptr, nCaps, none, size, lost ++ dmesg.toList, left⟩, P, X, rfl, h,
      ⟨hperm.nodup_iff.mp hkept.nodup, fun c => (hkept.chunks c).trans hperm.mem_iff⟩, rfl, rfl,
      rfl, fun n => dmesgCheck_resized hsame (resize_refused none "char" hcount n) rfl⟩
  rw [not_le] at hcount
  cases dmesg with
  | none =>
      obtain ⟨b, P', hg, hresize⟩ := resize_new (m := m) (k := k) none "char" h.calm
        (by simp) Nat.one_pos hpos hcount
      have hlive : ∀ p ∈ (some b).toList, p ∈ P'.forest.nodes := by
        intro p hp
        exact (hg.nodes p).mpr (.inl (List.mem_singleton.mp hp))
      refine ⟨⟨⟨P'.heap, k + 1⟩, ptr, nCaps, some b, size, lost, left⟩, P', insert b X, rfl,
        h.grow_aside (by simp) hg, ⟨List.nodup_cons.mpr ⟨fun hb => ?_, hkept.nodup⟩, fun c => ?_⟩,
        rfl, rfl, rfl, fun n => dmesgCheck_resized hsame (hresize n) (touchAll_nodes rfl hlive)⟩
      · exact (h.fresh hg).2 ((hkept.chunks b).mpr hb)
      · rw [Finset.mem_insert, hkept.chunks]
        exact List.mem_cons.symm
  | some a =>
      obtain ⟨hal, hnd⟩ := List.nodup_cons.mp hkept.nodup
      have ha : a ∈ X := (hkept.chunks a).mpr List.mem_cons_self
      obtain ⟨b, P', hm, hresize⟩ := resize_old (m := m) (k := k) none "char" h.calm
        (h.live a ha) Nat.one_pos hpos hcount
      obtain ⟨hb, howned⟩ := h.move_aside ha hK hm
      have hothers : ∀ c, c ∈ X.erase a ↔ c ∈ lost ++ left := by
        intro c
        rw [Finset.mem_erase, hkept.chunks]
        constructor
        · rintro ⟨hca, hc⟩
          exact (List.mem_cons.mp hc).resolve_left hca
        · intro hc
          exact ⟨fun heq => hal (heq ▸ hc), List.mem_cons_of_mem _ hc⟩
      have hlive : ∀ p ∈ (some b).toList, p ∈ P'.forest.nodes := by
        intro p hp
        rw [List.mem_singleton.mp hp]
        exact howned.live b (Finset.mem_insert_self b _)
      refine ⟨⟨⟨P'.heap, k + 1⟩, ptr, nCaps, some b, size, lost, left⟩, P', insert b (X.erase a),
        rfl, howned, ⟨List.nodup_cons.mpr ⟨fun hbl => hb ((hothers b).mpr hbl), hnd⟩, fun c => ?_⟩,
        rfl, rfl, rfl, fun n => dmesgCheck_resized hsame (hresize n)
          (touchAll_nodes rfl hlive)⟩
      rw [Finset.mem_insert, hothers]
      exact List.mem_cons.symm

theorem Running.dmesg {size : Int} (h : Running P X T created s) (hsize : size % 2 ^ 32 ≠ 0) :
    ∃ s' P' X', Running P' X' T created s' ∧ s'.ptr = s.ptr ∧
      s'.nCapsRequired = s.nCapsRequired ∧ s'.left = s.left ∧
      ∀ n, dmesgCheck m n size s = some s' := by
  have hTX := h.owned.aside T (Finset.mem_singleton_self T)
  have hK : ∀ p c, Kids T created s p c → p ∉ X :=
    fun p c hpc hpX => hTX ((h.owned.whole_below (h.below hpc).1).mpr hpX)
  obtain ⟨s', P', X', hheap, howned, hkept, hptr, hcaps, hleft, hrun⟩ :=
    dmesgCheck_spec (m := m) h.heap h.owned hK h.kept hsize
  refine ⟨s', P', X', ⟨hheap, howned.mono ?_, ?_, ?_, hkept⟩, hptr, hcaps, hleft, hrun⟩
  · rintro p c (hpc | ⟨hp, f, hf⟩)
    · exact .inl hpc
    · rw [hptr] at hf
      exact .inr ⟨hp, f, hf⟩
  · rw [hptr]
    exact h.fields
  · rw [hptr]
    exact h.paths

/-! ## A run -/

/-- **One step** keeps the records and their arrays. -/
theorem step_spec {e : Event} (h : Running P X T created s) (ht : test ∈ created)
    (hfits : e.Fits) (hcaps : s.nCapsRequired test + e.caps < maxTallocSize / z.cap)
    (hbuf : ∀ size, e = .pass size → (s.ptr .outputBuf test).isSome) :
    ∃ s' P' X', Running P' X' T created s' ∧ s'.left.length = s.left.length + e.left ∧
      s'.nCapsRequired
        = Function.update s.nCapsRequired test (s.nCapsRequired test + e.caps) ∧
      (∀ t, s'.ptr .outputBuf t = none → s.ptr .outputBuf t = none) ∧
      (∀ size, e = .readOutput size → (s'.ptr .outputBuf test).isSome) ∧
      Returns (fun n => step m z n test s e) s' := by
  have hsame : Function.update s.nCapsRequired test (s.nCapsRequired test + 0)
      = s.nCapsRequired := Function.update_eq_self test s.nCapsRequired
  cases e with
  | readConfig conf path file pattern =>
      have htouch := h.touch_field ht (h.paths test ht)
      obtain ⟨⟨heap, k⟩, ptr, nCaps, dmesg, size, lost, left⟩ := s
      obtain rfl : heap = P.heap := h.heap
      obtain ⟨new, P', X', k', howned, hlen, hnd, hnew, hX', hret⟩ :=
        testReadConfig_spec (m := m) (k := k) conf h.owned h.root htouch hfits.1 hfits.2.1 hfits.2.2
      refine ⟨⟨⟨P'.heap, k'⟩, ptr, nCaps, dmesg, size, lost, left ++ new⟩, P', X',
        ⟨rfl, howned, h.fields, h.paths, ?_, fun c => ?_⟩, ?_, hsame.symm, fun _ => id, by simp,
        hret.out (fun r => Session.mk r.2 ptr nCaps dmesg size lost (left ++ r.1)) (fun n => rfl)⟩
      · show (dmesg.toList ++ (lost ++ (left ++ new))).Nodup
        rw [← List.append_assoc, ← List.append_assoc, List.append_assoc dmesg.toList]
        refine List.nodup_append'.mpr ⟨h.kept.nodup, hnd, fun c hc hcn => ?_⟩
        exact hnew c hcn ((h.kept.chunks c).mpr hc)
      · rw [hX', h.kept.chunks]
        simp only [Session.kept, List.mem_append]
        tauto
      · rw [List.length_append, hlen]
        rfl
  | addRequiredCap =>
      obtain ⟨s', P', h', hcap, hleft, hnone, -, hrun⟩ := resizeField_spec (m := m) .capsRequired
        "struct required_cap" h ht z.cap_pos (Nat.succ_pos (s.nCapsRequired test)) hcaps
      refine ⟨{ s' with
        nCapsRequired := Function.update s'.nCapsRequired test (s'.nCapsRequired test + 1) },
        P', X, { h' with kept := ⟨h'.kept.nodup, h'.kept.chunks⟩ }, congrArg List.length hleft, ?_,
        hnone .outputBuf, by simp, (Returns.pure _).congr (fun n => ?_)⟩
      · show Function.update s'.nCapsRequired test _ = _
        rw [hcap]
        rfl
      · simp [step, testAddRequiredCap, hrun n]
  | readOutput size =>
      obtain ⟨s', P', h', hcap, hleft, hnone, hself, hrun⟩ := resizeField_spec (m := m) .outputBuf
        "char" h ht Nat.one_pos hfits.1 (by rw [Nat.div_one]; exact hfits.2)
      exact ⟨s', P', X, h', congrArg List.length hleft, hcap.trans hsame.symm, hnone .outputBuf,
        fun _ _ => hself, (Returns.pure s').congr hrun⟩
  | pass size =>
      have htouch := h.touch_field ht (hbuf size rfl)
      obtain ⟨⟨heap, k⟩, ptr, nCaps, dmesg, bufsize, lost, left⟩ := s
      obtain rfl : heap = P.heap := h.heap
      obtain ⟨hnode, hX⟩ := h.record ht
      obtain ⟨a, P', hg, hnew⟩ := newChunk_spec (m := m) (k := k) (some test) "result_time"
        h.owned.calm (fun p hp => Option.some.inj hp ▸ hnode) hfits
      refine ⟨⟨⟨P'.heap, k + 1⟩, ptr, nCaps, dmesg, bufsize, lost, left⟩, P', X,
        ⟨rfl, (h.owned.grow_below hX hg).mono (fun p c => .inl), h.fields, h.paths,
          h.kept.nodup, h.kept.chunks⟩, rfl, hsame.symm, fun _ => id, by simp,
        (Returns.pure _).congr (fun n => ?_)⟩
      show (touch (ptr .outputBuf test) ⟨P.heap, k⟩).bind _ = _
      rw [htouch, Option.bind_some, hnew]
      rfl
  | message size =>
      obtain ⟨⟨heap, k⟩, ptr, nCaps, dmesg, bufsize, lost, left⟩ := s
      obtain rfl : heap = P.heap := h.heap
      obtain ⟨a, P₁, hg, hnew⟩ := newChunk_spec (m := m) (k := k) none "msg" h.owned.calm
        (by simp) hfits
      obtain ⟨P', howned, -, hret⟩ := drop_spec (k := k + 1) h.owned hg h.root
      refine ⟨⟨⟨P'.heap, k + 1⟩, ptr, nCaps, dmesg, bufsize, lost, left⟩, P', X,
        ⟨rfl, howned, h.fields, h.paths, h.kept.nodup, h.kept.chunks⟩, rfl, hsame.symm,
        fun _ => id, by simp,
        hret.out (fun h => Session.mk h ptr nCaps dmesg bufsize lost left) (fun n => ?_)⟩
      simp [step, message, hnew]
  | dmesg size =>
      obtain ⟨s', P', X', h', hptr, hcap, hleft, hrun⟩ := h.dmesg (m := m) hfits
      refine ⟨s', P', X', h', congrArg List.length hleft, hcap.trans hsame.symm, ?_, by simp,
        (Returns.pure s').congr hrun⟩
      rw [hptr]
      exact fun _ => id

theorem Printed.cons {e : Event} {es : List Event} {printed : Bool}
    (h : Printed printed (e :: es)) : (∀ size, e = .pass size → printed = true) ∧
      ∃ printed', Printed printed' es ∧
        (printed' = true → printed = true ∨ ∃ size, e = .readOutput size) := by
  cases e with
  | pass size => exact ⟨fun _ _ => h.1, printed, h.2, .inl⟩
  | readOutput size => exact ⟨by simp, true, h, fun _ => .inr ⟨size, rfl⟩⟩
  | readConfig conf path file pattern => exact ⟨by simp, printed, h, .inl⟩
  | addRequiredCap => exact ⟨by simp, printed, h, .inl⟩
  | message size => exact ⟨by simp, printed, h, .inl⟩
  | dmesg size => exact ⟨by simp, printed, h, .inl⟩

theorem runTest_spec {es : List Event} {printed : Bool} (h : Running P X T created s)
    (ht : test ∈ created) (hfits : ∀ e ∈ es, e.Fits)
    (hcaps : s.nCapsRequired test + (es.map Event.caps).sum < maxTallocSize / z.cap)
    (hprinted : Printed printed es) (hbuf : printed = true → (s.ptr .outputBuf test).isSome) :
    ∃ s' P' X', Running P' X' T created s' ∧
      s'.left.length = s.left.length + (es.map Event.left).sum ∧
      (∀ t, t ≠ test → s'.nCapsRequired t = s.nCapsRequired t) ∧
      Returns (fun n => runTest m z n test es s) s' := by
  induction es generalizing P X s printed with
  | nil =>
      refine ⟨s, P, X, h, rfl, fun _ _ => rfl, (Returns.pure s).congr (fun n => ?_)⟩
      show (touchTest test s).bind _ = _
      rw [h.touch_test ht]
      rfl
  | cons e es ih =>
      rw [List.map_cons, List.sum_cons] at hcaps
      obtain ⟨hpass, printed', hprinted', hbefore⟩ := hprinted.cons
      obtain ⟨s₁, P₁, X₁, h₁, hlen₁, hcap₁, hnone₁, hbuf₁, hret₁⟩ := step_spec (m := m) (z := z)
        h ht (hfits e List.mem_cons_self) (by omega) (fun size he => hbuf (hpass size he))
      have hbuf' : printed' = true → (s₁.ptr .outputBuf test).isSome := by
        intro hp
        rcases hbefore hp with hp | ⟨size, he⟩
        · by_contra hno
          have hold := hbuf hp
          rw [hnone₁ test (Option.not_isSome_iff_eq_none.mp hno)] at hold
          cases hold
        · exact hbuf₁ size he
      obtain ⟨s₂, P₂, X₂, h₂, hlen₂, hcap₂, hret₂⟩ := ih h₁
        (fun e he => hfits e (List.mem_cons_of_mem _ he))
        (by rw [hcap₁, Function.update_self]; omega) hprinted' hbuf'
      refine ⟨s₂, P₂, X₂, h₂, ?_, fun t htest => ?_, (hret₁.bind hret₂).congr (fun n => ?_)⟩
      · rw [hlen₂, hlen₁, List.map_cons, List.sum_cons, Nat.add_assoc]
      · rw [hcap₂ t htest, hcap₁, Function.update_of_ne htest]
      · show (touchTest test s).bind _ = _
        rw [h.touch_test ht]
        rfl

/-- The tests run in their order, until the list of what happens ends. -/
theorem runLoop_spec (tests : List Ptr) {outcomes : List (List Event)}
    (h : Running P X T created s) (htests : ∀ t ∈ tests, t ∈ created) (hnd : tests.Nodup)
    (hnew : ∀ t ∈ tests, s.nCapsRequired t = 0) (hlen : outcomes.length ≤ tests.length)
    (hfits : ∀ es ∈ outcomes, ∀ e ∈ es, e.Fits) (hprinted : ∀ es ∈ outcomes, Printed false es)
    (hcaps : ∀ es ∈ outcomes, (es.map Event.caps).sum < maxTallocSize / z.cap) :
    ∃ s' P' X', Running P' X' T created s' ∧ s'.left.length
        = s.left.length + (outcomes.map (fun es => (es.map Event.left).sum)).sum ∧
      Returns (fun n => runLoop m z n T tests outcomes s) s' := by
  induction outcomes generalizing tests P X s with
  | nil => exact ⟨s, P, X, h, rfl, (Returns.pure s).congr (fun n => by simp [runLoop])⟩
  | cons es rest ih =>
      cases tests with
      | nil => simp at hlen
      | cons test tests =>
          obtain ⟨htest, hnd⟩ := List.nodup_cons.mp hnd
          have hzero := hnew test List.mem_cons_self
          obtain ⟨s₁, P₁, X₁, h₁, hlen₁, hcap₁, hret₁⟩ := runTest_spec (m := m) (z := z) h
            (htests test List.mem_cons_self) (hfits es List.mem_cons_self)
            (by rw [hzero, Nat.zero_add]; exact hcaps es List.mem_cons_self)
            (hprinted es List.mem_cons_self) (by simp)
          -- the tests that follow have not been touched
          have hnew₁ : ∀ t ∈ tests, s₁.nCapsRequired t = 0 := by
            intro t ht
            rw [hcap₁ t (fun heq => htest (heq ▸ ht)), hnew t (List.mem_cons_of_mem _ ht)]
          obtain ⟨s₂, P₂, X₂, h₂, hlen₂, hret₂⟩ := ih tests h₁
            (fun t ht => htests t (List.mem_cons_of_mem _ ht)) hnd hnew₁
            (Nat.le_of_succ_le_succ hlen) (fun es hes => hfits es (List.mem_cons_of_mem _ hes))
            (fun es hes => hprinted es (List.mem_cons_of_mem _ hes))
            (fun es hes => hcaps es (List.mem_cons_of_mem _ hes))
          refine ⟨s₂, P₂, X₂, h₂, ?_, (hret₁.bind hret₂).congr (fun n => ?_)⟩
          · rw [hlen₂, hlen₁, List.map_cons, List.sum_cons, Nat.add_assoc]
          · show (touch (some T) s.mem).bind _ = _
            rw [h.touch_array]
            rfl

/-- **`run_tests`**, on the records that `find_tests` has made. -/
theorem runTests_spec {r : Round} (h : Running P X T created s) (hnd : created.Nodup)
    (hnew : ∀ t, s.nCapsRequired t = 0) (hlen : created.length = foundIn fs r.reads)
    (hfits : r.Fits z fs) :
    ∃ s' P' X', Running P' X' T created s' ∧ s'.left.length = s.left.length + r.left ∧
      Returns (fun n => runTests m z n r (some (T, created)) s) s' := by
  obtain ⟨s₁, P₁, X₁, h₁, -, hcap₁, hleft₁, hcheck⟩ := h.dmesg (m := m) hfits.bufsize
  by_cases hready : r.ready = true
  · obtain ⟨s₂, P₂, X₂, h₂, hlen₂, hret₂⟩ := runLoop_spec (m := m) (z := z) created h₁
      (fun _ => id) hnd (fun t _ => by rw [hcap₁, hnew]) (hlen ▸ hfits.outcomes) hfits.events
      hfits.printed hfits.caps
    refine ⟨s₂, P₂, X₂, h₂, ?_, hret₂.congr (fun n => ?_)⟩
    · rw [hlen₂, hleft₁, Round.left, if_pos hready]
    · show (dmesgCheck m n r.bufsize s).bind _ = _
      rw [hcheck n, Option.bind_some, if_pos hready]
      rfl
  · refine ⟨s₁, P₁, X₁, h₁, ?_, (Returns.pure s₁).congr (fun n => ?_)⟩
    · rw [hleft₁, Round.left, if_neg hready, Nat.add_zero]
    · show (dmesgCheck m n r.bufsize s).bind _ = _
      rw [hcheck n, Option.bind_some, if_neg hready]

/-! ## `main` -/

/-- While no tests are known, all chunks are those that are never freed. -/
structure Resting (P : Pool) (X : Finset Ptr) (s : Session) : Prop where
  heap  : s.mem.heap = P.heap
  owned : Owned P ∅ X (fun _ _ => False)
  kept  : Kept X s

theorem Resting.chunks (h : Resting P X s) (p : Ptr) : s.mem.heap p ≠ none ↔ p ∈ s.kept := by
  rw [h.heap, ← h.kept.chunks, ← h.owned.only_aside, Ne, free_iff, not_not]

theorem Running.summary (h : Running P X T created s) :
    printSummary T created s.mem = some () := by
  refine touchAll_nodes h.heap (fun p hp => ?_)
  rcases List.mem_cons.mp hp with rfl | hp
  · exact h.owned.node (Finset.mem_singleton_self p)
  · exact (h.record hp).1

/-- When the array is freed, nothing of the tests is left. -/
theorem Running.free (h : Running P X T created s) :
    ∃ s' P', Resting P' X s' ∧ s'.left = s.left ∧
      Returns (fun n => freeTests n (some (T, created)) s) s' := by
  obtain ⟨⟨heap, k⟩, ptr, nCaps, dmesg, size, lost, left⟩ := s
  obtain rfl : heap = P.heap := h.heap
  have hmem := Finset.mem_singleton_self T
  obtain ⟨P', hcut, hfree⟩ := freeChunk_spec (k := k) h.owned.calm (h.owned.node hmem)
  have howned : Owned P {T} X (fun _ _ => False) := h.owned.mono (fun _ _ hno => hno.elim)
  have h' := howned.cut hmem hcut (fun _ _ hno => hno.elim)
  rw [Finset.erase_singleton] at h'
  exact ⟨⟨⟨P'.heap, k⟩, ptr, nCaps, dmesg, size, lost, left⟩, P',
    ⟨rfl, h', h.kept.nodup, h.kept.chunks⟩, rfl,
    hfree.out (fun h => Session.mk h ptr nCaps dmesg size lost left) (fun n => rfl)⟩

variable {sort : List (Ptr × Ptr) → List (Ptr × Ptr)} {r : Round}

theorem newRecords_path {l : List (Ptr × Ptr)} {f : Field} {t c : Ptr}
    (h : newRecords l f t = some c) : f = .path ∧ (t, c) ∈ l := by
  cases f with
  | path =>
      obtain ⟨l₁, l₂, rfl, -⟩ := List.lookup_eq_some_iff.mp h
      exact ⟨rfl, by simp⟩
  | capsRequired => cases h
  | outputBuf => cases h

theorem map_fst_sublist (l : List (Ptr × Ptr)) :
    (l.map Prod.fst).Sublist (l.flatMap (fun t => [t.1, t.2])) := by
  induction l with
  | nil => exact List.Sublist.refl []
  | cons t l ih => exact (ih.cons t.2).cons_cons t.1

/-- The tests that are found run with nothing but their paths. -/
theorem startTests_spec (h : Resting P X s) (hfits : r.Fits z fs) (hsort : ∀ l, (sort l).Perm l)
    (hopens : r.opens = true) :
    ∃ T created s' P', Running P' X T created s' ∧ created.Nodup ∧
      created.length = foundIn fs r.reads ∧ (∀ t, s'.nCapsRequired t = 0) ∧ s'.left = s.left ∧
      Returns (fun n => startTests m z fs n sort r s) (some (T, created), s') := by
  obtain ⟨⟨heap, k⟩, ptr, nCaps, dmesg, size, lost, left⟩ := s
  obtain rfl : heap = P.heap := h.heap
  obtain ⟨l, P₁, hfind, -, hfound, hdirs⟩ := readDirs_spec (m := m) (z := z) (k := k) fs h.owned
    hfits.paths hfits.dirs (Nat.lt_of_succ_lt hfits.tests)
  obtain ⟨T, P₂, k₂, howned, hend⟩ := endTests_spec (m := m) (z := z) sort hfind
    (by rw [hfound]; exact hfits.tests)
  have hperm := hsort l.created
  let made := fun e : Ptr × List (Ptr × Ptr) × Mem => (some (e.1, e.2.1.map Prod.fst),
    Session.mk e.2.2 (newRecords e.2.1) (fun _ => 0) dmesg size lost left)
  have hnd : ((sort l.created).map Prod.fst).Nodup := by
    rw [(hperm.map Prod.fst).nodup_iff]
    have hchunks := (List.nodup_cons.mp hfind.listed.nodup).2
    exact (List.Nodup.of_append_right hchunks).sublist (map_fst_sublist l.created)
  refine ⟨T, (sort l.created).map Prod.fst,
    ⟨⟨P₂.heap, k₂⟩, newRecords (sort l.created), fun _ => 0, dmesg, size, lost, left⟩, P₂,
    ⟨rfl, howned.mono ?_, ?_, ?_, h.kept.nodup, h.kept.chunks⟩, hnd, ?_, fun _ => rfl, rfl,
    (hdirs.bind (g := fun n l => (endTests m z n sort l).bind (fun e => some (made e)))
      (hend.out made (fun n => rfl))).congr (fun n => ?_)⟩
  · rintro p c (⟨rfl, hc⟩ | ⟨-, f, hf⟩)
    · exact .inl ⟨rfl, (hperm.map Prod.fst).mem_iff.mp hc⟩
    · exact .inr (hperm.mem_iff.mp (newRecords_path hf).2)
  · intro t f g c hf hg
    exact (newRecords_path hf).1.trans (newRecords_path hg).1.symm
  · intro t ht
    obtain ⟨e, he, rfl⟩ := List.mem_map.mp ht
    exact List.lookup_isSome_iff.mpr ⟨e, he, beq_self_eq_true e.1⟩
  · rw [List.length_map, hperm.length_eq, hfound]
  · show ((readDirs m z fs n r.reads ⟨P.heap, k⟩).bind _).bind _ = _
    rw [hopens, Option.bind_assoc]
    congr 1
    funext l
    show ((endTests m z n sort l).bind _).bind _ = _
    rw [Option.bind_assoc]
    rfl

/-- If a directory does not open, the chunks that `find_tests` has made stay. -/
theorem startTests_fails (sort : List (Ptr × Ptr) → List (Ptr × Ptr)) (h : Resting P X s)
    (hfits : r.Fits z fs) (hopens : r.opens = false) :
    ∃ l P', Finding P' X l ∧ l.paths.length = dirsIn fs r.reads ∧
      l.created.length = foundIn fs r.reads ∧
      Returns (fun n => readDirs m z fs n r.reads s.mem) l ∧
      Returns (fun n => startTests m z fs n sort r s) (none, { s with mem := l.mem }) := by
  obtain ⟨⟨heap, k⟩, ptr, nCaps, dmesg, size, lost, left⟩ := s
  obtain rfl : heap = P.heap := h.heap
  obtain ⟨l, P₁, hfind, hpaths, hfound, hdirs⟩ := readDirs_spec (m := m) (z := z) (k := k) fs
    h.owned hfits.paths hfits.dirs (Nat.lt_of_succ_lt hfits.tests)
  refine ⟨l, P₁, hfind, hpaths, hfound, hdirs, hdirs.out (fun l => (none,
    Session.mk l.mem ptr nCaps dmesg size lost left)) (fun n => ?_)⟩
  show ((readDirs m z fs n r.reads ⟨P.heap, k⟩).bind _).bind _ = _
  rw [hopens, Option.bind_assoc]
  rfl

/-- **One round** leaves what its tests left, and nothing of its own. -/
theorem round_spec (h : Resting P X s) (hfits : r.Fits z fs) (hsort : ∀ l, (sort l).Perm l)
    (hopens : r.opens = true) :
    ∃ T created s₁ s₂ s' P' X', Resting P' X' s' ∧ s'.left.length = s.left.length + r.left ∧
      Returns (fun n => startTests m z fs n sort r s) (some (T, created), s₁) ∧
      Returns (fun n => runTests m z n r (some (T, created)) s₁) s₂ ∧
      printSummary T created s₂.mem = some () ∧
      Returns (fun n => freeTests n (some (T, created)) s₂) s' := by
  obtain ⟨T, created, s₁, P₁, h₁, hnd, hlen, hnew, hleft₁, hstart⟩ :=
    startTests_spec (m := m) h hfits hsort hopens
  obtain ⟨s₂, P₂, X₂, h₂, hleft₂, hrun⟩ := runTests_spec (m := m) (z := z) h₁ hnd hnew hlen hfits
  obtain ⟨s₃, P₃, h₃, hleft₃, hfree⟩ := h₂.free
  refine ⟨T, created, s₁, s₂, s₃, P₃, X₂, h₃, ?_, hstart, hrun, h₂.summary, hfree⟩
  rw [hleft₃, hleft₂, hleft₁]

end Run

section Main

variable {m : Allocator} {z : Sizes} {fs : SpufsDiscovery.FileSystem}
  {sort : List (Ptr × Ptr) → List (Ptr × Ptr)} {P : Pool} {X : Finset Ptr} {s : Session}
  {tests b : Round}

/-- The benchmarks leave what they left, and nothing else. -/
theorem runBenchmarks_spec (h : Resting P X s) (hfits : b.Fits z fs)
    (hsort : ∀ l, (sort l).Perm l) (hopens : b.opens = true) :
    ∃ s' P' X', Resting P' X' s' ∧ s'.left.length = s.left.length + b.left ∧
      Returns (fun n => runBenchmarks m z fs n sort b s) s' := by
  obtain ⟨T, created, s₁, s₂, s₃, P₃, X₃, h₃, hleft, hstart, hrun, -, hfree⟩ :=
    round_spec (m := m) h hfits hsort hopens
  refine ⟨s₃, P₃, X₃, h₃, hleft, ?_⟩
  show Returns (fun n => (startTests m z fs n sort b s).bind _) _
  exact hstart.bind (hrun.bind hfree)

/-- **Benchmarks that cannot be opened**: `main` does not look at what `find_tests`
    returns, and `run_tests` follows the null pointer when it comes to its loop. -/
theorem runBenchmarks_null (h : Resting P X s) (hfits : b.Fits z fs) (hopens : b.opens = false)
    (hready : b.ready = true) : ∃ k, ∀ n, k ≤ n → runBenchmarks m z fs n sort b s = none := by
  obtain ⟨l, P₁, hfind, -, -, -, k, hstart⟩ :=
    startTests_fails (m := m) sort h hfits hopens
  have hK : ∀ p c, Records l.tests l.created p c → p ∉ X := by
    intro p c hpc hpX
    obtain ⟨r, hr, hb, -⟩ := records_below hfind.owned hfind.empty.mp hpc
    exact hfind.owned.aside r hr ((hfind.owned.whole_below hb).mpr hpX)
  obtain ⟨s', -, -, -, -, -, -, -, -, hcheck⟩ := dmesgCheck_spec (m := m)
    (s := { s with mem := l.mem }) hfind.heap hfind.owned hK ⟨h.kept.nodup, h.kept.chunks⟩
    hfits.bufsize
  refine ⟨k, fun n hn => ?_⟩
  have hfound : startTests m z fs n sort b s = some (none, { s with mem := l.mem }) := hstart n hn
  show (startTests m z fs n sort b s).bind _ = none
  rw [hfound, Option.bind_some]
  show ((dmesgCheck m n b.bufsize _).bind _).bind _ = none
  rw [hcheck n, Option.bind_some, if_pos hready]
  rfl

/-- The tests, up to the benchmarks. -/
theorem main_round (benchmarks : Option Round) (h : Resting P X s) (hfits : tests.Fits z fs)
    (hsort : ∀ l, (sort l).Perm l) (hopens : tests.opens = true) :
    ∃ s' P' X', Resting P' X' s' ∧ s'.left.length = s.left.length + tests.left ∧
      ∀ s'', Returns (fun n => benchmarks.elim (some s')
        (fun b => runBenchmarks m z fs n sort b s')) s'' →
        Returns (fun n => main m z fs n sort tests benchmarks s) s'' := by
  obtain ⟨T, created, s₁, s₂, s₃, P₃, X₃, h₃, hleft, hstart, hrun, hsummary, hfree⟩ :=
    round_spec (m := m) h hfits hsort hopens
  refine ⟨s₃, P₃, X₃, h₃, hleft, fun s'' hend => ?_⟩
  refine hstart.bind (hrun.bind ((hfree.bind (g := fun n s => benchmarks.elim (some s)
    (fun b => runBenchmarks m z fs n sort b s)) hend).congr (fun n => ?_)))
  rw [hsummary]
  show (freeTests n (some (T, created)) s₂).bind _ = _
  cases benchmarks with
  | none => rfl
  | some b => rfl

end Main

open Classical in
/-- The first address that is not in use; a chunk never moves. -/
noncomputable def firstFree : Allocator where
  malloc _ h := if hp : ∃ p, h p = none then Nat.find hp else 0
  realloc _ p _ := p
  malloc_free := by
    intro k h hp
    rw [dif_pos hp]
    exact Nat.find_spec hp
  realloc_free := fun _ _ _ => .inl rfl

def sampleSizes : Sizes := ⟨8, 112, 16, by decide, by decide, by decide⟩

/-- A directory with a test whose configuration is read. -/
def sampleRound : Round where
  reads := [(str "t", str "a"), (str "t", str "link"), (str "t/a", str "README"),
    (str "t/a", str "01-x")]
  opens := true
  bufsize := 16384
  ready := true
  outcomes := [[.readConfig .opened 9 15 6, .addRequiredCap, .readOutput 4096, .readOutput 8192,
    .dmesg (-1), .message 20]]

/-- No benchmark, and a kernel log that cannot be asked for. -/
def emptyRound : Round := ⟨[], true, -1, false, []⟩

theorem sampleRound_fits : sampleRound.Fits sampleSizes SpufsDiscovery.sampleFs := by
  refine ⟨by decide, by decide, by decide, by decide, by decide, ?_, ?_, by decide⟩
  · intro es hes e he
    obtain rfl := List.mem_singleton.mp hes
    simp only [List.mem_cons, List.not_mem_nil, or_false] at he
    rcases he with rfl | rfl | rfl | rfl | rfl | rfl <;> simp [Event.Fits, maxTallocSize]
  · intro es hes
    obtain rfl := List.mem_singleton.mp hes
    simp [Printed]

theorem emptyRound_fits : emptyRound.Fits sampleSizes SpufsDiscovery.sampleFs :=
  ⟨by simp [emptyRound], by decide, by decide, by decide, by decide, by simp [emptyRound],
    by simp [emptyRound], by simp [emptyRound]⟩

/-- The same directory, when it cannot be opened in the end. -/
def closedRound : Round := { sampleRound with opens := false }

theorem closedRound_fits : closedRound.Fits sampleSizes SpufsDiscovery.sampleFs :=
  { sampleRound_fits with }

end SpufsMemory
