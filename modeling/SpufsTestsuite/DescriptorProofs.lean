import SpufsTestsuite.FdTableProofs
import SpufsTestsuite.RunTestProofs

/-! # Descriptors — the pipe between the runner and a test

    `run_test` opens a pipe, and behind `fork` each side closes the end it does
    not need; the child moves its end to the standard output and error.  The
    numbers come from the table the runner was started with, so an end of the
    pipe can itself be one of the first three numbers.

    The calls do what they are there for when the write end is above these and
    the read end is not 0, which the reader takes for "none" (`plumbed_iff`).
    The descriptor of the working directory is open by then and has taken the
    lowest number that was free at the start (`plumbed_start`,
    `executes_iff`). -/

namespace SpufsDescriptor

open Automaton SpufsTest SpufsRunTest

/-- What can be open: something the runner was started with, the working
    directory, or an end of the pipe. -/
inductive OpenFile where
  | given (n : Nat)
  | workingDir
  | readEnd
  | writeEnd
  deriving DecidableEq

/-! ## The calls -/

/-- The child, up to `fchdir`: it exits where a `dup2` fails. -/
def childTable (t : FdTable OpenFile) (readEnd writeEnd : Nat) :
    Option (FdTable OpenFile) :=
  (((t.close readEnd).close 0).dup2 writeEnd 1).bind fun t =>
    (t.dup2 1 2).map fun t => t.close writeEnd

/-- The tables behind `fork` and the closes of both sides, and the number of
    the read end. -/
structure Plumbing where
  child : Option (FdTable OpenFile)
  parent : FdTable OpenFile
  readEnd : Nat
  writeEnd : Nat

/-- The descriptor calls of `run_test`. -/
def plumb (t : FdTable OpenFile) : Plumbing :=
  let p := t.pipe .readEnd .writeEnd
  ⟨childTable p.table p.readEnd p.writeEnd, p.table.close p.writeEnd, p.readEnd,
    p.writeEnd⟩

/-- `run_tests` has opened the working directory. -/
def startTable (t : FdTable OpenFile) : FdTable OpenFile := (t.openFile .workingDir).2

/-- `dirfd`. -/
def dirFd (t : FdTable OpenFile) : Nat := (t.openFile .workingDir).1

/-- `fchdir` finds the working directory in the child, so that it goes on to
    `execl`. -/
def Executes (t : FdTable OpenFile) : Prop :=
  ∃ c, (plumb (startTable t)).child = some c ∧ c.get (dirFd t) = some .workingDir

/-! ## The reader -/

/-- A call of the reader is about this descriptor. -/
def Addressed (fd : Int) : Call → Prop
  | .poll f _ => f = some fd
  | .read f _ => f = fd
  | .close _ | .waitid _ | .kill _ _ => True

/-- Behind `pipe` the reader polls the read end and reads from it, and from no
    other descriptor. -/
def Listens (readEnd writeEnd : Nat) : Prop :=
  ∀ (enableTimeout : Bool) (r r' : Runner) (as : List Answer),
    r.pc = .pipe → r.calls = [] →
    run (step enableTimeout) r (.pipe (some (readEnd, writeEnd)) :: as) = some r' →
    pollFd r'.test = some (readEnd : Int) ∧ ∀ c ∈ r'.calls, Addressed readEnd c

section Reader

variable {enableTimeout : Bool} {r r' : Runner} {a : Answer} {fd : Int}

/-- The descriptor is that of the test, and all calls were about it. -/
structure Reading (fd : Int) (r : Runner) : Prop where
  behind : r.pc ≠ .pipe
  stdoutFd_eq : r.test.run.stdoutFd = fd
  addressed : ∀ c ∈ r.calls, Addressed fd c

theorem Reading.pollFd (h : Reading fd r) (hfd : 0 < fd) : pollFd r.test = some fd := by
  rw [SpufsRunTest.pollFd, h.stdoutFd_eq, if_pos hfd]

/-- Calls that have been added are about the descriptor, too. -/
theorem addressed_append {cs ds : List Call} (hc : ∀ c ∈ cs, Addressed fd c)
    (hd : ∀ c ∈ ds, Addressed fd c) : ∀ c ∈ cs ++ ds, Addressed fd c := by
  intro c h
  rcases List.mem_append.mp h with h | h
  · exact hc c h
  · exact hd c h

theorem addressed_snoc {cs : List Call} (hc : ∀ c ∈ cs, Addressed fd c) (c : Call)
    (h : Addressed fd c) : ∀ d ∈ cs ++ [c], Addressed fd d := by
  refine addressed_append hc ?_
  intro d hd
  rw [List.mem_singleton.mp hd]
  exact h

theorem Reading.leaves (h : Reading fd r) (hl : Leaves r r') : Reading fd r' := by
  cases hl with
  | out heq =>
      rw [heq]
      exact ⟨by simp [finish], h.stdoutFd_eq, addressed_snoc h.addressed (.close _) trivial⟩
  | log heq =>
      rw [heq]
      exact ⟨by simp, h.stdoutFd_eq, h.addressed⟩

/-- **A step keeps the reader at its descriptor.** -/
theorem Reading.step (hfd : 0 < fd) (hs : SpufsRunTest.step enableTimeout r a = some r')
    (h : Reading fd r) : Reading fd r' := by
  have hpoll := h.pollFd hfd
  cases step_cases hs with
  | pipeFailed hpc => exact absurd hpc h.behind
  | piped hpc => exact absurd hpc h.behind
  | forkFailed hpc hpid => exact ⟨by simp, h.stdoutFd_eq, h.addressed⟩
  | forked hpc hpid =>
      exact ⟨by simp, h.stdoutFd_eq, addressed_snoc h.addressed (.close _) trivial⟩
  | sigactionFailed hpc => exact ⟨by simp, h.stdoutFd_eq, h.addressed⟩
  | sigaction hpc => exact ⟨by simp, h.stdoutFd_eq, h.addressed⟩
  | start hpc => exact ⟨by simp, h.stdoutFd_eq, h.addressed⟩
  | waitidFailed hpc =>
      exact ⟨by simp [finish], h.stdoutFd_eq,
        addressed_snoc (addressed_snoc h.addressed (.waitid _) trivial) (.close _) trivial⟩
  | running hpc =>
      exact ⟨by simp [waited], h.stdoutFd_eq, addressed_snoc h.addressed (.waitid _) trivial⟩
  | reaped hpc hreap =>
      have hw : Reading fd (waited r .wait) :=
        ⟨by simp [waited], h.stdoutFd_eq, addressed_snoc h.addressed (.waitid _) trivial⟩
      exact hw.leaves (reap_leaves hreap)
  | dmesg hpc hcheck => exact h.leaves (checkDmesg_leaves hcheck)
  | clock hpc =>
      refine ⟨by simp [checkClock], h.stdoutFd_eq, addressed_append h.addressed ?_⟩
      intro c hc
      split at hc
      · rw [List.mem_singleton.mp hc]
        trivial
      · exact nomatch hc
  | pollError hpc =>
      exact ⟨by simp [polled], h.stdoutFd_eq, addressed_snoc h.addressed (.poll _ _) hpoll⟩
  | pollTimeout hpc =>
      exact ⟨by simp [polled], h.stdoutFd_eq, addressed_snoc h.addressed (.poll _ _) hpoll⟩
  | pollErr hpc hpos =>
      exact ⟨by simp [polled], h.stdoutFd_eq, addressed_snoc h.addressed (.poll _ _) hpoll⟩
  | pollReady hpc hpos =>
      exact ⟨by simp [polled], h.stdoutFd_eq, addressed_snoc h.addressed (.poll _ _) hpoll⟩
  | readError hpc =>
      exact ⟨by simp [readDone], h.stdoutFd_eq,
        addressed_snoc h.addressed (.read _ _) h.stdoutFd_eq⟩
  | readData hpc ho =>
      exact ⟨by simp [readDone], h.stdoutFd_eq,
        addressed_snoc h.addressed (.read _ _) h.stdoutFd_eq⟩

end Reader

/-- **The reader takes 0 for "none".** -/
theorem listens_iff {readEnd writeEnd : Nat} : Listens readEnd writeEnd ↔ 0 < readEnd := by
  constructor
  · intro h
    have hpoll := (h true (startRunner (testCreate [] .test) []) _ [] rfl rfl rfl).1
    by_contra hpos
    have hzero : readEnd = 0 := by omega
    subst hzero
    exact nomatch hpoll
  · intro hpos enableTimeout r r' as hpc hcalls hrun
    obtain ⟨r₁, h₁, hrest⟩ := run_cons.mp hrun
    have hfd : (0 : Int) < readEnd := by omega
    have hr₁ : Reading (readEnd : Int) r₁ := by
      cases step_cases h₁ with
      | piped => exact ⟨by simp, rfl, by simp [hcalls]⟩
    have hr' := run_preserves (Reading.step hfd) hrest hr₁
    exact ⟨hr'.pollFd hfd, hr'.addressed⟩

/-! ## The tables -/

/-- What the descriptor calls are there for: the test writes into the pipe on
    its standard output and error and has no standard input, the runner has the
    read end in addition, and reads from it. -/
structure Plumbed (t : FdTable OpenFile) : Prop where
  child : ∃ c, (plumb t).child = some c ∧ c.get 1 = some .writeEnd
    ∧ c.get 2 = some .writeEnd ∧ c.get 0 = none
  fresh : ¬ t.IsOpen (plumb t).readEnd
  parent : (plumb t).parent = t.set (plumb t).readEnd (some .readEnd)
  listens : Listens (plumb t).readEnd (plumb t).writeEnd

section Tables

variable (t : FdTable OpenFile)

theorem plumb_fresh : ¬ t.IsOpen (plumb t).readEnd := t.lowest_free

theorem plumb_writeEnd :
    ¬ t.IsOpen (plumb t).writeEnd ∧ (plumb t).readEnd < (plumb t).writeEnd :=
  t.pipe_writeEnd .readEnd .writeEnd

/-- **The child's table**, number by number; the last close may undo the work
    of a `dup2`. -/
theorem plumb_child : ∃ c, (plumb t).child = some c ∧ ∀ n, c.get n =
    if n = (plumb t).writeEnd then none
    else if n = 1 ∨ n = 2 then some .writeEnd
    else if n = 0 ∨ n = (plumb t).readEnd then none
    else t.get n := by
  have hlt := (plumb_writeEnd t).2
  let p := t.pipe .readEnd .writeEnd
  let t₁ := (p.table.close p.readEnd).close 0
  have hp : ∀ n, p.table.get n = if n = (plumb t).writeEnd then some .writeEnd
      else if n = (plumb t).readEnd then some .readEnd else t.get n :=
    t.pipe_get .readEnd .writeEnd
  have h₁ : ∀ n, t₁.get n = if n = 0 then none else if n = (plumb t).readEnd then none
      else p.table.get n := fun n => rfl
  have hwrite : t₁.get (plumb t).writeEnd = some .writeEnd := by
    rw [h₁, if_neg (by omega), if_neg (by omega), hp, if_pos rfl]
  let t₂ := t₁.set 1 (some .writeEnd)
  have hout : t₂.get 1 = some .writeEnd := rfl
  refine ⟨(t₂.set 2 (some .writeEnd)).close (plumb t).writeEnd, ?_, ?_⟩
  · show (t₁.dup2 (plumb t).writeEnd 1).bind _ = _
    rw [FdTable.dup2_eq hwrite, Option.bind_some, FdTable.dup2_eq hout]
    rfl
  · intro n
    rw [FdTable.close_get, FdTable.set_get, FdTable.set_get, h₁, hp]
    grind

/-- The parent's table has the read end in addition. -/
theorem plumb_parent : (plumb t).parent = t.set (plumb t).readEnd (some .readEnd) := by
  obtain ⟨hfree, hlt⟩ := plumb_writeEnd t
  have hnone := FdTable.not_isOpen.mp hfree
  refine FdTable.ext_get ?_
  intro n
  have hp := t.pipe_get .readEnd .writeEnd n
  have hclose : (plumb t).parent.get n = if n = (plumb t).writeEnd then none
      else (t.pipe .readEnd .writeEnd).table.get n := rfl
  rw [hclose, hp, FdTable.set_get]
  by_cases hn : n = (plumb t).writeEnd
  · rw [if_pos hn, if_neg (by omega), hn, hnone]
  · rw [if_neg hn]
    exact if_neg hn

/-- **The calls of `run_test` do their work** from a table in which 0 is open,
    and 1 or 2. -/
theorem plumbed_iff : Plumbed t ↔ t.IsOpen 0 ∧ (t.IsOpen 1 ∨ t.IsOpen 2) := by
  obtain ⟨c, hc, hget⟩ := plumb_child t
  have hlt := (plumb_writeEnd t).2
  have hread : 0 < (plumb t).readEnd ↔ t.IsOpen 0 := by
    have hle : 1 ≤ t.lowest ↔ _ := FdTable.le_lowest_iff
    rw [show (0 < (plumb t).readEnd) ↔ 1 ≤ t.lowest from Iff.rfl, hle]
    exact ⟨fun h => h 0 (by decide), fun h m hm => by rwa [Nat.lt_one_iff.mp hm]⟩
  have hwrite : 3 ≤ (plumb t).writeEnd ↔ (t.IsOpen 0 ∧ (t.IsOpen 1 ∨ t.IsOpen 2))
      ∨ (t.IsOpen 1 ∧ t.IsOpen 2) := t.three_le_writeEnd .readEnd .writeEnd
  constructor
  · intro h
    obtain ⟨c', hc', h1, h2, -⟩ := h.child
    obtain rfl := Option.some.inj (hc.symm.trans hc')
    have h0 := hread.mp (listens_iff.mp h.listens)
    rw [hget] at h1 h2
    have hw1 : (plumb t).writeEnd ≠ 1 := fun heq => by
      rw [heq, if_pos rfl] at h1
      exact nomatch h1
    have hw2 : (plumb t).writeEnd ≠ 2 := fun heq => by
      rw [heq, if_pos rfl] at h2
      exact nomatch h2
    rcases hwrite.mp (by omega) with h | ⟨h1, -⟩
    · exact h
    · exact ⟨h0, Or.inl h1⟩
  · intro h
    have hw := hwrite.mpr (Or.inl h)
    refine ⟨⟨c, hc, ?_, ?_, ?_⟩, plumb_fresh t, plumb_parent t,
      listens_iff.mpr (hread.mpr h.1)⟩
    · rw [hget, if_neg (by omega), if_pos (Or.inl rfl)]
    · rw [hget, if_neg (by omega), if_pos (Or.inr rfl)]
    · rw [hget, if_neg (by omega), if_neg (by omega), if_pos (Or.inl rfl)]

theorem isOpen_startTable {n : Nat} :
    (startTable t).IsOpen n ↔ n = t.lowest ∨ t.IsOpen n := FdTable.isOpen_openFile

/-- The descriptor of the working directory fills the first gap. -/
theorem plumbed_start :
    Plumbed (startTable t) ↔ t.IsOpen 0 ∨ t.IsOpen 1 ∨ t.IsOpen 2 := by
  rw [plumbed_iff, isOpen_startTable, isOpen_startTable, isOpen_startTable]
  have hfree := t.lowest_free
  constructor
  · rintro ⟨-, (h1 | h1) | (h2 | h2)⟩
    · exact Or.inl (FdTable.isOpen_of_lt (by omega))
    · exact Or.inr (Or.inl h1)
    · exact Or.inl (FdTable.isOpen_of_lt (by omega))
    · exact Or.inr (Or.inr h2)
  · intro h
    have h0 : 0 = t.lowest ∨ t.IsOpen 0 := by
      by_cases hzero : 0 = t.lowest
      · exact Or.inl hzero
      · exact Or.inr (FdTable.isOpen_of_lt (by omega))
    refine ⟨h0, ?_⟩
    rcases h with h | h
    · by_cases h1 : t.IsOpen 1
      · exact Or.inl (Or.inr h1)
      · have hle := FdTable.lowest_le h1
        have hne : t.lowest ≠ 0 := fun heq => hfree (heq ▸ h)
        exact Or.inl (Or.inl (by omega))
    · exact h.imp Or.inr Or.inr

/-- The child overwrites or closes the first three numbers, so the working
    directory must not be among them. -/
theorem executes_iff : Executes t ↔ t.IsOpen 0 ∧ t.IsOpen 1 ∧ t.IsOpen 2 := by
  obtain ⟨c, hc, hget⟩ := plumb_child (startTable t)
  obtain ⟨hwrite, -⟩ := plumb_writeEnd (startTable t)
  have hread := plumb_fresh (startTable t)
  have hdir : (startTable t).get (dirFd t) = some .workingDir := if_pos rfl
  have hopen : (startTable t).IsOpen (dirFd t) := by
    rw [FdTable.isOpen_iff]
    exact ⟨_, hdir⟩
  have hne : dirFd t ≠ (plumb (startTable t)).writeEnd := fun h => hwrite (h ▸ hopen)
  have hne' : dirFd t ≠ (plumb (startTable t)).readEnd := fun h => hread (h ▸ hopen)
  have hthree : 3 ≤ dirFd t ↔ t.IsOpen 0 ∧ t.IsOpen 1 ∧ t.IsOpen 2 := by
    have hle : 3 ≤ t.lowest ↔ _ := FdTable.le_lowest_iff
    rw [show (3 ≤ dirFd t) ↔ 3 ≤ t.lowest from Iff.rfl, hle]
    constructor
    · intro h
      exact ⟨h 0 (by decide), h 1 (by decide), h 2 (by decide)⟩
    · rintro ⟨h0, h1, h2⟩ m hm
      match m, hm with
      | 0, _ => exact h0
      | 1, _ => exact h1
      | 2, _ => exact h2
  rw [← hthree]
  constructor
  · rintro ⟨c', hc', hd⟩
    obtain rfl := Option.some.inj (hc.symm.trans hc')
    rw [hget, if_neg hne] at hd
    grind
  · intro h
    refine ⟨c, hc, ?_⟩
    rw [hget, if_neg hne, if_neg (by omega), if_neg (by omega), hdir]

end Tables

/-- **The descriptors of a test**, for every table the runner is started with:
    the child that executes the test has its output in the pipe, and the runner
    reads it, exactly when the first three numbers are open.  The calls of
    `run_test` alone do their work when one of these is open at the start; from
    the table `run_test` itself meets, when 0 is, and 1 or 2. -/
theorem runTest_descriptors (t : FdTable OpenFile) :
    (Executes t ∧ Plumbed (startTable t) ↔ t.IsOpen 0 ∧ t.IsOpen 1 ∧ t.IsOpen 2)
      ∧ (Plumbed (startTable t) ↔ t.IsOpen 0 ∨ t.IsOpen 1 ∨ t.IsOpen 2)
      ∧ (Plumbed t ↔ t.IsOpen 0 ∧ (t.IsOpen 1 ∨ t.IsOpen 2)) := by
  refine ⟨?_, plumbed_start t, plumbed_iff t⟩
  rw [executes_iff, plumbed_start]
  exact and_iff_left_of_imp (fun h => Or.inl h.1)

/-- Started with nothing open, the runner has the working directory at 0 and
    the pipe at 1 and 2: the last close of the child closes its standard
    error. -/
theorem runTest_descriptors_closed :
    (plumb (startTable FdTable.empty)).child.map (fun c => (c.get 1, c.get 2))
      = some (some .writeEnd, none)
    ∧ ¬ ∀ t : FdTable OpenFile, Plumbed (startTable t) := by
  refine ⟨by decide +kernel, ?_⟩
  intro h
  have hstart := (plumbed_start FdTable.empty).mp (h FdTable.empty)
  rcases hstart with h | h | h
  · exact FdTable.not_isOpen_empty 0 h
  · exact FdTable.not_isOpen_empty 1 h
  · exact FdTable.not_isOpen_empty 2 h

end SpufsDescriptor
