import SpufsTestsuite.AutomatonProofs
import SpufsTestsuite.ShouldRunProofs

/-! # `run_test` — one test, from its header to its verdict

    The parent's side of `run_test` is an automaton over the answers of the
    system calls it makes: `step` takes one answer, in the order in which the
    source asks for it, and records the calls whose arguments the runner
    chooses.  `read_test_output` and its growing buffer are part of it.

    `run_test` comes back after reaping a child, or because a call failed:
    `Ending` lists every way, and `run_ends` says that there is no other. -/

namespace SpufsRunTest

open CString SpufsTest SpufsConfScan SpufsConfReference SpufsCapability
open SpufsShouldRun Automaton

/-! ## Answers and calls -/

/-- `si_code`, as `waitid` reports it for `WEXITED`. -/
inductive CldCode where
  | exited
  | killed
  | dumped
  deriving DecidableEq, Repr

/-- `siginfo_t`. -/
structure Siginfo where
  code   : CldCode
  status : Int
  deriving DecidableEq, Repr

/-- `struct timeval`. -/
structure Timeval where
  sec  : Int
  usec : Int
  deriving DecidableEq, Repr

/-- `timercmp(a, b, >)`. -/
def Timeval.after (a b : Timeval) : Bool :=
  if a.sec = b.sec then decide (b.usec < a.usec) else decide (b.sec < a.sec)

/-- What a system call returns to the runner.  `fresh` is what newly allocated
    memory holds; a null allocation is `none`. -/
inductive Answer where
  | pipe (fds : Option (Int × Int))
  | fork (pid : Int)
  | sigaction (ok : Bool)
  | clock (tv : Timeval)
  | waitidError
  | running
  | reaped (info : Siginfo)
  | dmesg (rc : Int)
  | pollError
  | pollTimeout
  | pollReady (pollerr : Bool) (fresh : Option (Nat → UInt8))
  | readError
  | readData (d : Bytes)

/-- The calls whose arguments the runner chooses. -/
inductive Call where
  | close (fd : Int)
  | waitid (pid : Int)
  | kill (pid sig : Int)
  | poll (fd : Option Int) (timeout : Int)
  | read (fd : Int) (size : Nat)
  deriving DecidableEq, Repr

/-! ## `read_test_output` -/

/-- `readsize`. -/
def readsize : Nat := 4096

/-- `MAX_TALLOC_SIZE`. -/
def maxTallocSize : Nat := 2 ^ 28

/-- `talloc_realloc` of an array of bytes. -/
def tallocRealloc (p : Option Bytes) (count : Nat)
    (fresh : Option (Nat → UInt8)) : Option Bytes :=
  if maxTallocSize ≤ count then none
  else
    let old := (p.getD []).take count
    fresh.map (fun byte =>
      old ++ (List.range' old.length (count - old.length)).map byte)

/-- Makes room for `readsize` bytes behind the captured ones. -/
def growOutput (o : Output) (fresh : Option (Nat → UInt8)) : Output :=
  if o.bufsize - o.len < readsize then
    let allocSize := max readsize (o.bufsize * 2)
    { o with buf := tallocRealloc o.buf allocSize fresh, bufsize := allocSize }
  else o

/-- `read` into the buffer, behind the captured bytes. -/
def storeOutput (o : Output) (d : Bytes) : Option Output :=
  if d = [] then some o
  else
    match o.buf with
    | none => none
    | some buf =>
        if o.len + d.length ≤ buf.length ∧ d.length ≤ readsize then
          some { o with
            buf := some (buf.take o.len ++ d ++ buf.drop (o.len + d.length)),
            len := o.len + d.length }
        else none

/-! ## The automaton -/

/-- Where the runner stands: the call whose answer it waits for, or the value
    it has returned. -/
inductive Pc where
  | pipe
  | fork (writeEnd : Int)
  | sigaction
  | start
  | wait
  | dmesg
  | clock
  | poll (timeout : Int)
  | read
  | done (rc : Int32)
  deriving DecidableEq, Repr

/-- The child has not been reaped, and the runner has not given up. -/
def Pc.live : Pc → Bool
  | .dmesg => false
  | .done _ => false
  | _ => true

/-- The runner between two system calls. -/
structure Runner where
  pc       : Pc
  test     : Test
  deadline : Timeval
  stdout   : Bytes
  calls    : List Call
  deriving DecidableEq, Repr

/-- `SIGALRM`. -/
def sigalrm : Int := 14

/-- `close(test->run.stdout_fd); return rc;` -/
def finish (r : Runner) (rc : Int32) : Runner :=
  { r with pc := .done rc, calls := r.calls ++ [.close r.test.run.stdoutFd] }

/-- `test->run.pid = 0`. -/
def clearPid (t : Test) : Test := { t with run := { t.run with pid := 0 } }

/-- The verdict `v`, and the way out of the loop behind it. -/
def conclude (r : Runner) (v : Option (Test × Bytes)) (rc : Int32) :
    Option Runner :=
  v.map (fun v =>
    finish { r with test := clearPid v.1, stdout := r.stdout ++ v.2 } rc)

/-- The test has exited: check the exit status. -/
def reap (r : Runner) (info : Siginfo) : Option Runner :=
  match info.code with
  | .exited =>
      if info.status ≠ r.test.expectedRc then
        conclude r (testFail r.test (str "rc " ++ dec info.status
          ++ str ", expected " ++ dec r.test.expectedRc)) (-1)
      else if r.test.expectedSig ≠ 0 then
        conclude r (testFail r.test
          (str "expected sig " ++ dec r.test.expectedSig)) (-1)
      else some { r with pc := .dmesg }
  | .killed =>
      if info.status = r.test.expectedSig then conclude r (testPass r.test) 0
      else if info.status = sigalrm then
        conclude r (testFail r.test (str "timeout")) (-1)
      else
        conclude r (testFail r.test
          (str "killed, sig " ++ dec info.status)) (-1)
  -- neither branch: rc is still what waitid has returned
  | .dumped => some (finish { r with test := clearPid r.test } 0)

/-- `dmesg_check()` has returned. -/
def checkDmesg (r : Runner) (rc : Int) : Option Runner :=
  if rc ≠ 0 then conclude r (testFail r.test (str "dmesg")) (-1)
  else conclude r (testPass r.test) 0

/-- See if we've timed out, and how long to poll. -/
def checkClock (enableTimeout : Bool) (r : Runner) (tv : Timeval) : Runner :=
  { r with
    pc := .poll (Int.bmod (1 + 1000 * (r.deadline.sec - tv.sec)) (2 ^ 32))
    calls := r.calls ++
      if enableTimeout && tv.after r.deadline
      then [.kill r.test.run.pid sigalrm] else [] }

/-- The descriptor that is polled. -/
def pollFd (t : Test) : Option Int :=
  if 0 < t.run.stdoutFd then some t.run.stdoutFd else none

/-- The runner after a `poll`, with the next call. -/
def polled (r : Runner) (timeout : Int) (pc : Pc) : Runner :=
  { r with pc := pc, calls := r.calls ++ [.poll (pollFd r.test) timeout] }

/-- The runner after a `read`. -/
def readDone (r : Runner) (o : Output) : Runner :=
  { r with
    pc := .wait
    test := { r.test with output := o }
    calls := r.calls ++ [.read r.test.run.stdoutFd readsize] }

/-- The runner after a `waitid`, with the next call. -/
def waited (r : Runner) (pc : Pc) : Runner :=
  { r with pc := pc, calls := r.calls ++ [.waitid r.test.run.pid] }

/-- One answer. -/
def step (enableTimeout : Bool) (r : Runner) (a : Answer) : Option Runner :=
  match r.pc, a with
  | .pipe, .pipe none => some { r with pc := .done (-1) }
  | .pipe, .pipe (some (readEnd, writeEnd)) =>
      some { r with
        pc := .fork writeEnd
        test := { r.test with run := { r.test.run with stdoutFd := readEnd } } }
  | .fork writeEnd, .fork pid =>
      let test := { r.test with run := { r.test.run with pid := pid } }
      if pid < 0 then some { r with pc := .done (-1), test := test }
      -- the child does not come here
      else if pid = 0 then none
      else some { r with
        pc := .sigaction, test := test, calls := r.calls ++ [.close writeEnd] }
  | .sigaction, .sigaction ok =>
      some { r with pc := if ok then .start else .done (-1) }
  | .start, .clock tv =>
      some { r with
        pc := .wait, deadline := { tv with sec := tv.sec + r.test.timeout } }
  | .wait, .waitidError => some (finish (waited r .wait) (-1))
  | .wait, .running => some (waited r .clock)
  | .wait, .reaped info => reap (waited r .wait) info
  | .dmesg, .dmesg rc => checkDmesg r rc
  | .clock, .clock tv => some (checkClock enableTimeout r tv)
  | .poll timeout, .pollError => some (polled r timeout .wait)
  | .poll timeout, .pollTimeout => some (polled r timeout .wait)
  | .poll timeout, .pollReady pollerr fresh =>
      if r.test.run.stdoutFd ≤ 0 then none
      else if pollerr then some (polled r timeout .wait)
      else some (polled
        { r with test := { r.test with output := growOutput r.test.output fresh } }
        timeout .read)
  | .read, .readError => some (readDone r r.test.output)
  | .read, .readData d => (storeOutput r.test.output d).map (readDone r)
  | _, _ => none

/-! ## One step -/

/-- A test without what running it changes. -/
def config (t : Test) : Test :=
  { t with run := ⟨-1, 0⟩, output := ⟨none, 0, 0⟩, result := .notrun }

section Step

variable {enableTimeout : Bool} {r r' : Runner} {a : Answer}

/-- The steps, one constructor for each branch of the code. -/
inductive Stepped (enableTimeout : Bool) (r : Runner) : Answer → Runner → Prop
  | pipeFailed (hpc : r.pc = .pipe) :
      Stepped enableTimeout r (.pipe none) { r with pc := .done (-1) }
  | piped {readEnd writeEnd : Int} (hpc : r.pc = .pipe) :
      Stepped enableTimeout r (.pipe (some (readEnd, writeEnd))) { r with
        pc := .fork writeEnd
        test := { r.test with run := { r.test.run with stdoutFd := readEnd } } }
  | forkFailed {writeEnd pid : Int} (hpc : r.pc = .fork writeEnd) (hpid : pid < 0) :
      Stepped enableTimeout r (.fork pid) { r with
        pc := .done (-1)
        test := { r.test with run := { r.test.run with pid := pid } } }
  | forked {writeEnd pid : Int} (hpc : r.pc = .fork writeEnd) (hpid : 0 < pid) :
      Stepped enableTimeout r (.fork pid) { r with
        pc := .sigaction
        test := { r.test with run := { r.test.run with pid := pid } }
        calls := r.calls ++ [.close writeEnd] }
  | sigactionFailed (hpc : r.pc = .sigaction) :
      Stepped enableTimeout r (.sigaction false) { r with pc := .done (-1) }
  | sigaction (hpc : r.pc = .sigaction) :
      Stepped enableTimeout r (.sigaction true) { r with pc := .start }
  | start {tv : Timeval} (hpc : r.pc = .start) :
      Stepped enableTimeout r (.clock tv) { r with
        pc := .wait, deadline := { tv with sec := tv.sec + r.test.timeout } }
  | waitidFailed (hpc : r.pc = .wait) :
      Stepped enableTimeout r .waitidError (finish (waited r .wait) (-1))
  | running (hpc : r.pc = .wait) : Stepped enableTimeout r .running (waited r .clock)
  | reaped {info : Siginfo} {r' : Runner} (hpc : r.pc = .wait)
      (h : reap (waited r .wait) info = some r') : Stepped enableTimeout r (.reaped info) r'
  | dmesg {rc : Int} {r' : Runner} (hpc : r.pc = .dmesg)
      (h : checkDmesg r rc = some r') : Stepped enableTimeout r (.dmesg rc) r'
  | clock {tv : Timeval} (hpc : r.pc = .clock) :
      Stepped enableTimeout r (.clock tv) (checkClock enableTimeout r tv)
  | pollError {timeout : Int} (hpc : r.pc = .poll timeout) :
      Stepped enableTimeout r .pollError (polled r timeout .wait)
  | pollTimeout {timeout : Int} (hpc : r.pc = .poll timeout) :
      Stepped enableTimeout r .pollTimeout (polled r timeout .wait)
  | pollErr {timeout : Int} {fresh : Option (Nat → UInt8)} (hpc : r.pc = .poll timeout)
      (hfd : 0 < r.test.run.stdoutFd) :
      Stepped enableTimeout r (.pollReady true fresh) (polled r timeout .wait)
  | pollReady {timeout : Int} {fresh : Option (Nat → UInt8)} (hpc : r.pc = .poll timeout)
      (hfd : 0 < r.test.run.stdoutFd) :
      Stepped enableTimeout r (.pollReady false fresh) (polled
        { r with test := { r.test with output := growOutput r.test.output fresh } }
        timeout .read)
  | readError (hpc : r.pc = .read) :
      Stepped enableTimeout r .readError (readDone r r.test.output)
  | readData {d : Bytes} {o : Output} (hpc : r.pc = .read)
      (ho : storeOutput r.test.output d = some o) :
      Stepped enableTimeout r (.readData d) (readDone r o)

/-- **A step is one of the branches.** -/
theorem step_cases (h : step enableTimeout r a = some r') : Stepped enableTimeout r a r' := by
  unfold step at h
  cases hpc : r.pc with
  | pipe =>
      rw [hpc] at h
      cases a with
      | pipe fds =>
          cases fds with
          | none => exact Option.some.inj h ▸ .pipeFailed hpc
          | some fds => exact Option.some.inj h ▸ .piped hpc
      | _ => exact nomatch h
  | fork writeEnd =>
      rw [hpc] at h
      cases a with
      | fork pid =>
          dsimp only at h
          split at h
          · next hneg => exact Option.some.inj h ▸ .forkFailed hpc hneg
          · split at h
            · exact nomatch h
            · exact Option.some.inj h ▸ .forked hpc (by omega)
      | _ => exact nomatch h
  | sigaction =>
      rw [hpc] at h
      cases a with
      | sigaction ok =>
          cases ok with
          | true => exact Option.some.inj h ▸ .sigaction hpc
          | false => exact Option.some.inj h ▸ .sigactionFailed hpc
      | _ => exact nomatch h
  | start =>
      rw [hpc] at h
      cases a with
      | clock tv => exact Option.some.inj h ▸ .start hpc
      | _ => exact nomatch h
  | wait =>
      rw [hpc] at h
      cases a with
      | waitidError => exact Option.some.inj h ▸ .waitidFailed hpc
      | running => exact Option.some.inj h ▸ .running hpc
      | reaped info => exact .reaped hpc h
      | _ => exact nomatch h
  | dmesg =>
      rw [hpc] at h
      cases a with
      | dmesg rc => exact .dmesg hpc h
      | _ => exact nomatch h
  | clock =>
      rw [hpc] at h
      cases a with
      | clock tv => exact Option.some.inj h ▸ .clock hpc
      | _ => exact nomatch h
  | poll timeout =>
      rw [hpc] at h
      cases a with
      | pollError => exact Option.some.inj h ▸ .pollError hpc
      | pollTimeout => exact Option.some.inj h ▸ .pollTimeout hpc
      | pollReady pollerr fresh =>
          dsimp only at h
          split at h
          · exact nomatch h
          · next hfd =>
              cases pollerr with
              | true => exact Option.some.inj h ▸ .pollErr hpc (Int.not_le.mp hfd)
              | false => exact Option.some.inj h ▸ .pollReady hpc (Int.not_le.mp hfd)
      | _ => exact nomatch h
  | read =>
      rw [hpc] at h
      cases a with
      | readError => exact Option.some.inj h ▸ .readError hpc
      | readData d =>
          obtain ⟨o, ho, hr⟩ := Option.map_eq_some_iff.mp h
          exact hr ▸ .readData hpc ho
      | _ => exact nomatch h
  | done rc => rw [hpc] at h; exact nomatch h

/-- What a step does to the test: nothing beyond its `run`, or room for more
    output, or more output, or the reap, or the log check. -/
inductive StepKind (r r' : Runner) : Answer → Prop
  | quiet {a : Answer} (hreap : ∀ info, a ≠ .reaped info)
      (hread : ∀ d, a ≠ .readData d)
      (htest : r'.test = { r.test with run := r'.test.run })
      (hpc : r'.pc.live = true ∨ r'.pc = .done (-1)) : StepKind r r' a
  | grow {fresh : Option (Nat → UInt8)}
      (htest : r'.test = { r.test with output := growOutput r.test.output fresh })
      (hpc : r'.pc.live = true) : StepKind r r' (.pollReady false fresh)
  | store {d : Bytes} {o : Output} (ho : storeOutput r.test.output d = some o)
      (htest : r'.test = { r.test with output := o }) (hpc : r'.pc.live = true) :
      StepKind r r' (.readData d)
  | reap {info : Siginfo} (h : reap (waited r .wait) info = some r') :
      StepKind r r' (.reaped info)
  | check {rc : Int} (hpc : r.pc = .dmesg) (h : checkDmesg r rc = some r') :
      StepKind r r' (.dmesg rc)

/-- **One step, said once.** -/
theorem step_kind (h : step enableTimeout r a = some r') : StepKind r r' a := by
  cases step_cases h with
  | pipeFailed hpc => exact .quiet (by simp) (by simp) rfl (Or.inr rfl)
  | piped hpc => exact .quiet (by simp) (by simp) rfl (Or.inl rfl)
  | forkFailed hpc hpid => exact .quiet (by simp) (by simp) rfl (Or.inr rfl)
  | forked hpc hpid => exact .quiet (by simp) (by simp) rfl (Or.inl rfl)
  | sigactionFailed hpc => exact .quiet (by simp) (by simp) rfl (Or.inr rfl)
  | sigaction hpc => exact .quiet (by simp) (by simp) rfl (Or.inl rfl)
  | start hpc => exact .quiet (by simp) (by simp) rfl (Or.inl rfl)
  | waitidFailed hpc => exact .quiet (by simp) (by simp) rfl (Or.inr rfl)
  | running hpc => exact .quiet (by simp) (by simp) rfl (Or.inl rfl)
  | reaped hpc hreap => exact .reap hreap
  | dmesg hpc hcheck => exact .check hpc hcheck
  | clock hpc => exact .quiet (by simp) (by simp) rfl (Or.inl rfl)
  | pollError hpc => exact .quiet (by simp) (by simp) rfl (Or.inl rfl)
  | pollTimeout hpc => exact .quiet (by simp) (by simp) rfl (Or.inl rfl)
  | pollErr hpc hfd => exact .quiet (by simp) (by simp) rfl (Or.inl rfl)
  | pollReady hpc hfd => exact .grow rfl rfl
  | readError hpc => exact .quiet (by simp) (by simp) rfl (Or.inl rfl)
  | readData hpc ho => exact .store ho rfl rfl

/-- Before the reap a step keeps the configuration and the result, and gives up
    at most with -1. -/
theorem step_live (h : step enableTimeout r a = some r')
    (hl : r.pc.live = true) :
    (r'.test.result = r.test.result ∧ config r'.test = config r.test
      ∧ (∀ info, a ≠ .reaped info)
      ∧ (r'.pc.live = true ∨ r'.pc = .done (-1)))
    ∨ ∃ info, a = .reaped info ∧ reap (waited r .wait) info = some r' := by
  cases step_kind h with
  | quiet hreap _ htest hpc =>
      rw [htest]
      exact Or.inl ⟨rfl, rfl, hreap, hpc⟩
  | grow htest hpc =>
      rw [htest]
      exact Or.inl ⟨rfl, rfl, (fun _ hx => nomatch hx), Or.inl hpc⟩
  | store _ htest hpc =>
      rw [htest]
      exact Or.inl ⟨rfl, rfl, (fun _ hx => nomatch hx), Or.inl hpc⟩
  | reap hreap => exact Or.inr ⟨_, rfl, hreap⟩
  | check hpc _ => rw [hpc] at hl; exact nomatch hl

/-- Behind the reap there is at most the log check. -/
theorem step_settled (h : step enableTimeout r a = some r')
    (hl : r.pc.live = false) :
    ∃ rc, a = .dmesg rc ∧ checkDmesg r rc = some r' := by
  unfold step at h
  cases hpc : r.pc with
  | dmesg =>
      rw [hpc] at h
      cases a with
      | dmesg rc => exact ⟨rc, rfl, h⟩
      | _ => exact nomatch h
  | done rc => rw [hpc] at h; exact nomatch h
  | _ => rw [hpc] at hl; exact nomatch hl

/-- A runner that has returned takes no answer. -/
theorem step_done {rc : Int32} (hpc : r.pc = .done rc) (a : Answer) :
    step enableTimeout r a = none := by
  unfold step
  rw [hpc]

/-- A verdict ends the run with its result and keeps the configuration. -/
theorem conclude_eq_some {v : Option (Test × Bytes)} {rc : Int32}
    {res : TestResult}
    (hv : ∀ {t out}, v = some (t, out) → t = { r.test with result := res })
    (h : conclude r v rc = some r') :
    r'.pc = .done rc ∧ r'.test.result = res ∧ config r'.test = config r.test := by
  obtain ⟨⟨t, out⟩, hvt, rfl⟩ := Option.map_eq_some_iff.mp h
  obtain rfl := hv hvt
  exact ⟨rfl, rfl, rfl⟩

end Step

section Output

variable {enableTimeout : Bool} {r r' : Runner} {a : Answer}

/-- What the reap leads to: the way out of the loop, with a result, or the log
    check. -/
inductive Leaves (r r' : Runner) : Prop
  | out {res : TestResult} {out : Bytes} {rc : Int32}
      (h : r' = finish { r with
        test := clearPid { r.test with result := res }, stdout := r.stdout ++ out } rc)
  | log (h : r' = { r with pc := .dmesg })

theorem conclude_leaves {v : Option (Test × Bytes)} {rc : Int32} {res : TestResult}
    (hv : ∀ {t out}, v = some (t, out) → t = { r.test with result := res })
    (h : conclude r v rc = some r') : Leaves r r' := by
  obtain ⟨⟨t, out⟩, hvt, rfl⟩ := Option.map_eq_some_iff.mp h
  obtain rfl := hv hvt
  exact .out rfl

theorem reap_leaves {info : Siginfo} (h : reap r info = some r') : Leaves r r' := by
  rw [reap] at h
  split at h
  · split at h
    · exact conclude_leaves testFail_record h
    · split at h
      · exact conclude_leaves testFail_record h
      · exact .log (Option.some.inj h).symm
  · split at h
    · exact conclude_leaves testPass_record h
    · split at h
      · exact conclude_leaves testFail_record h
      · exact conclude_leaves testFail_record h
  · rw [← Option.some.inj h]
    refine @Leaves.out _ _ r.test.result [] 0 ?_
    rw [List.append_nil]

theorem checkDmesg_leaves {rc : Int} (h : checkDmesg r rc = some r') : Leaves r r' := by
  rw [checkDmesg] at h
  split at h
  · exact conclude_leaves testFail_record h
  · exact conclude_leaves testPass_record h

/-- What the reap leads to leaves the captured output alone. -/
theorem Leaves.output (h : Leaves r r') : r'.test.output = r.test.output := by
  cases h with
  | out h => rw [h]; rfl
  | log h => rw [h]

theorem Leaves.not_live (h : Leaves r r') : r'.pc.live = false := by
  cases h with
  | out h => rw [h]; rfl
  | log h => rw [h]; rfl

end Output

/-! ## Every way to return -/

/-- What `waitid` reported when it reaped the child. -/
def reapedOf : List Answer → Option Siginfo
  | [] => none
  | .reaped info :: _ => some info
  | _ :: as => reapedOf as

theorem reapedOf_append {as : List Answer} (bs : List Answer)
    (h : reapedOf as = none) : reapedOf (as ++ bs) = reapedOf bs := by
  induction as with
  | nil => rfl
  | cons a as ih =>
      cases a with
      | reaped info => exact nomatch h
      | _ => exact ih h

theorem reapedOf_none {as : List Answer}
    (h : ∀ a ∈ as, ∀ info, a ≠ .reaped info) : reapedOf as = none := by
  induction as with
  | nil => rfl
  | cons a as ih =>
      have ha := h a List.mem_cons_self
      have has := ih (fun b hb => h b (List.mem_cons_of_mem _ hb))
      cases a with
      | reaped info => exact absurd rfl (ha info)
      | _ => exact has

/-- The ways in which the run of a test that is configured as `t` can end: the
    answers from the reap on, the value returned, and the result. -/
inductive Ending (t : Test) : List Answer → Int32 → TestResult → Prop
  /-- No child was reaped. -/
  | gaveUp : Ending t [] (-1) t.result
  | wrongExit {st : Int} (h : st ≠ t.expectedRc ∨ t.expectedSig ≠ 0) :
      Ending t [.reaped ⟨.exited, st⟩] (-1) .failed
  | badLog {d : Int} (hsig : t.expectedSig = 0) (hd : d ≠ 0) :
      Ending t [.reaped ⟨.exited, t.expectedRc⟩, .dmesg d] (-1) .failed
  | exitPass (hsig : t.expectedSig = 0) :
      Ending t [.reaped ⟨.exited, t.expectedRc⟩, .dmesg 0] 0 .passed
  | wrongSignal {st : Int} (h : st ≠ t.expectedSig) :
      Ending t [.reaped ⟨.killed, st⟩] (-1) .failed
  | signalPass : Ending t [.reaped ⟨.killed, t.expectedSig⟩] 0 .passed
  /-- The child left a core file: no verdict. -/
  | dumped {st : Int} : Ending t [.reaped ⟨.dumped, st⟩] 0 t.result

/-- The ending looks at the expectations and the result alone. -/
theorem Ending.congr {t t' : Test} {as : List Answer} {rc : Int32}
    {res : TestResult} (hcfg : config t = config t')
    (hres : t.result = t'.result) (h : Ending t as rc res) :
    Ending t' as rc res := by
  have hrc : t.expectedRc = t'.expectedRc :=
    show (config t).expectedRc = (config t').expectedRc by rw [hcfg]
  have hsig : t.expectedSig = t'.expectedSig :=
    show (config t).expectedSig = (config t').expectedSig by rw [hcfg]
  cases h with
  | gaveUp => rw [hres]; exact .gaveUp
  | wrongExit hst => rw [hrc, hsig] at hst; exact .wrongExit hst
  | badLog hs hd => rw [hsig] at hs; rw [hrc]; exact .badLog hs hd
  | exitPass hs => rw [hsig] at hs; rw [hrc]; exact .exitPass hs
  | wrongSignal hst => rw [hsig] at hst; exact .wrongSignal hst
  | signalPass => rw [hsig]; exact .signalPass
  | dumped => rw [hres]; exact .dumped

section Run

variable {enableTimeout : Bool} {r r' : Runner} {rc : Int32}

/-- From the log check on. -/
theorem dmesg_ends {as : List Answer} (h : run (step enableTimeout) r as = some r')
    (hpc : r.pc = .dmesg) (hd : r'.pc = .done rc) :
    config r'.test = config r.test ∧ ∃ d, as = [.dmesg d]
      ∧ ((d = 0 ∧ rc = 0 ∧ r'.test.result = .passed)
        ∨ (d ≠ 0 ∧ rc = -1 ∧ r'.test.result = .failed)) := by
  cases as with
  | nil =>
      rw [← Option.some.inj h, hpc] at hd
      exact nomatch hd
  | cons a as =>
      obtain ⟨r₁, hs, hr⟩ := run_cons.mp h
      obtain ⟨d, rfl, hcheck⟩ := step_settled hs (by rw [hpc]; rfl)
      rw [checkDmesg] at hcheck
      by_cases hd0 : d = 0
      · rw [if_neg (not_not_intro hd0)] at hcheck
        obtain ⟨hpc₁, hres, hcfg⟩ := conclude_eq_some testPass_record hcheck
        obtain ⟨rfl, rfl⟩ := run_stuck (step_done hpc₁) hr
        rw [hpc₁] at hd
        exact ⟨hcfg, d, rfl, Or.inl ⟨hd0, (Pc.done.inj hd).symm, hres⟩⟩
      · rw [if_pos hd0] at hcheck
        obtain ⟨hpc₁, hres, hcfg⟩ := conclude_eq_some testFail_record hcheck
        obtain ⟨rfl, rfl⟩ := run_stuck (step_done hpc₁) hr
        rw [hpc₁] at hd
        exact ⟨hcfg, d, rfl, Or.inr ⟨hd0, (Pc.done.inj hd).symm, hres⟩⟩

/-- From the reap on. -/
theorem reap_ends {r₁ : Runner} {info : Siginfo} {as : List Answer}
    (hreap : reap r info = some r₁) (h : run (step enableTimeout) r₁ as = some r')
    (hd : r'.pc = .done rc) :
    config r'.test = config r.test
      ∧ Ending r.test (.reaped info :: as) rc r'.test.result := by
  -- a verdict without a further question
  have hend : ∀ {rc₁ : Int32} {res : TestResult}, r₁.pc = .done rc₁ →
      r₁.test.result = res → config r₁.test = config r.test →
      Ending r.test [.reaped info] rc₁ res →
      config r'.test = config r.test
        ∧ Ending r.test (.reaped info :: as) rc r'.test.result := by
    intro rc₁ res hpc hres hcfg hending
    obtain ⟨rfl, rfl⟩ := run_stuck (step_done hpc) h
    rw [hpc] at hd
    rw [← Pc.done.inj hd, hres]
    exact ⟨hcfg, hending⟩
  obtain ⟨code, st⟩ := info
  rw [reap] at hreap
  cases code with
  | exited =>
      dsimp only at hreap
      by_cases hst : st = r.test.expectedRc
      · rw [if_neg (not_not_intro hst)] at hreap
        by_cases hsig : r.test.expectedSig = 0
        · rw [if_neg (not_not_intro hsig)] at hreap
          have hr₁ := Option.some.inj hreap
          obtain ⟨hcfg, d, rfl, ⟨rfl, rfl, hres⟩ | ⟨hd0, rfl, hres⟩⟩ :=
            dmesg_ends h (hr₁ ▸ rfl) hd
          · rw [hres, hst]
            exact ⟨hcfg.trans (hr₁ ▸ rfl), .exitPass hsig⟩
          · rw [hres, hst]
            exact ⟨hcfg.trans (hr₁ ▸ rfl), .badLog hsig hd0⟩
        · rw [if_pos hsig] at hreap
          obtain ⟨hpc, hres, hcfg⟩ := conclude_eq_some testFail_record hreap
          exact hend hpc hres hcfg (.wrongExit (Or.inr hsig))
      · rw [if_pos hst] at hreap
        obtain ⟨hpc, hres, hcfg⟩ := conclude_eq_some testFail_record hreap
        exact hend hpc hres hcfg (.wrongExit (Or.inl hst))
  | killed =>
      dsimp only at hreap
      by_cases hst : st = r.test.expectedSig
      · rw [if_pos hst] at hreap
        obtain ⟨hpc, hres, hcfg⟩ := conclude_eq_some testPass_record hreap
        exact hend hpc hres hcfg (hst ▸ .signalPass)
      · rw [if_neg hst] at hreap
        split at hreap
        · obtain ⟨hpc, hres, hcfg⟩ := conclude_eq_some testFail_record hreap
          exact hend hpc hres hcfg (.wrongSignal hst)
        · obtain ⟨hpc, hres, hcfg⟩ := conclude_eq_some testFail_record hreap
          exact hend hpc hres hcfg (.wrongSignal hst)
  | dumped =>
      have hr₁ := Option.some.inj hreap
      exact hend (hr₁ ▸ rfl) (hr₁ ▸ rfl) (hr₁ ▸ rfl) .dumped

/-- **There is no other way to return**: a run that returns keeps the
    configuration and ends in one of the ways of `Ending`. -/
theorem run_ends {as : List Answer} (h : run (step enableTimeout) r as = some r')
    (hl : r.pc.live = true) (hd : r'.pc = .done rc) :
    config r'.test = config r.test ∧ ∃ pre suf, as = pre ++ suf
      ∧ reapedOf pre = none ∧ Ending r.test suf rc r'.test.result := by
  obtain ⟨pre, a, post, r₁, r₂, rfl, -, hpre, ⟨hl₁, hres₁, hcfg₁⟩, hstep, hout, hpost⟩ :=
    run_leaves (P := fun u => u.pc.live = true ∧ u.test.result = r.test.result
      ∧ config u.test = config r.test) h ⟨hl, rfl, rfl⟩
      (by rintro ⟨hl', -⟩; rw [hd] at hl'; exact nomatch hl')
  have hno : reapedOf pre = none := by
    refine reapedOf_none ?_
    rintro b hb info rfl
    obtain ⟨u, v, ⟨hlu, -⟩, hs, hlv, -⟩ := hpre _ hb
    rcases step_live hs hlu with ⟨-, -, hne, -⟩ | ⟨info', -, hreap⟩
    · exact hne info rfl
    · rw [(reap_leaves hreap).not_live] at hlv
      exact nomatch hlv
  rcases step_live hstep hl₁ with ⟨hres, hcfg, ha, hpc⟩ | ⟨info, rfl, hreap⟩
  · rcases hpc with hpc | hpc
    · exact absurd ⟨hpc, hres.trans hres₁, hcfg.trans hcfg₁⟩ hout
    · obtain ⟨rfl, rfl⟩ := run_stuck (step_done hpc) hpost
      rw [hpc] at hd
      refine ⟨hcfg.trans hcfg₁, pre ++ [a], [], (List.append_nil _).symm, ?_, ?_⟩
      · rw [reapedOf_append _ hno]
        exact reapedOf_none (fun b hb => by rw [List.mem_singleton.mp hb]; exact ha)
      · rw [← Pc.done.inj hd, hres, hres₁]
        exact .gaveUp
  · obtain ⟨hcfg, hending⟩ := reap_ends hreap hpost hd
    exact ⟨hcfg.trans hcfg₁, pre, _, rfl, hno, hending.congr hcfg₁ hres₁⟩

end Run

/-! ## `run_test` -/

section RunTest

variable {W : Type}

/-- What `run_test` meets: the files, the local array of `test_read_config`
    before and after its death, and the answers of the system calls. -/
structure Script where
  fs      : Bytes → ConfFile
  frame   : Frame
  dead    : Bytes
  answers : List Answer

/-- What `run_test` leaves. -/
structure Outcome (W : Type) where
  rc     : Int32
  test   : Test
  stdout : Bytes
  stderr : Bytes
  caps   : CapState W
  calls  : List Call

/-- The runner in front of `pipe`. -/
def startRunner (t : Test) (stdout : Bytes) : Runner :=
  ⟨.pipe, t, ⟨0, 0⟩, stdout, []⟩

/-- `run_test`; without a result it has not come back yet, or has left its
    memory.  A test that is skipped asks for no answer. -/
def runTest (enableTimeout : Bool) (sc : Script) (cs : CapState W) (t : Test) :
    Option (Outcome W) :=
  match testReadConfig sc.fs sc.frame t with
  | none => none
  | some (_, s) =>
      match testShouldRun s.test sc.dead cs with
      | none => none
      | some d =>
          let stdout := testHeader t ++ d.stdout
          if d.run then
            match run (step enableTimeout) (startRunner d.test stdout) sc.answers with
            | some ⟨.done rc, t', _, out, calls⟩ =>
                some ⟨rc, t', out, s.stderr, d.caps, calls⟩
            | _ => none
          else if sc.answers.isEmpty then
            some ⟨0, d.test, stdout, s.stderr, d.caps, []⟩
          else none

/-- What no configuration changes. -/
def unconfigured (t : Test) : TestType × Bytes × Run × Output × TestResult :=
  (t.type, t.path, t.run, t.output, t.result)

/-- Reading the configuration leaves the rest of the record alone. -/
theorem testReadConfig_unconfigured {fs : Bytes → ConfFile} {frame : Frame}
    {t : Test} {buf : Bytes} {s : ConfState}
    (h : testReadConfig fs frame t = some (buf, s)) :
    unconfigured s.test = unconfigured t := by
  have hword : ∀ (c : ConfState) (tok : Nat) (w : Bytes),
      unconfigured (handleWord c tok w).test = unconfigured c.test := by
    intro c tok w
    unfold handleWord
    repeat' split
    all_goals rfl
  have hline : ∀ {pattern buf buf' : Bytes} {c : Nat} {s s' : ConfState}
      {o : Option Nat}, confLine pattern buf c s = some (buf', s', o) →
      unconfigured s.test = unconfigured t →
      unconfigured s'.test = unconfigured t := by
    intro pattern buf buf' c s s' o hl hP
    obtain ⟨n, newline, -, -, -, ⟨-, -, rfl⟩ | ⟨k, -, htok⟩⟩ := confLine_cases hl
    · exact hP
    · refine tokens_preserves
        (P := fun _ c => unconfigured c.test = unconfigured t) id ?_ htok hP
      intro m i w z c c' hm h0 hf hc
      rw [handleTestconfToken_word c hm h0] at hf
      rw [← Option.some.inj hf, hword, hc]
  have hscan : ∀ {pattern b : Bytes}, confScan pattern b 0 ⟨t, []⟩ = some (buf, s) →
      unconfigured s.test = unconfigured t := fun hs =>
    confScan_preserves (P := fun _ c => unconfigured c.test = unconfigured t)
      hline hs rfl
  rw [testReadConfig] at h
  split at h
  · obtain ⟨-, rfl⟩ := Prod.mk.inj (Option.some.inj h)
    rfl
  · split at h
    · obtain ⟨-, rfl⟩ := Prod.mk.inj (Option.some.inj h)
      rfl
    · exact hscan h
    · exact hscan h

theorem testReadConfig_result {fs : Bytes → ConfFile} {frame : Frame} {t : Test}
    {buf : Bytes} {s : ConfState} (h : testReadConfig fs frame t = some (buf, s)) :
    s.test.result = t.result :=
  congrArg (fun u => u.2.2.2.2) (testReadConfig_unconfigured h)

/-- What `test_should_run` changes: a test that is skipped is marked so. -/
theorem testShouldRun_test {t : Test} {mem : Bytes} {cs : CapState W}
    {d : ShouldRun W} (h : testShouldRun t mem cs = some d) :
    (d.run = true ∧ d.test = t)
      ∨ (d.run = false ∧ d.test = { t with result := .skipped }) := by
  have hcaps : ∀ {rcs : List RequiredCap} {cs : CapState W},
      requireCaps t mem rcs cs = some d →
      (d.run = true ∧ d.test = t)
        ∨ (d.run = false ∧ d.test = { t with result := .skipped }) := by
    intro rcs
    induction rcs with
    | nil =>
        intro cs h
        rw [← Option.some.inj h]
        exact Or.inl ⟨rfl, rfl⟩
    | cons rc rcs ih =>
        intro cs h
        rw [requireCaps] at h
        split at h
        · cases h
        · split at h
          · split at h
            · cases h
            · rw [← Option.some.inj h]
              exact Or.inr ⟨rfl, rfl⟩
          · exact ih h
  rw [testShouldRun] at h
  split at h
  · rw [← Option.some.inj h]
    exact Or.inr ⟨rfl, rfl⟩
  · exact hcaps h

/-- How `run_test` comes back from the configured test of `s`. -/
inductive Returned (enableTimeout : Bool) (sc : Script) (cs : CapState W) (t : Test)
    (s : ConfState) (o : Outcome W) : Prop
  | skipped {d : ShouldRun W} (hrun : testShouldRun s.test sc.dead cs = some d)
      (has : sc.answers = [])
      (ho : o = ⟨0, { s.test with result := .skipped }, testHeader t ++ d.stdout, s.stderr,
        d.caps, []⟩)
  | ran {d : ShouldRun W} {rc : Int32} {t' : Test} {deadline : Timeval} {out : Bytes}
      {calls : List Call} (hrun : testShouldRun s.test sc.dead cs = some d)
      (hres : run (step enableTimeout) (startRunner s.test (testHeader t ++ d.stdout))
        sc.answers = some ⟨.done rc, t', deadline, out, calls⟩)
      (ho : o = ⟨rc, t', out, s.stderr, d.caps, calls⟩)

/-- **`run_test`, taken apart once**: the test is skipped, or the automaton has
    run. -/
theorem runTest_cases {enableTimeout : Bool} {sc : Script} {cs : CapState W} {t : Test}
    {o : Outcome W} (h : runTest enableTimeout sc cs t = some o) :
    ∃ buf s, testReadConfig sc.fs sc.frame t = some (buf, s)
      ∧ Returned enableTimeout sc cs t s o := by
  rw [runTest] at h
  cases hread : testReadConfig sc.fs sc.frame t with
  | none => rw [hread] at h; exact nomatch h
  | some bs =>
      obtain ⟨buf, s⟩ := bs
      rw [hread] at h
      dsimp only at h
      refine ⟨buf, s, rfl, ?_⟩
      cases hrun : testShouldRun s.test sc.dead cs with
      | none => rw [hrun] at h; exact nomatch h
      | some d =>
          rw [hrun] at h
          dsimp only at h
          rcases testShouldRun_test hrun with ⟨hd, ht⟩ | ⟨hd, ht⟩
          · rw [if_pos hd, ht] at h
            split at h
            · next hres => exact .ran hrun hres (Option.some.inj h).symm
            · exact nomatch h
          · rw [if_neg (by rw [hd]; exact Bool.false_ne_true), ht] at h
            split at h
            · next hempty =>
                exact .skipped hrun (List.isEmpty_iff.mp hempty) (Option.some.inj h).symm
            · exact nomatch h

theorem Returned.decided {enableTimeout : Bool} {sc : Script} {cs : CapState W} {t : Test}
    {s : ConfState} {o : Outcome W} (h : Returned enableTimeout sc cs t s o) :
    ∃ d, testShouldRun s.test sc.dead cs = some d ∧ o.caps = d.caps := by
  cases h with
  | skipped hrun _ ho => exact ⟨_, hrun, by rw [ho]⟩
  | ran hrun _ ho => exact ⟨_, hrun, by rw [ho]⟩

/-- **Every way `run_test` comes back**: skipped, or with one of the endings of
    the configured test. -/
theorem runTest_ends {enableTimeout : Bool} {sc : Script} {cs : CapState W}
    {t : Test} {o : Outcome W} (h : runTest enableTimeout sc cs t = some o) :
    ∃ buf s, testReadConfig sc.fs sc.frame t = some (buf, s)
      ∧ config o.test = config s.test
      ∧ ((o.rc = 0 ∧ o.test.result = .skipped ∧ sc.answers = [])
        ∨ ∃ pre suf, sc.answers = pre ++ suf ∧ reapedOf pre = none
          ∧ Ending s.test suf o.rc o.test.result) := by
  obtain ⟨buf, s, hread, hret⟩ := runTest_cases h
  refine ⟨buf, s, hread, ?_⟩
  cases hret with
  | skipped _ has ho =>
      rw [ho]
      exact ⟨rfl, Or.inl ⟨rfl, rfl, has⟩⟩
  | ran _ hres ho =>
      obtain ⟨hcfg, pre, suf, has, hpre, hend⟩ := run_ends hres rfl rfl
      rw [ho]
      exact ⟨hcfg, Or.inr ⟨pre, suf, has, hpre, hend⟩⟩

end RunTest

end SpufsRunTest
