import SpufsTestsuite.ChildProofs

/-! # Timeouts — what becomes of a test that has been sent `SIGALRM`

    The loop of `run_test` reads the clock in every turn and sends the child
    `SIGALRM` when the deadline has passed (`run_kills`).  That it has done so
    is not kept anywhere: the verdict looks at the way the child ended, and a
    child may end as configured all the same.

    A test that has timed out fails exactly when its end is one that fails
    every test of this configuration (`runTest_timeout`). -/

namespace SpufsTimeout

open CString SpufsTest SpufsConfScan SpufsCapability SpufsShouldRun SpufsRunTest
open SpufsRunTests SpufsChild Automaton

/-! ## The clock and the signal -/

def Answer.clock? : Answer → Option Timeval
  | .clock tv => some tv
  | _ => none

/-- The readings of the clock. -/
def clocks (answers : List Answer) : List Timeval := answers.filterMap Answer.clock?

/-- `SIGALRM` has been sent to the child. -/
def Signalled (calls : List Call) : Prop := ∃ pid, Call.kill pid sigalrm ∈ calls

/-- The first reading sets the deadline, and a later one is behind it. -/
def TimedOut (timeout : Int) (answers : List Answer) : Prop :=
  ∃ start later, clocks answers = start :: later
    ∧ ∃ tv ∈ later, tv.after { start with sec := start.sec + timeout } = true

/-- The deadline has been set. -/
def Pc.timed : Pc → Bool
  | .pipe | .fork _ | .sigaction | .start => false
  | _ => true

theorem Signalled.append {a b : List Call} :
    Signalled (a ++ b) ↔ Signalled a ∨ Signalled b := by
  simp only [Signalled, List.mem_append, exists_or]

theorem not_signalled_close (fd : Int) : ¬ Signalled [.close fd] := by
  simp [Signalled]

theorem not_signalled_waitid (pid : Int) : ¬ Signalled [.waitid pid] := by
  simp [Signalled]

section Step

variable {enableTimeout : Bool} {r r' : Runner} {a : Answer}

/-- What a step has to do with the deadline: it sets it, it looks at the clock,
    or it leaves it alone and sends no signal. -/
inductive TimeKind (enableTimeout : Bool) (r r' : Runner) : Answer → Prop
  | start {tv : Timeval} (hpc : r.pc = .start) (hcalls : r'.calls = r.calls)
      (hdead : r'.deadline = { tv with sec := tv.sec + r.test.timeout })
      (htimed : Pc.timed r'.pc = true) : TimeKind enableTimeout r r' (.clock tv)
  | check {tv : Timeval} (hpc : r.pc = .clock)
      (hcalls : r'.calls = r.calls ++
        if enableTimeout && tv.after r.deadline then [.kill r.test.run.pid sigalrm] else [])
      (hdead : r'.deadline = r.deadline)
      (htimed : Pc.timed r'.pc = true) : TimeKind enableTimeout r r' (.clock tv)
  | other {a : Answer} (ha : Answer.clock? a = none)
      (hcalls : ∃ new, r'.calls = r.calls ++ new ∧ ¬ Signalled new)
      (hdead : r'.deadline = r.deadline)
      (htimed : Pc.timed r'.pc = Pc.timed r.pc ∨ r'.pc = .done (-1)) :
      TimeKind enableTimeout r r' a

/-- Behind the reap no signal is sent. -/
theorem Leaves.quiet (h : Leaves r r') :
    (∃ new, r'.calls = r.calls ++ new ∧ ¬ Signalled new)
      ∧ r'.deadline = r.deadline ∧ Pc.timed r'.pc = true := by
  cases h with
  | out h =>
      rw [h]
      exact ⟨⟨_, rfl, not_signalled_close _⟩, rfl, rfl⟩
  | log h =>
      rw [h]
      exact ⟨⟨[], (List.append_nil _).symm, by simp [Signalled]⟩, rfl, rfl⟩

/-- **One step and the clock, said once.** -/
theorem step_time (h : step enableTimeout r a = some r') :
    TimeKind enableTimeout r r' a := by
  -- most steps add at most one call, which is not a signal
  have hsilent : ∃ new, r.calls = r.calls ++ new ∧ ¬ Signalled new :=
    ⟨[], (List.append_nil _).symm, by simp [Signalled]⟩
  have hcall : ∀ {c : Call}, ¬ Signalled [c] →
      ∃ new, r.calls ++ [c] = r.calls ++ new ∧ ¬ Signalled new := fun hc => ⟨_, rfl, hc⟩
  have hpoll : ∀ fd t, ¬ Signalled [Call.poll fd t] := fun fd t => by simp [Signalled]
  have hread : ∀ fd n, ¬ Signalled [Call.read fd n] := fun fd n => by simp [Signalled]
  cases step_cases h with
  | pipeFailed hpc => exact .other rfl hsilent rfl (Or.inr rfl)
  | piped hpc => exact .other rfl hsilent rfl (Or.inl (by rw [hpc]; rfl))
  | forkFailed hpc hpid => exact .other rfl hsilent rfl (Or.inr rfl)
  | forked hpc hpid =>
      exact .other rfl (hcall (not_signalled_close _)) rfl (Or.inl (by rw [hpc]; rfl))
  | sigactionFailed hpc => exact .other rfl hsilent rfl (Or.inr rfl)
  | sigaction hpc => exact .other rfl hsilent rfl (Or.inl (by rw [hpc]; rfl))
  | start hpc => exact .start hpc rfl rfl rfl
  | waitidFailed hpc =>
      refine .other rfl ⟨_, List.append_assoc _ _ _, ?_⟩ rfl (Or.inr rfl)
      rw [Signalled.append]
      exact fun hs => hs.elim (not_signalled_waitid _) (not_signalled_close _)
  | running hpc =>
      exact .other rfl (hcall (not_signalled_waitid _)) rfl (Or.inl (by rw [hpc]; rfl))
  | reaped hpc hreap =>
      obtain ⟨⟨new, hcalls, hnew⟩, hdead, htimed⟩ := Leaves.quiet (reap_leaves hreap)
      refine .other rfl ⟨_, hcalls.trans (List.append_assoc _ _ _), ?_⟩ hdead
        (Or.inl (by rw [htimed, hpc]; rfl))
      rw [Signalled.append]
      exact fun hs => hs.elim (not_signalled_waitid _) hnew
  | dmesg hpc hcheck =>
      obtain ⟨hcalls, hdead, htimed⟩ := Leaves.quiet (checkDmesg_leaves hcheck)
      exact .other rfl hcalls hdead (Or.inl (by rw [htimed, hpc]; rfl))
  | clock hpc => exact .check hpc rfl rfl rfl
  | pollError hpc => exact .other rfl (hcall (hpoll _ _)) rfl (Or.inl (by rw [hpc]; rfl))
  | pollTimeout hpc => exact .other rfl (hcall (hpoll _ _)) rfl (Or.inl (by rw [hpc]; rfl))
  | pollErr hpc hfd => exact .other rfl (hcall (hpoll _ _)) rfl (Or.inl (by rw [hpc]; rfl))
  | pollReady hpc hfd => exact .other rfl (hcall (hpoll _ _)) rfl (Or.inl (by rw [hpc]; rfl))
  | readError hpc => exact .other rfl (hcall (hread _ _)) rfl (Or.inl (by rw [hpc]; rfl))
  | readData hpc ho => exact .other rfl (hcall (hread _ _)) rfl (Or.inl (by rw [hpc]; rfl))

/-- What is done before the deadline is set leaves the timeout alone. -/
theorem timeout_kept (h : step enableTimeout r a = some r')
    (htimed : Pc.timed r.pc = false) : r'.test.timeout = r.test.timeout := by
  cases step_cases h with
  | reaped hpc => rw [hpc] at htimed; exact nomatch htimed
  | dmesg hpc => rw [hpc] at htimed; exact nomatch htimed
  | _ => rfl

end Step

/-! ## Runs -/

section Run

variable {enableTimeout : Bool} {r r' : Runner} {as : List Answer}

theorem clocks_cons (a : Answer) (as : List Answer) :
    clocks (a :: as) = (Answer.clock? a).toList ++ clocks as := by
  cases a <;> rfl

/-- From the deadline on, the signals sent are for the readings behind it. -/
theorem run_timed (h : run (step enableTimeout) r as = some r')
    (htimed : Pc.timed r.pc = true) :
    Signalled r'.calls ↔ Signalled r.calls
      ∨ (enableTimeout = true ∧ ∃ tv ∈ clocks as, tv.after r.deadline = true) := by
  induction as generalizing r with
  | nil =>
      rw [← Option.some.inj h]
      refine (or_iff_left ?_).symm
      rintro ⟨-, tv, htv, -⟩
      exact nomatch htv
  | cons a as ih =>
      obtain ⟨r₁, hs, hr⟩ := run_cons.mp h
      cases step_time hs with
      | start hpc => rw [hpc] at htimed; exact nomatch htimed
      | @check tv hpc hcalls hdead ht =>
          rw [ih hr ht, hcalls, hdead, Signalled.append, or_assoc, clocks_cons]
          refine or_congr_right ?_
          simp only [Answer.clock?, Option.toList_some, List.singleton_append,
            List.mem_cons, exists_eq_or_imp]
          cases enableTimeout <;> cases tv.after r.deadline <;> simp [Signalled]
      | other ha hcalls hdead ht =>
          obtain ⟨new, hcalls, hnew⟩ := hcalls
          have ht₁ : Pc.timed r₁.pc = true := by
            rcases ht with ht | ht
            · exact ht.trans htimed
            · rw [ht]
              rfl
          rw [ih hr ht₁, hcalls, hdead, Signalled.append, or_iff_left hnew, clocks_cons, ha]
          rfl

/-- **`SIGALRM` is sent exactly when the deadline has passed**, and only with
    timeouts enabled. -/
theorem run_kills (h : run (step enableTimeout) r as = some r')
    (htimed : Pc.timed r.pc = false) (hquiet : ¬ Signalled r.calls) :
    Signalled r'.calls ↔ enableTimeout = true ∧ TimedOut r.test.timeout as := by
  induction as generalizing r with
  | nil =>
      rw [← Option.some.inj h]
      refine (iff_false_left hquiet).mpr ?_
      rintro ⟨-, start, later, hc, -⟩
      exact nomatch hc
  | cons a as ih =>
      obtain ⟨r₁, hs, hr⟩ := run_cons.mp h
      cases step_time hs with
      | @start tv hpc hcalls hdead ht =>
          rw [run_timed hr ht, hcalls, or_iff_right hquiet, hdead]
          refine and_congr_right (fun _ => ?_)
          constructor
          · intro hlate
            exact ⟨tv, clocks as, rfl, hlate⟩
          · rintro ⟨start, later, hc, hlate⟩
            obtain ⟨rfl, rfl⟩ := List.cons.inj hc
            exact hlate
      | check hpc => rw [hpc] at htimed; exact nomatch htimed
      | other ha hcalls _ ht =>
          obtain ⟨new, hcalls, hnew⟩ := hcalls
          have hquiet₁ : ¬ Signalled r₁.calls := by
            rw [hcalls, Signalled.append]
            exact fun hx => hx.elim hquiet hnew
          have hclocks : clocks (a :: as) = clocks as := by
            rw [clocks_cons, ha]
            rfl
          have htimeout := timeout_kept hs htimed
          rcases ht with ht | ht
          · rw [ih hr (ht.trans htimed) hquiet₁, TimedOut, TimedOut, hclocks, htimeout]
          · obtain ⟨rfl, rfl⟩ := run_stuck (step_done ht) hr
            refine (iff_false_left hquiet₁).mpr ?_
            rintro ⟨-, start, later, hc, -⟩
            rw [hclocks] at hc
            exact nomatch hc

end Run

/-! ## The verdict behind a timeout -/

/-- The child was reaped, and its end is one that fails the test: an exit with
    another status, with a signal expected, or with a log that is not clean, or
    a death by another signal, without a core file. -/
inductive EndFails (t : Test) (answers : List Answer) : Prop
  | exit {st : Int} (h : reapedOf answers = some ⟨.exited, st⟩)
      (hst : st ≠ t.expectedRc ∨ t.expectedSig ≠ 0
        ∨ answers.getLast? ≠ some (.dmesg 0))
  | signal {sig : Int} (h : reapedOf answers = some ⟨.killed, sig⟩)
      (hsig : sig ≠ t.expectedSig)

/-- **An end that fails the test is what the result says.** -/
theorem ending_fails {t : Test} {pre suf : List Answer} {rc : Int32} {res : TestResult}
    (hnew : t.result = .notrun) (hpre : reapedOf pre = none) (h : Ending t suf rc res) :
    (res = .failed ∧ rc ≠ 0) ↔ EndFails t (pre ++ suf) := by
  have hreaped := reapedOf_append suf hpre
  have hone : (-1 : Int32) ≠ 0 := by decide
  -- an end of another kind is not one that fails
  have hnot : ∀ {info : Option Siginfo}, reapedOf suf = info →
      (∀ st, info ≠ some ⟨.exited, st⟩) → (∀ sig, info ≠ some ⟨.killed, sig⟩) →
      ¬ EndFails t (pre ++ suf) := by
    intro info hinfo hexit hkill hf
    cases hf with
    | exit hx => exact hexit _ (hinfo ▸ hreaped ▸ hx)
    | signal hx => exact hkill _ (hinfo ▸ hreaped ▸ hx)
  cases h with
  | gaveUp =>
      refine (iff_false_left ?_).mpr
        (hnot rfl (fun _ hx => nomatch hx) (fun _ hx => nomatch hx))
      rw [hnew]
      exact fun hx => nomatch hx.1
  | wrongExit hst =>
      exact iff_of_true ⟨rfl, hone⟩ (.exit hreaped (hst.imp id Or.inl))
  | badLog hsig hd =>
      refine iff_of_true ⟨rfl, hone⟩ (.exit hreaped (Or.inr (Or.inr ?_)))
      rw [List.getLast?_append]
      exact fun hx => hd (Answer.dmesg.inj (Option.some.inj hx))
  | exitPass hsig =>
      refine (iff_false_left (fun hx => nomatch hx.1)).mpr ?_
      intro hf
      cases hf with
      | exit hx hst =>
          have hst' := Siginfo.mk.inj (Option.some.inj (hreaped.symm.trans hx))
          rcases hst with hst | hst | hst
          · exact hst hst'.2.symm
          · exact hst hsig
          · rw [List.getLast?_append] at hst
            exact hst rfl
      | signal hx => exact nomatch hreaped.symm.trans hx
  | wrongSignal hst => exact iff_of_true ⟨rfl, hone⟩ (.signal hreaped hst)
  | signalPass =>
      refine (iff_false_left (fun hx => nomatch hx.1)).mpr ?_
      intro hf
      cases hf with
      | exit hx => exact nomatch hreaped.symm.trans hx
      | signal hx hsig =>
          exact hsig (Siginfo.mk.inj (Option.some.inj (hreaped.symm.trans hx))).2.symm
  | dumped =>
      refine (iff_false_left ?_).mpr
        (hnot rfl (fun _ hx => nomatch hx) (fun _ hx => nomatch hx))
      exact fun hx => hx.2 rfl

section RunTest

variable {W : Type} {enableTimeout : Bool} {sc : Script} {cs : CapState W} {t : Test}
variable {o : Outcome W} {buf : Bytes} {s : ConfState}

/-- `run_test` sends `SIGALRM` exactly when the test has timed out. -/
theorem runTest_kills (hread : testReadConfig sc.fs sc.frame t = some (buf, s))
    (h : runTest enableTimeout sc cs t = some o) :
    Signalled o.calls ↔ enableTimeout = true ∧ TimedOut s.test.timeout sc.answers := by
  obtain ⟨buf', s', hread', hret⟩ := runTest_cases h
  obtain ⟨-, rfl⟩ := Prod.mk.inj (Option.some.inj (hread'.symm.trans hread))
  cases hret with
  | skipped _ has ho =>
      rw [ho, has]
      refine iff_of_false (by simp [Signalled]) ?_
      rintro ⟨-, start, later, hc, -⟩
      exact nomatch hc
  | ran _ hres ho =>
      rw [ho]
      exact run_kills hres rfl (by simp [startRunner, Signalled])

/-- **A test that has timed out fails exactly when its end fails it**: with
    timeouts enabled, for every configuration, every clock and every way the
    child can end. -/
theorem runTest_timeout (hnew : t.result = .notrun)
    (hread : testReadConfig sc.fs sc.frame t = some (buf, s))
    (h : runTest true sc cs t = some o) :
    (Signalled o.calls → o.test.result = .failed ∧ o.rc ≠ 0)
      ↔ (TimedOut s.test.timeout sc.answers → EndFails s.test sc.answers) := by
  rw [runTest_kills hread h, and_iff_right rfl]
  refine forall_congr' ?_
  intro hlate
  obtain ⟨buf', s', hread', -, hends⟩ := runTest_ends h
  obtain ⟨-, rfl⟩ := Prod.mk.inj (Option.some.inj (hread'.symm.trans hread))
  have hnew' : s'.test.result = .notrun := (testReadConfig_result hread).trans hnew
  rcases hends with ⟨-, -, has⟩ | ⟨pre, suf, has, hpre, hend⟩
  · -- a test that was skipped has not been timed
    obtain ⟨start, later, hc, -⟩ := hlate
    rw [has] at hc
    exact nomatch hc
  · rw [has]
    exact ending_fails hnew' hpre hend

end RunTest

/-! ## A test that sleeps through its deadline -/

/-- The child is still running at 11 s, is sent `SIGALRM`, and exits with 0. -/
def lateAnswers (info : Siginfo) : List Answer :=
  [.pipe (some (3, 4)), .fork 100, .sigaction true, .clock ⟨0, 0⟩, .running,
    .clock ⟨11, 0⟩, .pollTimeout, .reaped info]
    ++ if info.code = .exited then [.dmesg 0] else []

/-- A script without a configuration file. -/
def lateScript (info : Siginfo) : Script where
  fs := fun _ => .absent
  frame := zeroFrame
  dead := []
  answers := lateAnswers info

theorem runTest_timeout_sample :
    ∃ o : Outcome Unit, runTest true (lateScript ⟨.killed, 14⟩) ⟨caps bareKernel, ()⟩
        (testCreate (str "01-a") .test) = some o
      ∧ ((Signalled o.calls → o.test.result = .failed ∧ o.rc ≠ 0)
        ↔ (TimedOut 10 (lateAnswers ⟨.killed, 14⟩)
          → EndFails (testCreate (str "01-a") .test) (lateAnswers ⟨.killed, 14⟩))) := by
  have hsome : (runTest true (lateScript ⟨.killed, 14⟩) ⟨caps bareKernel, ()⟩
      (testCreate (str "01-a") .test)).isSome = true := rfl
  obtain ⟨o, ho⟩ := Option.isSome_iff_exists.mp hsome
  have hread : testReadConfig (lateScript ⟨.killed, 14⟩).fs zeroFrame
      (testCreate (str "01-a") .test)
      = some (zeroFrame.1, ⟨testCreate (str "01-a") .test, []⟩) := rfl
  exact ⟨o, ho, runTest_timeout rfl hread ho⟩

/-- A test that ignores the signal and exits with 0 behind its deadline passes. -/
theorem runTest_late_pass :
    (runTest true (lateScript ⟨.exited, 0⟩) ⟨caps bareKernel, ()⟩
        (testCreate (str "01-a") .test)).map
        (fun o => (decide (Call.kill 100 sigalrm ∈ o.calls), o.test.result, o.rc))
      = some (true, .passed, 0) := by
  decide

end SpufsTimeout
