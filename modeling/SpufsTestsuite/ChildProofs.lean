import SpufsTestsuite.RunTestsProofs

/-! # The forked child — whose termination does the runner see?

    Between `fork` and `execl` the child runs code of the runner: it plugs the
    pipe into its standard output and error, goes to the working directory and
    executes the test.  A step that fails ends the child with `EXIT_FAILURE`,
    and the runner's `waitid` cannot tell this from the test's own exit.

    A PASS is earned when the termination is the test's own, is the configured
    one, and is followed by a clean log check (`Earned`).
    `runTest_earned` says exactly which runs break this. -/

namespace SpufsChild

open CString SpufsTest SpufsConfScan SpufsConfReference SpufsConfLeftover
open SpufsCapability SpufsShouldRun SpufsRunTest SpufsRunTests

/-! ## The child -/

/-- `EXIT_FAILURE`. -/
def exitFailure : Int := 1

/-- What the system calls of the child return, and whether `execl` replaces
    the process. -/
structure ChildSetup where
  dup2Stdout : Int
  dup2Stderr : Int
  fchdir     : Int
  execl      : Bool
  deriving DecidableEq, Repr

/-- A child process: its setup, a signal that kills it before `execl` (and
    whether it leaves a core file), and the termination of the test program. -/
structure Child where
  setup  : ChildSetup
  killed : Option (Int × Bool)
  own    : Siginfo
  deriving DecidableEq, Repr

/-- The code between `fork` and `execl`: `none` if the test program runs, else
    the status the child exits with. -/
def childSetup (c : ChildSetup) : Option Int :=
  if c.dup2Stdout < 0 then some exitFailure
  else if c.dup2Stderr < 0 then some exitFailure
  else if c.fchdir ≠ 0 then some exitFailure
  else if c.execl then none
  else some exitFailure

/-- Whether the test program has run, and how the process terminates. -/
def childFate (c : Child) : Bool × Siginfo :=
  match c.killed with
  | some (sig, core) => (false, ⟨if core then .dumped else .killed, sig⟩)
  | none =>
      match childSetup c.setup with
      | none => (true, c.own)
      | some status => (false, ⟨.exited, status⟩)

/-- A child that exits without having run the test exits with `EXIT_FAILURE`. -/
theorem childFate_exit {c : Child} {st : Int}
    (h : childFate c = (false, ⟨.exited, st⟩)) : st = exitFailure := by
  rw [childFate] at h
  split at h
  · next sig core _ =>
      cases core with
      | true => exact nomatch congrArg (fun f => f.2.code) h
      | false => exact nomatch congrArg (fun f => f.2.code) h
  · split at h
    · exact nomatch (Prod.mk.inj h).1
    · next status hs =>
        have hst : status = st := congrArg (fun f => f.2.status) h
        rw [← hst]
        rw [childSetup] at hs
        repeat' split at hs
        all_goals first | exact (Option.some.inj hs).symm | exact nomatch hs

/-! ## An earned PASS -/

/-- The configured termination: exit with `expected_rc`, or death by
    `expected_sig` if that is set. -/
def Configured (t : Test) (info : Siginfo) : Prop :=
  (t.expectedSig = 0 ∧ info = ⟨.exited, t.expectedRc⟩)
    ∨ (t.expectedSig ≠ 0 ∧ info.code ≠ .exited ∧ info.status = t.expectedSig)

/-- The test program has run, it has terminated as configured, and the log
    check that followed was clean. -/
structure Earned (c : Child) (t : Test) (answers : List Answer) : Prop where
  ran    : (childFate c).1 = true
  ended  : Configured t (childFate c).2
  logged : ∃ pre info, answers = pre ++ [.reaped info, .dmesg 0]

/-- The child was killed by the expected signal. -/
def KilledAsExpected (t : Test) (answers : List Answer) : Prop :=
  reapedOf answers = some ⟨.killed, t.expectedSig⟩

/-- The setup of the child has failed, its exit status is the expected one, and
    the log is clean. -/
def SetupPasses (c : Child) (t : Test) (answers : List Answer) : Prop :=
  (childFate c).1 = false ∧ t.expectedRc = exitFailure ∧ t.expectedSig = 0
    ∧ reapedOf answers = some ⟨.exited, exitFailure⟩
    ∧ answers.getLast? = some (.dmesg 0)

section Earned

variable {c : Child} {t : Test} {pre suf : List Answer} {rc : Int32}
  {res : TestResult}

/-- Which endings have earned their PASS. -/
theorem ending_earned (hnew : t.result = .notrun) (hpre : reapedOf pre = none)
    (hchild : ∀ info, reapedOf (pre ++ suf) = some info → info = (childFate c).2)
    (h : Ending t suf rc res) :
    (res = .passed → Earned c t (pre ++ suf))
      ↔ ¬ KilledAsExpected t (pre ++ suf) ∧ ¬ SetupPasses c t (pre ++ suf) := by
  rw [KilledAsExpected, SetupPasses, reapedOf_append suf hpre]
  rw [reapedOf_append suf hpre] at hchild
  -- an ending that does not pass owes nothing
  have hfail : ∀ {P Q : Prop}, res ≠ .passed → ¬ P → ¬ Q →
      ((res = .passed → Earned c t (pre ++ suf)) ↔ ¬ P ∧ ¬ Q) := fun hres hp hq =>
    ⟨fun _ => ⟨hp, hq⟩, fun _ hpass => absurd hpass hres⟩
  have hcode : ∀ {a b : CldCode} {x y : Int}, a ≠ b →
      some (Siginfo.mk a x) ≠ some ⟨b, y⟩ := fun hne hab =>
    hne (congrArg Siginfo.code (Option.some.inj hab))
  cases h with
  | gaveUp =>
      refine hfail (by rw [hnew]; decide) (fun hx => nomatch hx) ?_
      rintro ⟨-, -, -, hx, -⟩
      exact nomatch hx
  | wrongExit hst =>
      refine hfail (by decide) (hcode (by decide)) ?_
      rintro ⟨-, hrc, hsig, hx, -⟩
      rcases hst with hst | hst
      · exact hst ((congrArg Siginfo.status (Option.some.inj hx)).trans hrc.symm)
      · exact hst hsig
  | badLog hsig hd =>
      refine hfail (by decide) (hcode (by decide)) ?_
      rintro ⟨-, -, -, -, hx⟩
      rw [List.getLast?_append] at hx
      exact hd (Answer.dmesg.inj (Option.some.inj hx))
  | exitPass hsig =>
      have hfate := hchild _ rfl
      constructor
      · intro hearned
        refine ⟨hcode (by decide), ?_⟩
        rintro ⟨hran, -⟩
        rw [(hearned rfl).ran] at hran
        exact nomatch hran
      · rintro ⟨-, hsetup⟩ -
        refine ⟨?_, Or.inl ⟨hsig, hfate.symm⟩, pre, _, rfl⟩
        cases hran : (childFate c).1 with
        | true => rfl
        | false =>
            have hst := childFate_exit (Prod.ext hran hfate.symm)
            refine absurd ⟨hran, hst, hsig, by rw [hst]; rfl, ?_⟩ hsetup
            rw [List.getLast?_append]
            rfl
  | wrongSignal hst =>
      refine hfail (by decide) ?_ ?_
      · intro hx
        exact hst (congrArg Siginfo.status (Option.some.inj hx))
      · rintro ⟨-, -, -, hx, -⟩
        exact hcode (by decide) hx
  | signalPass =>
      constructor
      · intro hearned
        obtain ⟨pre', info, heq⟩ := (hearned rfl).logged
        have hx := congrArg List.getLast? heq
        rw [List.getLast?_append, List.getLast?_append] at hx
        exact nomatch Option.some.inj hx
      · rintro ⟨hk, -⟩
        exact absurd rfl hk
  | dumped =>
      refine hfail (by rw [hnew]; decide) (hcode (by decide)) ?_
      rintro ⟨-, -, -, hx, -⟩
      exact hcode (by decide) hx

end Earned

/-- **Which PASSes are earned**: for every configuration and every child, the
    test passes only if it has earned it, exactly when the child is neither
    killed by the expected signal nor takes the exit status of its failed setup
    for the expected one. -/
theorem runTest_earned {W : Type} {enableTimeout : Bool} {sc : Script}
    {cs : CapState W} {t : Test} {o : Outcome W} {buf : Bytes} {s : ConfState}
    {c : Child} (hnew : t.result = .notrun)
    (hread : testReadConfig sc.fs sc.frame t = some (buf, s))
    (hchild : ∀ info, reapedOf sc.answers = some info → info = (childFate c).2)
    (h : runTest enableTimeout sc cs t = some o) :
    (o.test.result = .passed → Earned c s.test sc.answers)
      ↔ ¬ KilledAsExpected s.test sc.answers ∧ ¬ SetupPasses c s.test sc.answers := by
  obtain ⟨buf', s', hread', -, hends⟩ := runTest_ends h
  obtain ⟨-, rfl⟩ := Prod.mk.inj (Option.some.inj (hread'.symm.trans hread))
  have hnew' : s'.test.result = .notrun := (testReadConfig_result hread).trans hnew
  rcases hends with ⟨-, hres, has⟩ | ⟨pre, suf, has, hpre, hend⟩
  · rw [hres, has]
    constructor
    · intro _
      refine ⟨?_, ?_⟩
      · intro hx
        exact nomatch hx
      · rintro ⟨-, -, -, hx, -⟩
        exact nomatch hx
    · intro _ hx
      exact nomatch hx
  · rw [has] at hchild ⊢
    exact ending_earned hnew' hpre hchild hend

/-! ## Two PASSes that are not earned -/

/-- A directory with one configuration line. -/
def lineScript (line : Bytes) (answers : List Answer) : Script where
  fs := fun _ => .contents line
  frame := zeroFrame
  dead := []
  answers := [.pipe (some (3, 4)), .fork 100, .sigaction true, .clock ⟨0, 0⟩]
    ++ answers

/-- The test `t/01-a`. -/
def sampleTest : Test := testCreate (str "t" ++ 47 :: str "01-a") .test

/-- The result of `t/01-a` under one configuration line. -/
def lineResult (line : Bytes) (answers : List Answer) : Option TestResult :=
  (runTest true (lineScript line answers) ⟨caps bareKernel, ()⟩ sampleTest).map
    (fun o => o.test.result)

/-- What a line without capabilities makes of `t/01-a`. -/
theorem lineScript_read (line : Bytes) (t' : Test) (answers : List Answer)
    (hlen : line.length < confBufSize) (h0 : (0 : UInt8) ∉ line)
    (ht : referenceView (str "01-a") line ⟨sampleTest, []⟩ = ⟨t', []⟩) :
    ∃ buf stderr, testReadConfig (lineScript line answers).fs
      (lineScript line answers).frame sampleTest = some (buf, ⟨t', stderr⟩) := by
  have heff := @confEffect_text (lineScript line answers).fs zeroFrame (str "t")
    (str "01-a") line line _ .test (by decide) (by decide) (by decide) rfl
    (readInto_zeroFrame hlen) h0
  obtain ⟨⟨buf, s⟩, hread, hview⟩ := Option.bind_eq_some_iff.mp heff
  obtain ⟨hbare, hden⟩ := confView_eq_some (hview.trans (congrArg some ht))
  have hcaps : s.test.capsRequired = [] := List.forall₂_nil_right_iff.mp hden
  have htest : s.test = t' := by
    rw [show t' = bare s.test from hbare, bare, ← hcaps]
  exact ⟨buf, s.stderr, by rw [← htest]; exact hread⟩

theorem runTest_earned_sample :
    ∃ o : Outcome Unit, runTest true (exitScript ⟨.exited, 0⟩) ⟨caps bareKernel, ()⟩
        (testCreate (str "01-a") .test) = some o
      ∧ ((o.test.result = .passed → Earned ⟨⟨1, 2, 0, true⟩, none, ⟨.exited, 0⟩⟩
            (testCreate (str "01-a") .test) (exitScript ⟨.exited, 0⟩).answers)
          ↔ ¬ KilledAsExpected (testCreate (str "01-a") .test)
              (exitScript ⟨.exited, 0⟩).answers
            ∧ ¬ SetupPasses ⟨⟨1, 2, 0, true⟩, none, ⟨.exited, 0⟩⟩
              (testCreate (str "01-a") .test) (exitScript ⟨.exited, 0⟩).answers) := by
  have hsome : (runTest true (exitScript ⟨.exited, 0⟩) ⟨caps bareKernel, ()⟩
      (testCreate (str "01-a") .test)).isSome = true := rfl
  obtain ⟨o, ho⟩ := Option.isSome_iff_exists.mp hsome
  have hread : testReadConfig (exitScript ⟨.exited, 0⟩).fs zeroFrame
      (testCreate (str "01-a") .test)
      = some (zeroFrame.1, ⟨testCreate (str "01-a") .test, []⟩) := rfl
  refine ⟨o, ho, runTest_earned rfl hread ?_ ho⟩
  intro info hinfo
  exact (Option.some.inj hinfo).symm

/-- A test that expects signal 9 passes without a look at the log; a test that
    expects status 1 passes although `execl` has failed. -/
theorem runTest_unearned :
    (lineResult (str "01-a: signal=9") [.reaped ⟨.killed, 9⟩] = some .passed
      ∧ ∀ c t, ¬ Earned c t (lineScript (str "01-a: signal=9")
          [.reaped ⟨.killed, 9⟩]).answers)
    ∧ lineResult (str "01-a: expected_rc=1") [.reaped ⟨.exited, 1⟩, .dmesg 0]
        = some .passed
    ∧ childFate ⟨⟨1, 2, 0, false⟩, none, ⟨.exited, 0⟩⟩ = (false, ⟨.exited, 1⟩)
    ∧ ∀ t, ¬ Earned ⟨⟨1, 2, 0, false⟩, none, ⟨.exited, 0⟩⟩ t
        (lineScript (str "01-a: expected_rc=1")
          [.reaped ⟨.exited, 1⟩, .dmesg 0]).answers := by
  have hlogged : ∀ {line : Bytes} {info : Siginfo} {c : Child} {t : Test},
      ¬ Earned c t (lineScript line [.reaped info]).answers := by
    rintro line info c t ⟨-, -, pre, info', heq⟩
    have hx := congrArg List.getLast? heq
    rw [List.getLast?_append] at hx
    cases Option.some.inj hx
  refine ⟨⟨?_, fun _ _ => hlogged⟩, ?_, rfl, ?_⟩
  · obtain ⟨buf, stderr, hread⟩ := lineScript_read (str "01-a: signal=9")
      { sampleTest with expectedSig := 9 } [.reaped ⟨.killed, 9⟩]
      (by decide) (by decide) (by decide)
    rw [lineResult, runTest, hread]
    rfl
  · obtain ⟨buf, stderr, hread⟩ := lineScript_read (str "01-a: expected_rc=1")
      { sampleTest with expectedRc := 1 }
      [.reaped ⟨.exited, 1⟩, .dmesg 0] (by decide) (by decide) (by decide)
    rw [lineResult, runTest, hread]
    rfl
  · rintro t ⟨hran, -, -⟩
    cases hran

end SpufsChild
