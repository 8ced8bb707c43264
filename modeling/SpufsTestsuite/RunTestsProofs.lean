import SpufsTestsuite.RunTestProofs

/-! # `run_tests` and the summary — what a whole run adds up to

    `run_tests` goes over the list of tests and accumulates their return values
    with `|=`; `print_summary` goes over the list once more and counts the
    results.  The loop is modelled for any function that runs one test
    (`runLoop`) and then used at `run_test` (`scripted`).

    The books balance, run by run, exactly when no child leaves a core file
    (`runTests_accounted`): `run_test` knows no `CLD_DUMPED`. -/

namespace SpufsRunTests

open CString SpufsTest SpufsConfScan SpufsCapability SpufsShouldRun SpufsRunTest

/-! ## The loop -/

/-- One test that has been processed: what its run returned, the record it
    left, and what else is known of the run. -/
structure Turn (ι : Type) where
  rc   : Int32
  test : Test
  info : ι

/-- What the loop leaves: its return value, the tests it has processed, the
    tests it has not come to, and the state of the runner. -/
structure Loop (ι σ : Type) where
  rc    : Int32
  done  : List (Turn ι)
  rest  : List Test
  state : σ

/-- The list of tests after the loop. -/
def Loop.tests {ι σ : Type} (l : Loop ι σ) : List Test :=
  l.done.map Turn.test ++ l.rest

section RunLoop

variable {ι σ : Type}

/-- The loop of `run_tests`, from a value of `rc` on. -/
def runLoop (runOne : σ → Test → Option (Turn ι × σ)) (contOnFailure : Bool) :
    Int32 → List Test → σ → Option (Loop ι σ)
  | rc, [], s => some ⟨rc, [], [], s⟩
  | rc, t :: tests, s =>
      match runOne s t with
      | none => none
      | some (turn, s) =>
          if (rc ||| turn.rc) ≠ 0 ∧ contOnFailure = false then
            some ⟨-1, [turn], tests, s⟩
          else
            (runLoop runOne contOnFailure (rc ||| turn.rc) tests s).map
              (fun l => { l with done := turn :: l.done })

variable {runOne : σ → Test → Option (Turn ι × σ)} {contOnFailure : Bool}

/-- **One turn of the loop, said once**: it stops behind the test, or goes on. -/
theorem runLoop_cons {rc : Int32} {t : Test} {tests : List Test} {s : σ}
    {l : Loop ι σ} (h : runLoop runOne contOnFailure rc (t :: tests) s = some l) :
    ∃ turn s', runOne s t = some (turn, s')
      ∧ (((rc ||| turn.rc) ≠ 0 ∧ l = ⟨-1, [turn], tests, s'⟩)
        ∨ ∃ l', runLoop runOne contOnFailure (rc ||| turn.rc) tests s' = some l'
            ∧ l = { l' with done := turn :: l'.done }) := by
  rw [runLoop] at h
  cases hone : runOne s t with
  | none => rw [hone] at h; exact nomatch h
  | some r =>
      obtain ⟨turn, s'⟩ := r
      rw [hone] at h
      dsimp only at h
      refine ⟨turn, s', rfl, ?_⟩
      split at h
      · next hstop => exact Or.inl ⟨hstop.1, (Option.some.inj h).symm⟩
      · obtain ⟨l', hl', rfl⟩ := Option.map_eq_some_iff.mp h
        exact Or.inr ⟨l', hl', rfl⟩

/-- **The value of the loop**: it is 0 exactly when every test returned 0. -/
theorem runLoop_rc {rc : Int32} {tests : List Test} {s : σ} {l : Loop ι σ}
    (h : runLoop runOne contOnFailure rc tests s = some l) :
    l.rc = 0 ↔ rc = 0 ∧ ∀ turn ∈ l.done, turn.rc = 0 := by
  induction tests generalizing rc s l with
  | nil =>
      rw [← Option.some.inj h]
      refine (and_iff_left ?_).symm
      intro turn hturn
      exact nomatch hturn
  | cons t tests ih =>
      obtain ⟨turn, s', -, ⟨hne, rfl⟩ | ⟨l', hl', rfl⟩⟩ := runLoop_cons h
      · constructor
        · intro h1
          exact absurd h1 (show ¬ (-1 : Int32) = 0 by decide)
        · rintro ⟨h0, hall⟩
          refine absurd ?_ hne
          rw [h0, hall turn List.mem_cons_self]
          rfl
      · show l'.rc = 0 ↔ rc = 0 ∧ ∀ u ∈ turn :: l'.done, u.rc = 0
        rw [ih hl', Int32.or_eq_zero_iff, List.forall_mem_cons, and_assoc]

/-- Every processed test has been run, and the others are as they were. -/
theorem runLoop_turns {rc : Int32} {tests : List Test} {s : σ} {l : Loop ι σ}
    (h : runLoop runOne contOnFailure rc tests s = some l) :
    (∀ turn ∈ l.done, ∃ t ∈ tests, ∃ s s', runOne s t = some (turn, s'))
      ∧ ∀ t ∈ l.rest, t ∈ tests := by
  induction tests generalizing rc s l with
  | nil =>
      rw [← Option.some.inj h]
      constructor
      · intro turn hturn
        exact nomatch hturn
      · intro t ht
        exact ht
  | cons t tests ih =>
      obtain ⟨turn, s', hone, ⟨-, rfl⟩ | ⟨l', hl', rfl⟩⟩ := runLoop_cons h
      · constructor
        · intro u hu
          rw [List.mem_singleton.mp hu]
          exact ⟨t, List.mem_cons_self, s, s', hone⟩
        · intro u hu
          exact List.mem_cons_of_mem _ hu
      · obtain ⟨hturns, hrest⟩ := ih hl'
        constructor
        · intro u hu
          rcases List.mem_cons.mp hu with rfl | hu
          · exact ⟨t, List.mem_cons_self, s, s', hone⟩
          · obtain ⟨t', ht', hrun⟩ := hturns u hu
            exact ⟨t', List.mem_cons_of_mem _ ht', hrun⟩
        · intro u hu
          exact List.mem_cons_of_mem _ (hrest u hu)

end RunLoop

/-! ## `run_tests` -/

/-- What happens in front of the loop: the value of `dmesg_check`, whether the
    working directory exists behind `mkdir`, and the descriptor `open` returns. -/
structure Setup where
  dmesg   : Int
  mkdir   : Bool
  dirfd   : Int
  deriving DecidableEq, Repr

/-- Nothing stops the run before its first test. -/
def Setup.ok (u : Setup) : Bool := u.dmesg == 0 && u.mkdir && decide (0 ≤ u.dirfd)

/-- `run_tests`. -/
def runTests {ι σ : Type} (u : Setup) (runOne : σ → Test → Option (Turn ι × σ))
    (contOnFailure : Bool) (tests : List Test) (s : σ) : Option (Loop ι σ) :=
  if u.dmesg ≠ 0 then some ⟨-1, [], tests, s⟩
  else if u.mkdir = false then some ⟨-1, [], tests, s⟩
  else if u.dirfd < 0 then some ⟨-1, [], tests, s⟩
  else runLoop runOne contOnFailure 0 tests s

/-- A run stops in front of its first test, or is the loop. -/
theorem runTests_cases {ι σ : Type} {u : Setup}
    {runOne : σ → Test → Option (Turn ι × σ)} {contOnFailure : Bool}
    {tests : List Test} {s : σ} {l : Loop ι σ}
    (h : runTests u runOne contOnFailure tests s = some l) :
    (u.ok = false ∧ l = ⟨-1, [], tests, s⟩)
      ∨ (u.ok = true ∧ runLoop runOne contOnFailure 0 tests s = some l) := by
  rw [runTests] at h
  by_cases hd : u.dmesg = 0
  · rw [if_neg (not_not_intro hd)] at h
    by_cases hm : u.mkdir = false
    · rw [if_pos hm] at h
      exact Or.inl ⟨by simp [Setup.ok, hm], (Option.some.inj h).symm⟩
    · rw [if_neg hm] at h
      by_cases hf : u.dirfd < 0
      · rw [if_pos hf] at h
        exact Or.inl ⟨by simp [Setup.ok, hf], (Option.some.inj h).symm⟩
      · rw [if_neg hf] at h
        refine Or.inr ⟨?_, h⟩
        rw [Setup.ok, hd, Bool.not_eq_false _ |>.mp hm, decide_eq_true (Int.not_lt.mp hf)]
        rfl
  · rw [if_pos hd] at h
    exact Or.inl ⟨by simp [Setup.ok, hd], (Option.some.inj h).symm⟩

/-- `run_test` in a run: every test meets the next script. -/
def scripted {W : Type} (enableTimeout : Bool) :
    List Script × CapState W → Test →
      Option (Turn Script × (List Script × CapState W))
  | ([], _), _ => none
  | (sc :: scripts, cs), t =>
      (runTest enableTimeout sc cs t).map
        (fun o => (⟨o.rc, o.test, sc⟩, (scripts, o.caps)))

/-! ## `print_summary` -/

/-- `n_tests`, `n_pass`, `n_fail` and `n_skip`. -/
structure Summary where
  nTests : Nat
  nPass  : Nat
  nFail  : Nat
  nSkip  : Nat
  deriving DecidableEq, Repr

/-- One turn of the loop of `print_summary`. -/
def summaryStep (n : Summary) (t : Test) : Summary :=
  if t.result = .notrun then n
  else if t.ignored then n
  else
    let n := { n with nTests := n.nTests + 1 }
    if t.result = .passed then { n with nPass := n.nPass + 1 }
    else if t.result = .failed then { n with nFail := n.nFail + 1 }
    else if t.result = .skipped then { n with nSkip := n.nSkip + 1 }
    else n

def summary (tests : List Test) : Summary := tests.foldl summaryStep ⟨0, 0, 0, 0⟩

/-- `print_summary`. -/
def printSummary (tests : List Test) : Bytes :=
  let n := summary tests
  dec n.nTests ++ str " tests run: " ++ dec n.nPass ++ str " passed, "
    ++ dec n.nFail ++ str " failed, " ++ dec n.nSkip ++ str " skipped\n"

/-- A test that is not ignored and has the result `res`. -/
def counts (res : TestResult) (t : Test) : Bool := decide (t.result = res) && !t.ignored

/-- A step counts the test under its own result, or not at all. -/
theorem summaryStep_eq (n : Summary) (t : Test) :
    summaryStep n t =
      ⟨n.nTests + (if counts .passed t then 1 else 0)
          + (if counts .failed t then 1 else 0) + (if counts .skipped t then 1 else 0),
        n.nPass + (if counts .passed t then 1 else 0),
        n.nFail + (if counts .failed t then 1 else 0),
        n.nSkip + (if counts .skipped t then 1 else 0)⟩ := by
  cases hres : t.result <;> cases hign : t.ignored <;>
    simp [summaryStep, counts, hres, hign]

/-- **The summary counts**: every test that is not ignored, under its result. -/
theorem summary_eq (tests : List Test) :
    summary tests =
      ⟨tests.countP (counts .passed) + tests.countP (counts .failed)
          + tests.countP (counts .skipped),
        tests.countP (counts .passed), tests.countP (counts .failed),
        tests.countP (counts .skipped)⟩ := by
  have hfold : ∀ n : Summary, tests.foldl summaryStep n =
      ⟨n.nTests + tests.countP (counts .passed) + tests.countP (counts .failed)
          + tests.countP (counts .skipped),
        n.nPass + tests.countP (counts .passed),
        n.nFail + tests.countP (counts .failed),
        n.nSkip + tests.countP (counts .skipped)⟩ := by
    induction tests with
    | nil => intro n; rfl
    | cons t tests ih =>
        intro n
        rw [List.foldl_cons, ih, summaryStep_eq, List.countP_cons, List.countP_cons,
          List.countP_cons]
        simp only [Summary.mk.injEq]
        refine ⟨?_, ?_, ?_, ?_⟩ <;> omega
  rw [summary, hfold]
  simp only [Nat.zero_add]

/-! ## The books of a run -/

/-- Whether a turn has reaped its child. -/
def Turn.reaped (turn : Turn Script) : Option Siginfo :=
  reapedOf turn.info.answers

/-- **Every turn of a run**: a test that was skipped, one whose run was given
    up, one with a verdict, or one whose child left a core file. -/
inductive TurnKind (turn : Turn Script) : Prop
  | skipped (hreap : turn.reaped = none) (hrc : turn.rc = 0)
      (hres : turn.test.result = .skipped)
  | gaveUp (hreap : turn.reaped = none) (hrc : turn.rc = -1)
      (hres : turn.test.result = .notrun)
  | passed {info : Siginfo} (hreap : turn.reaped = some info)
      (hcode : info.code ≠ .dumped) (hrc : turn.rc = 0)
      (hres : turn.test.result = .passed)
  | failed {info : Siginfo} (hreap : turn.reaped = some info)
      (hcode : info.code ≠ .dumped) (hrc : turn.rc = -1)
      (hres : turn.test.result = .failed)
  | dumped {info : Siginfo} (hreap : turn.reaped = some info)
      (hcode : info.code = .dumped) (hrc : turn.rc = 0)
      (hres : turn.test.result = .notrun)

section Books

variable {W : Type} {enableTimeout : Bool}

theorem scripted_kind {s s' : List Script × CapState W} {t : Test}
    {turn : Turn Script} (hnew : t.result = .notrun)
    (h : scripted enableTimeout s t = some (turn, s')) : TurnKind turn := by
  obtain ⟨scripts, cs⟩ := s
  cases scripts with
  | nil => exact nomatch h
  | cons sc scripts =>
      obtain ⟨⟨rc, t', stdout, stderr, caps, calls⟩, ho, hturn⟩ :=
        Option.map_eq_some_iff.mp h
      obtain ⟨rfl, -⟩ := Prod.mk.inj hturn
      obtain ⟨buf, c, hread, -, ⟨hrc, hres, has⟩ | ⟨pre, suf, has, hpre, hend⟩⟩ :=
        runTest_ends ho
      · exact .skipped (congrArg reapedOf has) hrc hres
      · have hc : c.test.result = .notrun := (testReadConfig_result hread).trans hnew
        have hreap : ∀ {as : List Answer}, suf = as →
            reapedOf sc.answers = reapedOf as := by
          intro as hsuf
          rw [has, reapedOf_append suf hpre, hsuf]
        dsimp only at hend
        generalize hres : t'.result = res at hend
        cases hend with
        | gaveUp => exact .gaveUp (hreap rfl) rfl (hres.trans hc)
        | wrongExit hst => exact .failed (hreap rfl) (fun hx => nomatch hx) rfl hres
        | badLog hsig hd => exact .failed (hreap rfl) (fun hx => nomatch hx) rfl hres
        | exitPass hsig => exact .passed (hreap rfl) (fun hx => nomatch hx) rfl hres
        | wrongSignal hst => exact .failed (hreap rfl) (fun hx => nomatch hx) rfl hres
        | signalPass => exact .passed (hreap rfl) (fun hx => nomatch hx) rfl hres
        | dumped => exact .dumped (hreap rfl) rfl rfl (hres.trans hc)

/-- A processed test that the summary has to count: it is not ignored, and it
    was skipped or its child was reaped. -/
def Turn.due (turn : Turn Script) : Bool :=
  (decide (turn.test.result = .skipped) || turn.reaped.isSome) && !turn.test.ignored

/-- **The books of a run balance**: a test whose child was reaped has passed or
    failed, and its run returned 0 exactly if it has passed; the run returns 0
    exactly if nothing stopped it in front and every processed test was skipped
    or passed; the summary counts every due test once, as passed, failed or
    skipped. -/
structure Balanced (u : Setup) (l : Loop Script (List Script × CapState W)) :
    Prop where
  verdict : ∀ turn ∈ l.done, turn.reaped.isSome = true →
    (turn.test.result = .passed ∨ turn.test.result = .failed)
      ∧ (turn.rc = 0 ↔ turn.test.result = .passed)
  value : l.rc = 0 ↔ u.ok = true
    ∧ ∀ turn ∈ l.done, turn.test.result = .skipped ∨ turn.test.result = .passed
  tests : (summary l.tests).nTests = l.done.countP Turn.due
  sum : (summary l.tests).nTests = (summary l.tests).nPass
    + (summary l.tests).nFail + (summary l.tests).nSkip

theorem not_dumped {turn : Turn Script} {info : Siginfo}
    (h : ∀ st, turn.reaped ≠ some ⟨.dumped, st⟩) (hcode : info.code = .dumped) :
    turn.reaped ≠ some info := by
  obtain ⟨code, st⟩ := info
  obtain rfl : code = .dumped := hcode
  exact h st

/-- Without a core file a turn is due exactly when the summary counts it. -/
theorem TurnKind.due_eq {turn : Turn Script} (h : TurnKind turn)
    (hdump : ∀ st, turn.reaped ≠ some ⟨.dumped, st⟩) :
    (if turn.due then 1 else 0)
      = (if counts .passed turn.test then 1 else 0)
        + (if counts .failed turn.test then 1 else 0)
        + (if counts .skipped turn.test then 1 else 0) := by
  cases h with
  | skipped hreap _ hres =>
      cases hign : turn.test.ignored <;> simp [Turn.due, counts, hreap, hres, hign]
  | gaveUp hreap _ hres => simp [Turn.due, counts, hreap, hres]
  | passed hreap _ _ hres =>
      cases hign : turn.test.ignored <;> simp [Turn.due, counts, hreap, hres, hign]
  | failed hreap _ _ hres =>
      cases hign : turn.test.ignored <;> simp [Turn.due, counts, hreap, hres, hign]
  | dumped hreap hcode _ _ => exact absurd hreap (not_dumped hdump hcode)

/-- Tests that have not been run are not counted. -/
theorem countP_notrun (res : TestResult) {tests : List Test} (hres : res ≠ .notrun)
    (h : ∀ t ∈ tests, t.result = .notrun) : tests.countP (counts res) = 0 := by
  rw [List.countP_eq_zero]
  intro t ht hc
  rw [counts, h t ht, Bool.and_eq_true, decide_eq_true_eq] at hc
  exact hres hc.1.symm

/-- A verdict that stands says that the child left no core file. -/
theorem TurnKind.undumped {turn : Turn Script} (h : TurnKind turn) {st : Int}
    (hv : turn.test.result = .passed ∨ turn.test.result = .failed) :
    turn.reaped ≠ some ⟨.dumped, st⟩ := by
  intro hdump
  cases h with
  | skipped hreap _ _ => rw [hreap] at hdump; exact nomatch hdump
  | gaveUp hreap _ _ => rw [hreap] at hdump; exact nomatch hdump
  | passed hreap hcode _ _ =>
      rw [hreap] at hdump
      exact hcode (congrArg Siginfo.code (Option.some.inj hdump))
  | failed hreap hcode _ _ =>
      rw [hreap] at hdump
      exact hcode (congrArg Siginfo.code (Option.some.inj hdump))
  | dumped _ _ _ hres =>
      rw [hres] at hv
      rcases hv with hv | hv
      · exact nomatch hv
      · exact nomatch hv

/-- A child that was reaped, and left no core file, has brought a verdict. -/
theorem TurnKind.verdict {turn : Turn Script} (h : TurnKind turn)
    (hdump : ∀ st, turn.reaped ≠ some ⟨.dumped, st⟩) (hsome : turn.reaped.isSome = true) :
    (turn.test.result = .passed ∨ turn.test.result = .failed)
      ∧ (turn.rc = 0 ↔ turn.test.result = .passed) := by
  cases h with
  | skipped hreap _ _ => rw [hreap] at hsome; exact nomatch hsome
  | gaveUp hreap _ _ => rw [hreap] at hsome; exact nomatch hsome
  | passed _ _ hr hres => exact ⟨Or.inl hres, fun _ => hres, fun _ => hr⟩
  | failed _ _ hr hres =>
      rw [hr, hres]
      exact ⟨Or.inr rfl, fun hx => absurd hx (show ¬ (-1 : Int32) = 0 by decide),
        fun hx => nomatch hx⟩
  | dumped hreap hcode _ _ => exact absurd hreap (not_dumped hdump hcode)

/-- A turn that left no core file returns 0 for a test that was skipped or has
    passed. -/
theorem TurnKind.rc_eq {turn : Turn Script} (h : TurnKind turn)
    (hdump : ∀ st, turn.reaped ≠ some ⟨.dumped, st⟩) :
    turn.rc = 0 ↔ turn.test.result = .skipped ∨ turn.test.result = .passed := by
  have hone : ¬ (-1 : Int32) = 0 := by decide
  cases h with
  | skipped _ hr hres => exact ⟨fun _ => Or.inl hres, fun _ => hr⟩
  | gaveUp _ hr hres =>
      rw [hr, hres]
      exact ⟨fun hx => absurd hx hone,
        fun hx => hx.elim (fun hy => nomatch hy) (fun hy => nomatch hy)⟩
  | passed _ _ hr hres => exact ⟨fun _ => Or.inr hres, fun _ => hr⟩
  | failed _ _ hr hres =>
      rw [hr, hres]
      exact ⟨fun hx => absurd hx hone,
        fun hx => hx.elim (fun hy => nomatch hy) (fun hy => nomatch hy)⟩
  | dumped hreap hcode _ _ => exact absurd hreap (not_dumped hdump hcode)

/-- Without core files the three counts add up to the turns that are due. -/
theorem countP_due {turns : List (Turn Script)}
    (h : ∀ turn ∈ turns, TurnKind turn ∧ ∀ st, turn.reaped ≠ some ⟨.dumped, st⟩) :
    turns.countP Turn.due
      = (turns.map Turn.test).countP (counts .passed)
        + (turns.map Turn.test).countP (counts .failed)
        + (turns.map Turn.test).countP (counts .skipped) := by
  induction turns with
  | nil => rfl
  | cons turn turns ih =>
      obtain ⟨hk, hd⟩ := h turn List.mem_cons_self
      have hdue := hk.due_eq hd
      rw [List.countP_cons, List.map_cons, List.countP_cons, List.countP_cons,
        List.countP_cons, ih (fun u hu => h u (List.mem_cons_of_mem _ hu)), hdue]
      omega

/-- What a run over new tests has in `done` and in `rest`, and its value. -/
theorem runTests_turns {u : Setup} {contOnFailure : Bool} {tests : List Test}
    {s : List Script × CapState W} {l : Loop Script (List Script × CapState W)}
    (hnew : ∀ t ∈ tests, t.result = .notrun)
    (h : runTests u (scripted enableTimeout) contOnFailure tests s = some l) :
    (∀ turn ∈ l.done, TurnKind turn) ∧ (∀ t ∈ l.rest, t.result = .notrun)
      ∧ (l.rc = 0 ↔ u.ok = true ∧ ∀ turn ∈ l.done, turn.rc = 0) := by
  rcases runTests_cases h with ⟨hok, rfl⟩ | ⟨hok, hloop⟩
  · refine ⟨?_, hnew, ?_⟩
    · intro turn hturn
      exact nomatch hturn
    · rw [hok]
      exact ⟨fun h1 => absurd h1 (show ¬ (-1 : Int32) = 0 by decide),
        fun h2 => nomatch h2.1⟩
  · obtain ⟨hturns, hrest⟩ := runLoop_turns hloop
    refine ⟨?_, fun t ht => hnew t (hrest t ht), ?_⟩
    · intro turn hturn
      obtain ⟨t, ht, s₁, s₂, hone⟩ := hturns turn hturn
      exact scripted_kind (hnew t ht) hone
    · rw [runLoop_rc hloop, hok]
      exact ⟨fun hx => ⟨rfl, hx.2⟩, fun hx => ⟨rfl, hx.2⟩⟩

/-- **The books balance exactly when no child leaves a core file**, for every
    list of new tests and every run over it. -/
theorem runTests_accounted {u : Setup} {contOnFailure : Bool} {tests : List Test}
    {s : List Script × CapState W} {l : Loop Script (List Script × CapState W)}
    (hnew : ∀ t ∈ tests, t.result = .notrun)
    (h : runTests u (scripted enableTimeout) contOnFailure tests s = some l) :
    Balanced u l ↔ ∀ turn ∈ l.done, ∀ st, turn.reaped ≠ some ⟨.dumped, st⟩ := by
  obtain ⟨hkind, hrest, hrc⟩ := runTests_turns hnew h
  constructor
  · -- a core file leaves a reaped test without a verdict
    intro hbal turn hturn st hdump
    have hv := (hbal.verdict turn hturn (by rw [hdump]; rfl)).1
    exact (hkind turn hturn).undumped hv hdump
  · intro hdump
    refine ⟨?_, ?_, ?_, ?_⟩
    · intro turn hturn hsome
      exact (hkind turn hturn).verdict (hdump turn hturn) hsome
    · rw [hrc]
      have hturn : ∀ turn ∈ l.done, (turn.rc = 0
          ↔ turn.test.result = .skipped ∨ turn.test.result = .passed) := by
        intro turn hturn
        exact (hkind turn hturn).rc_eq (hdump turn hturn)
      exact and_congr_right (fun _ => forall₂_congr hturn)
    · -- the tests that were not reached are not counted
      rw [summary_eq, Loop.tests, List.countP_append, List.countP_append,
        List.countP_append, countP_notrun .passed (by decide) hrest,
        countP_notrun .failed (by decide) hrest,
        countP_notrun .skipped (by decide) hrest,
        countP_due (fun turn hturn => ⟨hkind turn hturn, hdump turn hturn⟩)]
      simp only [Nat.add_zero]
    · rw [summary_eq]

end Books

/-- A child that ends like this while the kernel log is clean; it is looked at if the
    child exits with 0. -/
def exitScript (info : Siginfo) : Script where
  fs := fun _ => .absent
  frame := zeroFrame
  dead := []
  answers := [.pipe (some (3, 4)), .fork 100, .sigaction true, .clock ⟨0, 0⟩,
    .reaped info] ++ if info = ⟨.exited, 0⟩ then [.dmesg 0] else []

/-- The run of the test `t/01-a` alone. -/
def singleRun (info : Siginfo) :
    Option (Loop Script (List Script × CapState Unit)) :=
  runTests ⟨0, true, 5⟩ (scripted true) false [testCreate (str "t/01-a") .test]
    ([exitScript info], ⟨caps bareKernel, ()⟩)

/-- Tests that pass, fail, leave a core file and are killed, with `--continue`. -/
def mixedRun : Option (Loop Script (List Script × CapState Unit)) :=
  runTests ⟨0, true, 5⟩ (scripted true) true
    [testCreate (str "t/01-a") .test, testCreate (str "t/01-b") .test,
      testCreate (str "t/02-c") .test, testCreate (str "t/02-d") .test]
    ([⟨.exited, 0⟩, ⟨.exited, 1⟩, ⟨.dumped, 11⟩, ⟨.killed, 9⟩].map exitScript,
      ⟨caps bareKernel, ()⟩)

theorem runTests_accounted_sample :
    ∃ l, mixedRun = some l
      ∧ (Balanced ⟨0, true, 5⟩ l
        ↔ ∀ turn ∈ l.done, ∀ st, turn.reaped ≠ some ⟨.dumped, st⟩) := by
  have hsome : mixedRun.isSome = true := by decide
  obtain ⟨l, hl⟩ := Option.isSome_iff_exists.mp hsome
  exact ⟨l, hl, runTests_accounted (by decide) hl⟩

/-- A test that dies with a core file: the run returns 0, the test is still
    not run, and the summary does not know it. -/
theorem runTests_core_file :
    (singleRun ⟨.dumped, 11⟩).map
        (fun l => (l.rc, l.done.map (fun turn => turn.test.result), summary l.tests))
      = some (0, [.notrun], ⟨0, 0, 0, 0⟩) := by
  decide

end SpufsRunTests
