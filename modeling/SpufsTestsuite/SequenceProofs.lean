import SpufsTestsuite.EarlyExitProofs
import SpufsTestsuite.RunTestsProofs

/-! # The sequence of a run — which tests are run, and what is printed of them

    Here `run_test` is any step that returns 0 or -1 and leaves any record of
    its test behind.  Running all tests one after the other is `turns`; the
    loop of `run_tests` goes through all of them, or through those up to the
    first one that fails (`runLoop_turnsUpTo`), and the summary counts what is
    found in the list afterwards (`runTests_sequence`). -/

namespace SpufsSequence

open CString EarlyExit SpufsTest SpufsRunTests

/-- What one call of `run_test` comes to: whether it returns -1, and the record
    it leaves. -/
structure Outcome where
  failed : Bool
  test   : Test

/-- The value `run_test` returns. -/
def Outcome.rc (o : Outcome) : Int32 := if o.failed then -1 else 0

@[simp] theorem Outcome.rc_eq_zero (o : Outcome) : o.rc = 0 ↔ o.failed = false := by
  cases h : o.failed <;> simp [Outcome.rc, h]

section Step

variable {σ : Type} (step : σ → Test → Outcome × σ)

/-- The turn of the test `t`; it keeps the record the test had before. -/
def stepTurn (s : σ) (t : Test) : Turn Test :=
  ⟨(step s t).1.rc, (step s t).1.test, t⟩

/-- `run_test` as the step `step`. -/
def stepped (s : σ) (t : Test) : Option (Turn Test × σ) :=
  some (stepTurn step s t, (step s t).2)

/-- The turns of all tests, one after the other. -/
def turns : σ → List Test → List (Turn Test)
  | _, [] => []
  | s, t :: tests => stepTurn step s t :: turns (step s t).2 tests

/-- A turn whose `run_test` returned something other than 0. -/
def failing (turn : Turn Test) : Bool := turn.rc != 0

/-- The turns of a run. -/
def turnsUpTo (contOnFailure : Bool) (s : σ) (tests : List Test) : List (Turn Test) :=
  if contOnFailure then turns step s tests else upTo failing (turns step s tests)

variable {step}

theorem turnsUpTo_nil (contOnFailure : Bool) (s : σ) :
    turnsUpTo step contOnFailure s [] = [] := by
  cases contOnFailure <;> rfl

/-- A run goes on behind a test that has not failed, and with `--continue`. -/
theorem turnsUpTo_cons (contOnFailure : Bool) (s : σ) (t : Test) (tests : List Test) :
    turnsUpTo step contOnFailure s (t :: tests) = stepTurn step s t ::
      if (step s t).1.failed = true ∧ contOnFailure = false then []
      else turnsUpTo step contOnFailure (step s t).2 tests := by
  cases hc : contOnFailure with
  | true => simp [turnsUpTo, turns]
  | false =>
      have hfail : failing (stepTurn step s t) = (step s t).1.failed := by
        cases hf : (step s t).1.failed <;> simp [failing, stepTurn, hf]
      cases hf : (step s t).1.failed <;> simp [turnsUpTo, turns, upTo, hfail, hf]

/-- **The loop runs these turns**: it returns, what it has processed is the
    front of the list, and those are the turns of the run. -/
theorem runLoop_turnsUpTo (step : σ → Test → Outcome × σ) (contOnFailure : Bool)
    {rc : Int32} (tests : List Test) (s : σ) (hrc : contOnFailure = false → rc = 0) :
    ∃ l, runLoop (stepped step) contOnFailure rc tests s = some l
      ∧ l.done.map Turn.info ++ l.rest = tests
      ∧ l.done = turnsUpTo step contOnFailure s tests
      ∧ (contOnFailure = true → l.rest = []) := by
  induction tests generalizing rc s with
  | nil => exact ⟨_, rfl, rfl, (turnsUpTo_nil contOnFailure s).symm, fun _ => rfl⟩
  | cons t tests ih =>
      rw [turnsUpTo_cons]
      by_cases hstop : (step s t).1.failed = true ∧ contOnFailure = false
      · obtain ⟨hfailed, hcont⟩ := hstop
        have hne : rc ||| (stepTurn step s t).rc ≠ 0 := by
          rw [hrc hcont]
          simp [stepTurn, hfailed]
        refine ⟨⟨-1, [stepTurn step s t], tests, (step s t).2⟩, ?_, rfl, ?_, ?_⟩
        · simp only [runLoop, stepped]
          rw [if_pos ⟨hne, hcont⟩]
        · rw [if_pos ⟨hfailed, hcont⟩]
        · intro h
          rw [hcont] at h
          cases h
      · -- nothing has failed so far, or a failure does not count
        have hgo : contOnFailure = false → rc ||| (stepTurn step s t).rc = 0 := by
          intro hcont
          have hok : (step s t).1.failed = false :=
            Bool.eq_false_iff.mpr (fun hf => hstop ⟨hf, hcont⟩)
          rw [hrc hcont]
          simp [stepTurn, hok]
        obtain ⟨l, hl, hfront, hdone, hall⟩ := ih (step s t).2 hgo
        refine ⟨{ l with done := stepTurn step s t :: l.done }, ?_, ?_, ?_, hall⟩
        · simp only [runLoop, stepped]
          rw [if_neg (fun h => h.1 (hgo h.2)), hl]
          rfl
        · exact congrArg (t :: ·) hfront
        · rw [if_neg hstop, ← hdone]

end Step

/-- **The sequence of a run**: the processed tests are the front of the list,
    in its order; they are all of them, or end with the first that failed; the
    others have not been run; the value is 0 exactly if nothing failed; and the
    summary prints how many tests that are not ignored have which result. -/
structure Sequenced {σ : Type} (step : σ → Test → Outcome × σ) (contOnFailure : Bool)
    (tests : List Test) (s : σ) (l : Loop Test σ) : Prop where
  front : l.done.map Turn.info ++ l.rest = tests
  ran : l.done = if contOnFailure then turns step s tests
    else upTo failing (turns step s tests)
  all : contOnFailure = true → l.rest = []
  later : ∀ t ∈ l.rest, t.result = .notrun
  value : l.rc ≠ 0 ↔ ∃ turn ∈ l.done, turn.rc ≠ 0
  printed : printSummary l.tests
    = dec (l.tests.countP (counts .passed) + l.tests.countP (counts .failed)
        + l.tests.countP (counts .skipped) : Nat) ++ str " tests run: "
      ++ dec (l.tests.countP (counts .passed)) ++ str " passed, "
      ++ dec (l.tests.countP (counts .failed)) ++ str " failed, "
      ++ dec (l.tests.countP (counts .skipped)) ++ str " skipped\n"

/-- **Every run is a sequence**, whatever `run_test` comes to. -/
theorem runTests_sequence {σ : Type} (step : σ → Test → Outcome × σ) {u : Setup}
    (contOnFailure : Bool) {tests : List Test} (s : σ) (hu : u.ok = true)
    (hnew : ∀ t ∈ tests, t.result = .notrun) :
    ∃ l, runTests u (stepped step) contOnFailure tests s = some l
      ∧ Sequenced step contOnFailure tests s l := by
  obtain ⟨l, hl, hfront, hdone, hall⟩ :=
    runLoop_turnsUpTo step contOnFailure tests s (fun _ => rfl)
  refine ⟨l, ?_, hfront, hdone, hall, ?_, ?_, ?_⟩
  · simp only [Setup.ok, Bool.and_eq_true, beq_iff_eq, decide_eq_true_eq] at hu
    obtain ⟨⟨hdmesg, hmkdir⟩, hdirfd⟩ := hu
    rw [runTests, if_neg (not_not_intro hdmesg), if_neg (by rw [hmkdir]; decide),
      if_neg (Int.not_lt.mpr hdirfd), hl]
  · intro t ht
    exact hnew t (hfront ▸ List.mem_append_right _ ht)
  · rw [ne_eq, runLoop_rc hl]
    simp
  · rw [printSummary, summary_eq]

/-- A step that takes its outcomes from a list, and passes when it is empty. -/
def listed : List (Bool × TestResult) → Test → Outcome × List (Bool × TestResult)
  | [], t => (⟨false, { t with result := .passed }⟩, [])
  | (failed, res) :: outcomes, t => (⟨failed, { t with result := res }⟩, outcomes)

theorem runTests_sequence_sample :
    ∃ l, runTests ⟨0, true, 5⟩ (stepped listed) false
        [testCreate (str "t/01-a") .test, testCreate (str "t/02-b") .test,
          testCreate (str "t/03-c") .test] [(false, .skipped), (true, .failed)] = some l
      ∧ Sequenced listed false [testCreate (str "t/01-a") .test,
          testCreate (str "t/02-b") .test, testCreate (str "t/03-c") .test]
          [(false, .skipped), (true, .failed)] l :=
  runTests_sequence listed false _ (by decide) (by decide)

end SpufsSequence
