import SpufsTestsuite.RunTestsProofs
import SpufsTestsuite.StrftimeProofs

/-! # The working directory — which runs share one

    `run_tests` names its working directory after the time it was started at
    and does not mind if the directory is there already.  That is safe as far
    as runs at different times have different names.

    The format has `%m`, the month, where the minute belongs.  So a name tells
    the time but for its minute (`workingDir_eq_iff`), and two runs that differ
    in the minute alone share a directory (`runTests_workingDir`). -/

namespace SpufsWorkingDir

open CString SpufsRunTests Strftime

/-- The format of `working_dir`. -/
def dirFormat : Bytes := str "run.%Y-%m-%d.%H:%m:%S"

/-- `working_dir` of a run that is started at the time.  `strftime` may use all
    but one of its 256 bytes. -/
def workingDir (tm : Tm) : Option Bytes := strftime 255 dirFormat tm

/-- The pieces of the format; the month stands in it twice, the minute nowhere. -/
def dirPieces : List (Piece Field) :=
  (str "run.").map .lit
    ++ [.field .year, .lit 45, .field .mon, .lit 45, .field .mday, .lit 46,
      .field .hour, .lit 58, .field .mon, .lit 58, .field .sec]

theorem dirFormat_parse : parseFormat dirFormat = some dirPieces := by decide

/-- There is room for the name. -/
theorem dirPieces_room : (dirPieces.map (·.size Field.width)).sum < 255 := by decide

/-- **What the name tells of the time**: everything but the minute. -/
theorem workingDir_eq_iff (a b : Tm) :
    workingDir a = workingDir b
      ↔ a.year = b.year ∧ a.mon = b.mon ∧ a.mday = b.mday ∧ a.hour = b.hour ∧ a.sec = b.sec := by
  rw [workingDir, workingDir, strftime_eq_iff dirFormat_parse dirPieces_room]
  constructor
  · intro h
    have hyear : (a.year + 1900).toNat = (b.year + 1900).toNat := h .year (by decide)
    have hmon : a.mon + 1 = b.mon + 1 := h .mon (by decide)
    have hinA := a.inYears
    have hinB := b.inYears
    exact ⟨by omega, by omega, h .mday (by decide), h .hour (by decide), h .sec (by decide)⟩
  · rintro ⟨hyear, hmon, hmday, hhour, hsec⟩ f hf
    cases f with
    | year => rw [Field.value, Field.value, hyear]
    | mon => rw [Field.value, Field.value, hmon]
    | mday => exact hmday
    | hour => exact hhour
    | min => exact absurd hf (by decide)
    | sec => exact hsec

/-- There is always a name. -/
theorem workingDir_isSome (tm : Tm) : ∃ name, workingDir tm = some name :=
  ⟨_, strftime_expand dirFormat_parse dirPieces_room tm⟩

/-! ## The current directory -/

/-- Who made an entry: the run started at the time, or somebody else. -/
inductive Maker where
  | run (tm : Tm)
  | other
  deriving DecidableEq, Repr

/-- The entries of the directory that runs are started in. -/
abbrev CurrentDir := Bytes → Option Maker

/-- A run: when it is started, and what happens in front of its first test. -/
structure RunEnv where
  time  : Tm
  setup : Setup
  deriving DecidableEq, Repr

/-- `mkdir`; where it fails with `EEXIST` the entry stays. -/
def makeDir (name : Bytes) (tm : Tm) (cwd : CurrentDir) : CurrentDir :=
  if (cwd name).isSome then cwd else Function.update cwd name (some (.run tm))

/-- `run_tests` up to its loop: the current directory behind it, and who made the
    directory that the tests are then executed in. -/
def startRun (r : RunEnv) (cwd : CurrentDir) : CurrentDir × Option Maker :=
  if r.setup.dmesg ≠ 0 then (cwd, none)
  else
    match workingDir r.time with
    | none => (cwd, none)
    | some name =>
        if r.setup.mkdir = false then (cwd, none)
        else if r.setup.dirfd < 0 then (makeDir name r.time cwd, none)
        else (makeDir name r.time cwd, makeDir name r.time cwd name)

/-- What happens to the current directory: a run, or an entry that somebody else
    makes or removes. -/
inductive Event where
  | run (r : RunEnv)
  | appear (name : Bytes)
  | vanish (name : Bytes)

def Event.apply (e : Event) (cwd : CurrentDir) : CurrentDir :=
  match e with
  | .run r => (startRun r cwd).1
  | .appear name => if (cwd name).isSome then cwd else Function.update cwd name (some .other)
  | .vanish name => Function.update cwd name none

/-- The current directory after the events. -/
def after (cwd : CurrentDir) (history : List Event) : CurrentDir :=
  history.foldl (fun cwd e => e.apply cwd) cwd

/-- The entries that runs have made have the runs' names. -/
def OwnNames (cwd : CurrentDir) : Prop :=
  ∀ name tm, cwd name = some (.run tm) → workingDir tm = some name

/-- A changed entry is nobody's run, or has the run's name. -/
theorem OwnNames.update {cwd : CurrentDir} (h : OwnNames cwd) {name : Bytes} {m : Option Maker}
    (hm : ∀ tm, m = some (.run tm) → workingDir tm = some name) :
    OwnNames (Function.update cwd name m) := by
  intro n tm hn
  by_cases heq : n = name
  · rw [heq, Function.update_self] at hn
    rw [heq, hm tm hn]
  · rw [Function.update_of_ne heq] at hn
    exact h n tm hn

theorem makeDir_own {name : Bytes} {tm : Tm} {cwd : CurrentDir} (h : OwnNames cwd)
    (hname : workingDir tm = some name) : OwnNames (makeDir name tm cwd) := by
  rw [makeDir]
  split
  · exact h
  · refine h.update ?_
    rintro _ ⟨⟩
    exact hname

/-- What a run does to the current directory: nothing, or its `mkdir`; and where
    it executes its tests. -/
theorem startRun_cases (r : RunEnv) (cwd : CurrentDir) :
    (r.setup.ok = false ∧ (startRun r cwd).2 = none
        ∧ ((startRun r cwd).1 = cwd ∨ ∃ name, workingDir r.time = some name
          ∧ (startRun r cwd).1 = makeDir name r.time cwd))
      ∨ r.setup.ok = true ∧ ∃ name, workingDir r.time = some name
        ∧ startRun r cwd = (makeDir name r.time cwd, makeDir name r.time cwd name) := by
  obtain ⟨name, hname⟩ := workingDir_isSome r.time
  rw [startRun, hname, Setup.ok]
  by_cases hd : r.setup.dmesg = 0
  · rw [if_neg (not_not_intro hd), hd]
    by_cases hm : r.setup.mkdir = false
    · rw [hm]
      exact .inl ⟨rfl, rfl, .inl rfl⟩
    · rw [Bool.not_eq_false _ |>.mp hm]
      by_cases hf : r.setup.dirfd < 0
      · rw [decide_eq_false (Int.not_le.mpr hf)]
        simp only [if_pos hf]
        exact .inl ⟨rfl, rfl, .inr ⟨name, rfl, rfl⟩⟩
      · rw [decide_eq_true (Int.not_lt.mp hf)]
        simp only [if_neg hf]
        exact .inr ⟨rfl, name, rfl, rfl⟩
  · rw [if_pos hd]
    refine .inl ⟨?_, rfl, .inl rfl⟩
    rw [beq_eq_false_iff_ne.mpr hd]
    rfl

/-- A run executes tests, in some directory, exactly when `run_tests` comes to its
    loop. -/
theorem startRun_executes (r : RunEnv) (cwd : CurrentDir) :
    (startRun r cwd).2.isSome = true ↔ r.setup.ok = true := by
  obtain ⟨hok, hnone, -⟩ | ⟨hok, name, -, hrun⟩ := startRun_cases r cwd
  · rw [hnone, hok]
    exact Iff.rfl
  · have hmade : (makeDir name r.time cwd name).isSome = true := by
      rw [makeDir]
      split
      · assumption
      · rw [Function.update_self]
        rfl
    rw [hrun, hok, hmade]

theorem Event.apply_own (e : Event) {cwd : CurrentDir} (h : OwnNames cwd) :
    OwnNames (e.apply cwd) := by
  cases e with
  | run r =>
      obtain ⟨-, -, hcwd | ⟨name, hname, hcwd⟩⟩ | ⟨-, name, hname, hrun⟩ := startRun_cases r cwd
      · rw [Event.apply, hcwd]
        exact h
      · rw [Event.apply, hcwd]
        exact makeDir_own h hname
      · rw [Event.apply, hrun]
        exact makeDir_own h hname
  | appear name =>
      rw [Event.apply]
      split
      · exact h
      · exact h.update fun tm hother => nomatch hother
  | vanish name => exact h.update fun tm hnone => nomatch hnone

/-- Whatever happens, the runs' entries keep the runs' names. -/
theorem after_own {cwd : CurrentDir} (h : OwnNames cwd) (history : List Event) :
    OwnNames (after cwd history) := by
  induction history generalizing cwd with
  | nil => exact h
  | cons e history ih => exact ih (e.apply_own h)

/-- A run executes its tests in a directory that a run of its own name has made. -/
theorem startRun_own {r : RunEnv} {cwd : CurrentDir} {tm : Tm} (h : OwnNames cwd)
    (hrun : (startRun r cwd).2 = some (.run tm)) : workingDir tm = workingDir r.time := by
  obtain ⟨-, hnone, -⟩ | ⟨-, name, hname, hboth⟩ := startRun_cases r cwd
  · exact nomatch hnone.symm.trans hrun
  · rw [hboth] at hrun
    rw [hname]
    exact makeDir_own h hname name tm hrun

/-! ## Two runs -/

/-- A run at `b` never executes its tests in a directory that a run at `a` has
    left, whatever has happened since there was no run's directory. -/
def KeepsOut (a b : Tm) : Prop :=
  ∀ (cwd : CurrentDir) (history : List Event) (r : RunEnv),
    (∀ name tm, cwd name ≠ some (.run tm)) → r.time = b →
      (startRun r (after cwd history)).2 ≠ some (.run a)

/-- The times differ in the minute and in nothing else. -/
def MinuteApart (a b : Tm) : Prop :=
  a.min ≠ b.min ∧ a.year = b.year ∧ a.mon = b.mon ∧ a.mday = b.mday ∧ a.hour = b.hour
    ∧ a.sec = b.sec

theorem minuteApart_iff {a b : Tm} :
    MinuteApart a b ↔ a ≠ b ∧ workingDir a = workingDir b := by
  rw [workingDir_eq_iff]
  constructor
  · rintro ⟨hmin, hrest⟩
    exact ⟨fun h => hmin (congrArg Tm.min h), hrest⟩
  · rintro ⟨hne, hyear, hmon, hmday, hhour, hsec⟩
    exact ⟨fun hmin => hne (Tm.ext hyear hmon hmday hhour hmin hsec), hyear, hmon, hmday, hhour,
      hsec⟩

/-- A setup that nothing stops. -/
def goodSetup : Setup := { dmesg := 0, mkdir := true, dirfd := 3 }

/-- Runs of one name, in a directory with no entries, share a directory. -/
theorem shares {a b : Tm} (h : workingDir a = workingDir b) :
    (startRun ⟨b, goodSetup⟩ (after (fun _ => none) [.run ⟨a, goodSetup⟩])).2
      = some (.run a) := by
  obtain ⟨name, hname⟩ := workingDir_isSome a
  have hfirst : after (fun _ => none) [.run ⟨a, goodSetup⟩]
      = Function.update (fun _ => none) name (some (.run a)) := by
    show (startRun ⟨a, goodSetup⟩ fun _ => none).1 = _
    simp [startRun, hname, goodSetup, makeDir]
  rw [hfirst]
  simp [startRun, ← h, hname, goodSetup, makeDir]

/-- **Two runs at different times keep to directories of their own, unless the
    times differ in the minute alone.** -/
theorem runTests_workingDir (a b : Tm) :
    ((a ≠ b → workingDir a ≠ workingDir b) ↔ ¬ MinuteApart a b)
      ∧ ((a ≠ b → KeepsOut a b) ↔ ¬ MinuteApart a b) := by
  rw [minuteApart_iff, not_and]
  refine ⟨Iff.rfl, ?_⟩
  constructor
  · intro h hne heq
    refine h hne (fun _ => none) [.run ⟨a, goodSetup⟩] ⟨b, goodSetup⟩ ?_ rfl (shares heq)
    intro name tm hnone
    exact nomatch hnone
  · intro h hne cwd history r hcwd hr hrun
    have hown : OwnNames cwd := fun name tm hn => absurd hn (hcwd name tm)
    have heq := startRun_own (after_own hown history) hrun
    rw [hr] at heq
    exact h hne heq

/-- Noon of 31 January 2007, and a minute later. -/
def noon : Tm := ⟨107, 0, 31, 12, 0, 0, by decide, by decide, by decide, by decide, by decide,
  by decide⟩

def minuteLater : Tm := ⟨107, 0, 31, 12, 1, 0, by decide, by decide, by decide, by decide,
  by decide, by decide⟩

/-- Two runs a minute apart have one name, and the second executes its tests in the
    directory of the first. -/
theorem runTests_workingDir_noon :
    noon ≠ minuteLater ∧ workingDir noon = some (str "run.2007-01-31.12:01:00")
      ∧ workingDir minuteLater = workingDir noon ∧ ¬ KeepsOut noon minuteLater := by
  have hname : workingDir minuteLater = workingDir noon := by decide
  refine ⟨by decide, by decide, hname, ?_⟩
  intro h
  refine h (fun _ => none) [.run ⟨noon, goodSetup⟩] ⟨minuteLater, goodSetup⟩ ?_ rfl
    (shares hname.symm)
  intro name tm hnone
  exact nomatch hnone

end SpufsWorkingDir
