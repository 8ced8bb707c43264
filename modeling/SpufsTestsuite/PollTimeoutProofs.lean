import SpufsTestsuite.TimeoutProofs

/-! # The timeout of `poll` — how long the runner can block

    In every turn of its loop `run_test` polls for the whole seconds that are
    left until the deadline, and a millisecond.  The number is computed in a
    `long` and handed on as an `int`; behind the deadline it is negative, which
    makes `poll` wait for ever.

    What is handed to `poll` is a function of the clock alone (`run_passed`),
    so that the readings decide whether the runner can block
    (`pollTimeout_bounded`). -/

namespace SpufsPollTimeout

open CString SpufsTest SpufsRunTest SpufsTimeout Automaton

/-- `timeout`, as it arrives in `read_test_output`. -/
def pollTimeout (deadline tv : Timeval) : Int :=
  Int.bmod (1 + 1000 * (deadline.sec - tv.sec)) (2 ^ 32)

/-- The runner has passed this timeout to `poll`. -/
def Passed (r : Runner) (n : Int) : Prop :=
  r.pc = .poll n ∨ ∃ fd, Call.poll fd n ∈ r.calls

/-- A timeout that does not block: no negative one, and none behind the
    deadline's second, if there is one. -/
def Bounded (timeout n : Int) : Prop := 0 ≤ n ∧ (0 ≤ timeout → n ≤ 1 + 1000 * timeout)

/-! ## One step -/

section Step

variable {enableTimeout : Bool} {r r' : Runner} {a : Answer} {n : Int}

/-- **One step and the poll**: a reading of the clock passes its timeout, and
    nothing else passes one. -/
theorem step_passed (h : step enableTimeout r a = some r') :
    Passed r' n ↔ Passed r n
      ∨ r.pc = .clock ∧ ∃ tv, a = .clock tv ∧ n = pollTimeout r.deadline tv := by
  have hleaves : ∀ {u : Runner}, Leaves u r' → u.calls = r.calls ∨ (∃ pid, u.calls
      = r.calls ++ [.waitid pid]) → (∀ n, r.pc ≠ .poll n) → r.pc ≠ .clock →
      (Passed r' n ↔ Passed r n
        ∨ r.pc = .clock ∧ ∃ tv, a = .clock tv ∧ n = pollTimeout r.deadline tv) := by
    intro u hu hcalls hpoll hclock
    rw [or_iff_left (fun h => hclock h.1)]
    cases hu with
    | out hu => rcases hcalls with hc | ⟨pid, hc⟩ <;> simp [Passed, hu, finish, hc, hpoll n]
    | log hu => rcases hcalls with hc | ⟨pid, hc⟩ <;> simp [Passed, hu, hc, hpoll n]
  cases step_cases h with
  | pipeFailed hpc => simp [Passed, hpc]
  | piped hpc => simp [Passed, hpc]
  | forkFailed hpc hpid => simp [Passed, hpc]
  | forked hpc hpid => simp [Passed, hpc]
  | sigactionFailed hpc => simp [Passed, hpc]
  | sigaction hpc => simp [Passed, hpc]
  | start hpc => simp [Passed, hpc]
  | waitidFailed hpc => simp [Passed, hpc, finish, waited]
  | running hpc => simp [Passed, hpc, waited]
  | reaped hpc hreap =>
      exact hleaves (reap_leaves hreap) (Or.inr ⟨_, rfl⟩) (by simp [hpc]) (by simp [hpc])
  | dmesg hpc hcheck =>
      exact hleaves (checkDmesg_leaves hcheck) (Or.inl rfl) (by simp [hpc]) (by simp [hpc])
  | @clock tv hpc =>
      have hcalls : ∀ fd, Call.poll fd n ∈ (checkClock enableTimeout r tv).calls
          ↔ Call.poll fd n ∈ r.calls := by
        intro fd
        rw [checkClock, List.mem_append]
        refine or_iff_left ?_
        split <;> simp
      have hpc' : (checkClock enableTimeout r tv).pc = .poll (pollTimeout r.deadline tv) := rfl
      simp only [Passed, hcalls, hpc, hpc', Pc.poll.injEq]
      constructor
      · rintro (rfl | hn)
        · exact Or.inr ⟨trivial, tv, rfl, rfl⟩
        · exact Or.inl (Or.inr hn)
      · rintro ((hn | hn) | ⟨-, tv', htv, rfl⟩)
        · exact nomatch hn
        · exact Or.inr hn
        · rw [Answer.clock.inj htv]
          exact Or.inl rfl
  | pollError hpc => simp [Passed, hpc, polled, exists_or, eq_comm, or_comm]
  | pollTimeout hpc => simp [Passed, hpc, polled, exists_or, eq_comm, or_comm]
  | pollErr hpc hfd => simp [Passed, hpc, polled, exists_or, eq_comm, or_comm]
  | pollReady hpc hfd => simp [Passed, hpc, polled, exists_or, eq_comm, or_comm]
  | readError hpc => simp [Passed, hpc, readDone]
  | readData hpc ho => simp [Passed, hpc, readDone]

end Step

/-! ## Runs -/

section Run

variable {enableTimeout : Bool} {r r' : Runner} {as : List Answer} {n : Int}

/-- From the deadline on, every reading of the clock passes its timeout. -/
theorem run_timed_passed (h : run (step enableTimeout) r as = some r')
    (htimed : Pc.timed r.pc = true) :
    Passed r' n ↔ Passed r n ∨ ∃ tv ∈ clocks as, n = pollTimeout r.deadline tv := by
  induction as generalizing r with
  | nil =>
      rw [← Option.some.inj h]
      refine (or_iff_left ?_).symm
      rintro ⟨tv, htv, -⟩
      cases htv
  | cons a as ih =>
      obtain ⟨r₁, hs, hr⟩ := run_cons.mp h
      have hpassed := step_passed (n := n) hs
      cases step_time hs with
      | start hpc => rw [hpc] at htimed; cases htimed
      | @check tv hpc hcalls hdead ht =>
          rw [ih hr ht, hpassed, hdead, or_assoc, clocks_cons]
          refine or_congr_right ?_
          simp only [Answer.clock?, Option.toList_some, List.singleton_append,
            List.mem_cons, exists_eq_or_imp, hpc, true_and]
          refine or_congr_left ?_
          constructor
          · rintro ⟨tv', htv, hn⟩
            rw [Answer.clock.inj htv]
            exact hn
          · exact fun hn => ⟨tv, rfl, hn⟩
      | other ha hcalls hdead ht =>
          have ht₁ : Pc.timed r₁.pc = true := by
            rcases ht with ht | ht
            · exact ht.trans htimed
            · rw [ht]
              rfl
          have hno : ¬ (r.pc = .clock ∧ ∃ tv, a = .clock tv
              ∧ n = pollTimeout r.deadline tv) := by
            rintro ⟨-, tv, rfl, -⟩
            cases ha
          rw [ih hr ht₁, hpassed, or_iff_left hno, hdead, clocks_cons, ha]
          rfl

/-- The timeouts passed to `poll` are those of the readings behind the first,
    which sets the deadline. -/
theorem run_passed (h : run (step enableTimeout) r as = some r')
    (htimed : Pc.timed r.pc = false) (hnone : ¬ Passed r n) :
    Passed r' n ↔ ∃ start later, clocks as = start :: later ∧ ∃ tv ∈ later,
      n = pollTimeout { start with sec := start.sec + r.test.timeout } tv := by
  induction as generalizing r with
  | nil =>
      rw [← Option.some.inj h]
      refine (iff_false_left hnone).mpr ?_
      rintro ⟨start, later, hc, -⟩
      exact nomatch hc
  | cons a as ih =>
      obtain ⟨r₁, hs, hr⟩ := run_cons.mp h
      have hclock : r.pc ≠ .clock := by
        intro hpc
        rw [hpc] at htimed
        exact nomatch htimed
      have hnone₁ : ¬ Passed r₁ n := by
        rw [step_passed hs]
        rintro (hp | ⟨hpc, -⟩)
        · exact hnone hp
        · exact hclock hpc
      cases step_time hs with
      | @start tv hpc hcalls hdead ht =>
          rw [run_timed_passed hr ht, or_iff_right hnone₁, hdead]
          constructor
          · intro hlater
            exact ⟨tv, clocks as, rfl, hlater⟩
          · rintro ⟨start, later, hc, hlater⟩
            obtain ⟨rfl, rfl⟩ := List.cons.inj hc
            exact hlater
      | check hpc => exact absurd hpc hclock
      | other ha _ _ ht =>
          have hclocks : clocks (a :: as) = clocks as := by
            rw [clocks_cons, ha]
            rfl
          rcases ht with ht | ht
          · rw [ih hr (ht.trans htimed) hnone₁, hclocks, timeout_kept hs htimed]
          · obtain ⟨rfl, rfl⟩ := run_stuck (step_done ht) hr
            refine (iff_false_left hnone₁).mpr ?_
            rintro ⟨start, later, hc, -⟩
            rw [hclocks] at hc
            exact nomatch hc

end Run

/-! ## The range of an `int` -/

/-- The seconds that are left, as the code counts them. -/
def secondsLeft (timeout : Int) (start tv : Timeval) : Int := start.sec + timeout - tv.sec

/-- The milliseconds left lie in the half of a period of 2^32 that an `int` maps
    to numbers that are not negative: in the first period, or in a later one of
    a timeout as long as that, or in one behind the deadline (then as many
    periods have gone by since the start, if there is a deadline). -/
def InWindow (timeout : Int) (start tv : Timeval) : Prop :=
  ∃ k : Int, k * 2 ^ 32 ≤ 1 + 1000 * secondsLeft timeout start tv
    ∧ 1 + 1000 * secondsLeft timeout start tv < k * 2 ^ 32 + 2 ^ 31
    ∧ (k < 0 → 0 ≤ timeout → -k * 2 ^ 32 ≤ 1000 * (tv.sec - start.sec))

example : InWindow 10 ⟨0, 0⟩ ⟨3, 0⟩ :=
  ⟨0, by decide, by decide, fun h => absurd h (by decide)⟩

/-- A clock that does not go back. -/
theorem sec_le_of_after {a b : Timeval} (h : a.after b = false) : a.sec ≤ b.sec := by
  rw [Timeval.after] at h
  split at h
  · next heq => exact Int.le_of_eq heq
  · exact Int.not_lt.mp (of_decide_eq_false h)

/-- What the way through an `int` does to a number. -/
theorem bmod_int (x : Int) : ∃ q : Int, x = q * 2 ^ 32 + Int.bmod x (2 ^ 32)
    ∧ -2 ^ 31 ≤ Int.bmod x (2 ^ 32) ∧ Int.bmod x (2 ^ 32) < 2 ^ 31 := by
  have hlo : -2 ^ 31 ≤ Int.bmod x (2 ^ 32) := @Int.le_bmod x (2 ^ 32) (by decide)
  have hhi : Int.bmod x (2 ^ 32) < 2 ^ 31 := @Int.bmod_lt x (2 ^ 32) (by decide)
  exact ⟨Int.bdiv x (2 ^ 32), (Int.bdiv_add_bmod' x (2 ^ 32)).symm, hlo, hhi⟩

/-- **The number that arrives does not block** exactly in these windows. -/
theorem bounded_iff {timeout : Int} {start tv : Timeval} (hmono : start.after tv = false) :
    Bounded timeout (pollTimeout { start with sec := start.sec + timeout } tv)
      ↔ InWindow timeout start tv := by
  have hsec := sec_le_of_after hmono
  have hdef : pollTimeout { start with sec := start.sec + timeout } tv
      = Int.bmod (1 + 1000 * secondsLeft timeout start tv) (2 ^ 32) := rfl
  have hleft : secondsLeft timeout start tv = start.sec + timeout - tv.sec := rfl
  obtain ⟨q, hq, hlo, hhi⟩ := bmod_int (1 + 1000 * secondsLeft timeout start tv)
  rw [InWindow, Bounded, hdef]
  generalize Int.bmod (1 + 1000 * secondsLeft timeout start tv) (2 ^ 32) = n at hq hlo hhi ⊢
  constructor
  · rintro ⟨hn, hbound⟩
    refine ⟨q, by omega, by omega, fun hneg ht => ?_⟩
    have := hbound ht
    omega
  · rintro ⟨k, hk, hk', hlate⟩
    have hkq : k = q := by omega
    subst hkq
    refine ⟨by omega, fun ht => ?_⟩
    by_cases hneg : k < 0
    · have := hlate hneg ht
      omega
    · omega

/-- **The runner does not block**: every timeout it has passed to `poll`, in
    every state of the run of a test, is bounded exactly if every reading of
    the clock behind the first is in one of the windows. -/
theorem pollTimeout_bounded {t : Test} {stdout : Bytes} {as : List Answer} {r : Runner}
    (hmono : (clocks as).Pairwise (fun a b => a.after b = false))
    (h : run (step true) (startRunner t stdout) as = some r) :
    (∀ n, Passed r n → Bounded t.timeout n)
      ↔ ∀ start later, clocks as = start :: later → ∀ tv ∈ later,
          InWindow t.timeout start tv := by
  have hpassed : ∀ {n}, Passed r n ↔ ∃ start later, clocks as = start :: later ∧ ∃ tv ∈ later,
      n = pollTimeout { start with sec := start.sec + t.timeout } tv := by
    intro n
    have hnone : ¬ Passed (startRunner t stdout) n := by
      rintro (hpc | ⟨fd, hfd⟩)
      · exact nomatch hpc
      · exact nomatch hfd
    have hrun := run_passed h rfl hnone
    exact hrun
  constructor
  · intro hall start later hc tv htv
    rw [hc] at hmono
    exact (bounded_iff (List.rel_of_pairwise_cons hmono htv)).mp
      (hall _ (hpassed.mpr ⟨start, later, hc, tv, htv, rfl⟩))
  · intro hall n hn
    obtain ⟨start, later, hc, tv, htv, rfl⟩ := hpassed.mp hn
    rw [hc] at hmono
    exact (bounded_iff (List.rel_of_pairwise_cons hmono htv)).mpr (hall start later hc tv htv)

/-! ## A test that survives its deadline -/

/-- The child is still running at this reading of the clock. -/
def stillRunning (tv : Timeval) : List Answer :=
  [.pipe (some (3, 4)), .fork 100, .sigaction true, .clock ⟨0, 0⟩, .running, .clock tv]

/-- The run of a test with a timeout of 10 seconds up to its first `poll`. -/
theorem stillRunning_polls (tv : Timeval) :
    ∃ r, run (step true) (startRunner (testCreate (str "t/01-a") .test) [])
        (stillRunning tv) = some r
      ∧ r.pc = .poll (pollTimeout ⟨10, 0⟩ tv) :=
  ⟨_, rfl, rfl⟩

theorem pollTimeout_bounded_sample :
    ∃ r, run (step true) (startRunner (testCreate (str "t/01-a") .test) [])
        (stillRunning ⟨3, 0⟩) = some r
      ∧ (clocks (stillRunning ⟨3, 0⟩)).Pairwise (fun a b => a.after b = false)
      ∧ ((∀ n, Passed r n → Bounded 10 n)
        ↔ ∀ start later, clocks (stillRunning ⟨3, 0⟩) = start :: later → ∀ tv ∈ later,
            InWindow 10 start tv) := by
  obtain ⟨r, hr, -⟩ := stillRunning_polls ⟨3, 0⟩
  have hmono : (clocks (stillRunning ⟨3, 0⟩)).Pairwise (fun a b => a.after b = false) := by
    decide
  exact ⟨r, hr, hmono, pollTimeout_bounded hmono hr⟩

/-- At 12 s the child is sent `SIGALRM`, and the runner then polls without a
    bound, whether the child dies of the signal or not. -/
theorem pollTimeout_negative :
    ∃ r, run (step true) (startRunner (testCreate (str "t/01-a") .test) [])
        (stillRunning ⟨12, 0⟩) = some r
      ∧ (clocks (stillRunning ⟨12, 0⟩)).Pairwise (fun a b => a.after b = false)
      ∧ Passed r (-1999) ∧ ¬ Bounded 10 (-1999) := by
  obtain ⟨r, hr, hpc⟩ := stillRunning_polls ⟨12, 0⟩
  refine ⟨r, hr, by decide, Or.inl ?_, fun h => absurd h.1 (by decide)⟩
  rw [hpc]
  rfl

end SpufsPollTimeout
