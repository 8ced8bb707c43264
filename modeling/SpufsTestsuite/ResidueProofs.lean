import SpufsTestsuite.RunTestsProofs

/-! # Residue — what a test leaves behind in the runner

    The runner's process has open descriptors and children it has not reaped.
    `pipe` and `fork` add to them, `close` and a `waitid` that reports the exit
    of the child take away, and everything else leaves them alone.

    At every call `run_test` waits for, what it holds beyond the start is known
    (`Held`).  It gives everything back where it returns behind the reap, and
    nothing where it returns because `fork`, `sigaction` or `waitid` has failed
    (`stepIn_held`); a whole run of tests is clean exactly when no test of it
    meets such a failure (`runTests_residue`). -/

namespace SpufsResidue

open CString Automaton SpufsTest SpufsConfScan SpufsCapability SpufsShouldRun
open SpufsRunTest SpufsRunTests

/-- What the runner's process has: its open descriptors, and the children that
    have not been reaped. -/
structure World where
  fds : Finset Int
  children : Finset Int
  deriving DecidableEq

/-! ## The calls on the world -/

/-- What an answer says of the world: `none` where the kernel cannot give it.
    The numbers of a pipe and the number of a child are new. -/
def kernel (r : Runner) (w : World) : Answer → Option World
  | .pipe (some (readEnd, writeEnd)) =>
      if readEnd ∈ w.fds ∨ writeEnd ∈ w.fds ∨ readEnd = writeEnd then none
      else some { w with fds := insert writeEnd (insert readEnd w.fds) }
  | .fork pid =>
      if pid ≤ 0 then some w
      else if pid ∈ w.children then none
      else some { w with children := insert pid w.children }
  | .reaped _ => some { w with children := w.children.erase r.test.run.pid }
  | _ => some w

/-- A call of the runner on the world. -/
def World.after (w : World) : Call → World
  | .close fd => { w with fds := w.fds.erase fd }
  | .waitid _ | .kill _ _ | .poll _ _ | .read _ _ => w

/-- The calls of one step. -/
def newCalls (r r' : Runner) : List Call := r'.calls.drop r.calls.length

/-- One answer, in the world. -/
def stepIn (enableTimeout : Bool) (x : Runner × World) (a : Answer) :
    Option (Runner × World) :=
  (kernel x.1 x.2 a).bind fun w =>
    (step enableTimeout x.1 a).map fun r => (r, (newCalls x.1 r).foldl World.after w)

/-- `run_test` in the world: its outcome, and the world it leaves. -/
def runTestIn {W : Type} (enableTimeout : Bool) (sc : Script) (cs : CapState W) (t : Test)
    (w : World) : Option (Outcome W × World) :=
  match testReadConfig sc.fs sc.frame t with
  | none => none
  | some (_, s) =>
      match testShouldRun s.test sc.dead cs with
      | none => none
      | some d =>
          let stdout := testHeader t ++ d.stdout
          if d.run then
            match run (stepIn enableTimeout) (startRunner d.test stdout, w) sc.answers with
            | some (⟨.done rc, t', _, out, calls⟩, w') =>
                some (⟨rc, t', out, s.stderr, d.caps, calls⟩, w')
            | _ => none
          else if sc.answers.isEmpty then
            some (⟨0, d.test, stdout, s.stderr, d.caps, []⟩, w)
          else none

/-- An answer behind which `run_test` gives up on what it has opened. -/
def abandons : Answer → Bool
  | .fork pid => decide (pid < 0)
  | .sigaction ok => !ok
  | .waitidError => true
  | _ => false

/-- No such answer came. -/
def Settled (as : List Answer) : Prop := ∀ a ∈ as, abandons a = false

/-! ## What is held -/

/-- There is a child that has not been reaped. -/
def hasChild : Pc → Bool
  | .sigaction | .start | .wait | .clock | .poll _ | .read => true
  | .pipe | .fork _ | .dmesg | .done _ => false

/-- **What `run_test` holds** beyond the world `w₀` it was called in, at each of
    its calls. -/
inductive Held (w₀ : World) (r : Runner) (w : World) : Prop
  | nothing (hpc : r.pc = .pipe) (hw : w = w₀)
  | bothEnds {writeEnd : Int} (hpc : r.pc = .fork writeEnd)
      (hread : r.test.run.stdoutFd ∉ w₀.fds) (hwrite : writeEnd ∉ w₀.fds)
      (hne : writeEnd ≠ r.test.run.stdoutFd)
      (hw : w = { w₀ with fds := insert writeEnd (insert r.test.run.stdoutFd w₀.fds) })
  | child (hpc : hasChild r.pc = true)
      (hread : r.test.run.stdoutFd ∉ w₀.fds) (hpid : r.test.run.pid ∉ w₀.children)
      (hw : w = ⟨insert r.test.run.stdoutFd w₀.fds, insert r.test.run.pid w₀.children⟩)
  | readEnd (hpc : r.pc = .dmesg) (hread : r.test.run.stdoutFd ∉ w₀.fds)
      (hw : w = { w₀ with fds := insert r.test.run.stdoutFd w₀.fds })

section Step

variable {enableTimeout : Bool} {w₀ w w' : World} {r r' : Runner} {a : Answer}

theorem after_append {v : World} (hw : w' = (newCalls r r').foldl World.after v)
    {ds : List Call} (h : r'.calls = r.calls ++ ds) : w' = ds.foldl World.after v := by
  rw [hw, newCalls, h, List.drop_left]

theorem after_self {v : World} (hw : w' = (newCalls r r').foldl World.after v)
    (h : r'.calls = r.calls) : w' = v := by
  rw [hw, newCalls, h, List.drop_length]
  rfl

/-- The world behind a step. -/
theorem stepIn_eq_some (h : stepIn enableTimeout (r, w) a = some (r', w')) :
    ∃ v, kernel r w a = some v ∧ step enableTimeout r a = some r'
      ∧ w' = (newCalls r r').foldl World.after v := by
  obtain ⟨v, hv, h⟩ := Option.bind_eq_some_iff.mp h
  obtain ⟨q, hq, heq⟩ := Option.map_eq_some_iff.mp h
  obtain ⟨rfl, rfl⟩ := Prod.mk.inj heq
  exact ⟨v, hv, hq, rfl⟩

theorem stepIn_done {rc : Int32} (hpc : r.pc = .done rc) (a : Answer) :
    stepIn enableTimeout (r, w) a = none := by
  rw [stepIn, step_done hpc]
  cases kernel r w a <;> rfl

/-- A set that has a new element is another set. -/
theorem insert_ne {x : Int} {s : Finset Int} (h : x ∉ s) : insert x s ≠ s := fun heq =>
  h (Finset.insert_eq_self.mp heq)

/-- What one step makes of what is held: it goes on, or it returns with nothing
    left, or it gives up and leaves something. -/
inductive Goes (w₀ : World) (a : Answer) (r' : Runner) (w' : World) : Prop
  | on (hkeep : abandons a = false) (hpc : ∀ rc, r'.pc ≠ .done rc) (h : Held w₀ r' w')
  | back {rc : Int32} (hkeep : abandons a = false) (hpc : r'.pc = .done rc) (hw : w' = w₀)
  | away {rc : Int32} (haway : abandons a = true) (hpc : r'.pc = .done rc) (hw : w' ≠ w₀)

/-- Calls that close nothing. -/
theorem after_quiet {cs : List Call} (h : ∀ c ∈ cs, ∀ fd, c ≠ .close fd) (v : World) :
    cs.foldl World.after v = v := by
  induction cs with
  | nil => rfl
  | cons c cs ih =>
      have hc : v.after c = v := by
        cases c with
        | close fd => exact absurd rfl (h _ List.mem_cons_self fd)
        | _ => rfl
      rw [List.foldl_cons, hc]
      exact ih (fun d hd => h d (List.mem_cons_of_mem _ hd))

/-- The child is there before and behind a step that asks nothing of it. -/
theorem goes_child (hkeep : abandons a = false) (hpc : hasChild r'.pc = true)
    (hfd : r'.test.run.stdoutFd = r.test.run.stdoutFd)
    (hpid : r'.test.run.pid = r.test.run.pid) {ds : List Call}
    (hcalls : r'.calls = r.calls ++ ds) (hds : ∀ c ∈ ds, ∀ fd, c ≠ .close fd)
    (hread : r.test.run.stdoutFd ∉ w₀.fds) (hchild : r.test.run.pid ∉ w₀.children)
    {v : World}
    (hv : v = ⟨insert r.test.run.stdoutFd w₀.fds, insert r.test.run.pid w₀.children⟩)
    (hw' : w' = (newCalls r r').foldl World.after v) : Goes w₀ a r' w' := by
  have hw' := after_append hw' hcalls
  rw [after_quiet hds, hv, ← hfd, ← hpid] at hw'
  rw [← hfd] at hread
  rw [← hpid] at hchild
  refine .on hkeep ?_ (.child hpc hread hchild hw')
  intro rc hdone
  rw [hdone] at hpc
  exact nomatch hpc

/-- The way out behind the reap closes the read end. -/
theorem goes_leaves (hkeep : abandons a = false) {q : Runner} (hl : Leaves q r')
    (hfd : q.test.run.stdoutFd = r.test.run.stdoutFd) {ds : List Call}
    (hcalls : q.calls = r.calls ++ ds) (hds : ∀ c ∈ ds, ∀ fd, c ≠ .close fd)
    (hread : r.test.run.stdoutFd ∉ w₀.fds) {v : World}
    (hv : v = { w₀ with fds := insert r.test.run.stdoutFd w₀.fds })
    (hw' : w' = (newCalls r r').foldl World.after v) : Goes w₀ a r' w' := by
  cases hl with
  | out heq =>
      have hnew : r'.calls = r.calls ++ (ds ++ [.close r.test.run.stdoutFd]) := by
        rw [heq]
        show q.calls ++ [.close q.test.run.stdoutFd] = _
        rw [hcalls, hfd, List.append_assoc]
      have hw' := after_append hw' hnew
      rw [List.foldl_append, after_quiet hds, hv] at hw'
      refine .back hkeep (congrArg Runner.pc heq) ?_
      rw [hw']
      show (⟨(insert r.test.run.stdoutFd w₀.fds).erase r.test.run.stdoutFd,
        w₀.children⟩ : World) = w₀
      rw [Finset.erase_insert hread]
  | log heq =>
      have hnew : r'.calls = r.calls ++ ds := by
        rw [heq]
        exact hcalls
      have hw' := after_append hw' hnew
      rw [after_quiet hds, hv] at hw'
      refine .on hkeep ?_ (.readEnd (by rw [heq]) ?_ ?_)
      · intro rc hdone
        rw [heq] at hdone
        exact nomatch hdone
      · rw [heq]
        exact hfd ▸ hread
      · rw [hw', heq]
        exact congrArg (fun fd => (⟨insert fd w₀.fds, w₀.children⟩ : World)) hfd.symm

/-- At each call one kind of thing is held. -/
theorem Held.at_pipe (hw : Held w₀ r w) (hpc : r.pc = .pipe) : w = w₀ := by
  cases hw with
  | nothing _ heq => exact heq
  | bothEnds hp => exact nomatch hpc.symm.trans hp
  | child hp => rw [hpc] at hp; exact nomatch hp
  | readEnd hp => exact nomatch hpc.symm.trans hp

theorem Held.at_fork (hw : Held w₀ r w) {writeEnd : Int} (hpc : r.pc = .fork writeEnd) :
    r.test.run.stdoutFd ∉ w₀.fds ∧ writeEnd ∉ w₀.fds ∧ writeEnd ≠ r.test.run.stdoutFd
      ∧ w = { w₀ with fds := insert writeEnd (insert r.test.run.stdoutFd w₀.fds) } := by
  cases hw with
  | nothing hp => exact nomatch hpc.symm.trans hp
  | bothEnds hp hread hwrite hne heq =>
      cases Pc.fork.inj (hpc.symm.trans hp)
      exact ⟨hread, hwrite, hne, heq⟩
  | child hp => rw [hpc] at hp; exact nomatch hp
  | readEnd hp => exact nomatch hpc.symm.trans hp

theorem Held.at_child (hw : Held w₀ r w) (hpc : hasChild r.pc = true) :
    r.test.run.stdoutFd ∉ w₀.fds ∧ r.test.run.pid ∉ w₀.children
      ∧ w = ⟨insert r.test.run.stdoutFd w₀.fds, insert r.test.run.pid w₀.children⟩ := by
  cases hw with
  | nothing hp => rw [hp] at hpc; exact nomatch hpc
  | bothEnds hp => rw [hp] at hpc; exact nomatch hpc
  | child _ hread hpid heq => exact ⟨hread, hpid, heq⟩
  | readEnd hp => rw [hp] at hpc; exact nomatch hpc

theorem Held.at_dmesg (hw : Held w₀ r w) (hpc : r.pc = .dmesg) :
    r.test.run.stdoutFd ∉ w₀.fds
      ∧ w = { w₀ with fds := insert r.test.run.stdoutFd w₀.fds } := by
  cases hw with
  | nothing hp => exact nomatch hpc.symm.trans hp
  | bothEnds hp => exact nomatch hpc.symm.trans hp
  | child hp => rw [hpc] at hp; exact nomatch hp
  | readEnd _ hread heq => exact ⟨hread, heq⟩

/-- Behind the return nothing is at a call. -/
theorem Held.not_done (hw : Held w₀ r w) {rc : Int32} : r.pc ≠ .done rc := by
  intro hpc
  cases hw with
  | nothing hp => exact nomatch hpc.symm.trans hp
  | bothEnds hp => exact nomatch hpc.symm.trans hp
  | child hp => rw [hpc] at hp; exact nomatch hp
  | readEnd hp => exact nomatch hpc.symm.trans hp

/-- **One step on what is held**, one case for each branch of the code. -/
theorem stepIn_held (h : stepIn enableTimeout (r, w) a = some (r', w')) (hw : Held w₀ r w) :
    Goes w₀ a r' w' := by
  obtain ⟨v, hv, hstep, hw'⟩ := stepIn_eq_some h
  -- the calls with a child that is running
  have hquiet : ∀ {ds : List Call}, abandons a = false → hasChild r.pc = true →
      hasChild r'.pc = true → r'.test.run = r.test.run → r'.calls = r.calls ++ ds →
      (∀ c ∈ ds, ∀ fd, c ≠ .close fd) → kernel r w a = some w → Goes w₀ a r' w' := by
    intro ds hkeep hpc hpc' hrun hcalls hds hk
    obtain ⟨hread, hpid, heq⟩ := hw.at_child hpc
    obtain rfl := Option.some.inj (hk.symm.trans hv)
    exact goes_child hkeep hpc' (by rw [hrun]) (by rw [hrun]) hcalls hds hread hpid heq hw'
  cases step_cases hstep with
  | pipeFailed hpc =>
      obtain rfl := Option.some.inj hv
      exact .back rfl rfl ((after_self hw' rfl).trans (hw.at_pipe hpc))
  | @piped readEnd writeEnd hpc =>
      have hw' := after_self hw' rfl
      rw [kernel, hw.at_pipe hpc] at hv
      split at hv
      · exact nomatch hv
      · next hnew =>
          rw [not_or, not_or] at hnew
          refine .on rfl (fun rc hx => nomatch hx)
            (.bothEnds rfl hnew.1 hnew.2.1 (Ne.symm hnew.2.2) ?_)
          rw [hw', ← Option.some.inj hv]
  | @forkFailed writeEnd pid hpc hpid =>
      have hw' := after_self hw' rfl
      obtain ⟨hread, -, -, heq⟩ := hw.at_fork hpc
      rw [kernel, if_pos (by omega)] at hv
      obtain rfl := Option.some.inj hv
      refine .away (decide_eq_true hpid) rfl ?_
      intro hsame
      have hmem : r.test.run.stdoutFd ∈ w'.fds := by
        rw [hw', heq]
        exact Finset.mem_insert_of_mem (Finset.mem_insert_self _ _)
      exact hread (hsame ▸ hmem)
  | @forked writeEnd pid hpc hpid =>
      have hw' := after_append hw' rfl
      obtain ⟨hread, hwrite, hne, heq⟩ := hw.at_fork hpc
      rw [kernel, if_neg (by omega)] at hv
      split at hv
      · exact nomatch hv
      · next hnew =>
          rw [heq] at hnew
          refine .on (decide_eq_false (by omega)) (fun rc hx => nomatch hx)
            (.child rfl hread hnew ?_)
          rw [hw', ← Option.some.inj hv, heq]
          show (⟨(insert writeEnd (insert r.test.run.stdoutFd w₀.fds)).erase writeEnd,
            insert pid w₀.children⟩ : World) = _
          rw [Finset.erase_insert]
          rw [Finset.mem_insert, not_or]
          exact ⟨hne, hwrite⟩
  | sigactionFailed hpc =>
      obtain ⟨hread, -, heq⟩ := hw.at_child (by rw [hpc]; rfl)
      have hw' := after_self hw' rfl
      rw [← Option.some.inj hv, heq] at hw'
      refine .away rfl rfl ?_
      rw [hw']
      exact fun hsame => insert_ne hread (congrArg World.fds hsame)
  | sigaction hpc =>
      exact hquiet rfl (by rw [hpc]; rfl) rfl rfl (List.append_nil _).symm (by simp) rfl
  | start hpc =>
      exact hquiet rfl (by rw [hpc]; rfl) rfl rfl (List.append_nil _).symm (by simp) rfl
  | waitidFailed hpc =>
      obtain ⟨-, hpid, heq⟩ := hw.at_child (by rw [hpc]; rfl)
      have hw' := after_append hw' (List.append_assoc _ _ _)
      rw [← Option.some.inj hv, heq] at hw'
      refine .away rfl rfl ?_
      rw [hw']
      exact fun hsame => insert_ne hpid (congrArg World.children hsame)
  | running hpc => exact hquiet rfl (by rw [hpc]; rfl) rfl rfl rfl (by simp) rfl
  | reaped hpc hreap =>
      obtain ⟨hread, hpid, heq⟩ := hw.at_child (by rw [hpc]; rfl)
      have hds : ∀ c ∈ [Call.waitid r.test.run.pid], ∀ fd, c ≠ .close fd := by simp
      refine goes_leaves (r := r) rfl (reap_leaves hreap) rfl rfl hds hread ?_ hw'
      rw [← Option.some.inj hv, heq]
      show (⟨insert r.test.run.stdoutFd w₀.fds,
        (insert r.test.run.pid w₀.children).erase r.test.run.pid⟩ : World) = _
      rw [Finset.erase_insert hpid]
  | dmesg hpc hcheck =>
      obtain rfl := Option.some.inj hv
      obtain ⟨hread, heq⟩ := hw.at_dmesg hpc
      exact goes_leaves rfl (checkDmesg_leaves hcheck) rfl (List.append_nil _).symm
        (by simp) hread heq hw'
  | clock hpc =>
      refine hquiet rfl (by rw [hpc]; rfl) rfl rfl rfl ?_ rfl
      intro c hc fd
      split at hc
      · rw [List.mem_singleton.mp hc]
        exact fun hx => nomatch hx
      · exact nomatch hc
  | pollError hpc => exact hquiet rfl (by rw [hpc]; rfl) rfl rfl rfl (by simp) rfl
  | pollTimeout hpc => exact hquiet rfl (by rw [hpc]; rfl) rfl rfl rfl (by simp) rfl
  | pollErr hpc hfd => exact hquiet rfl (by rw [hpc]; rfl) rfl rfl rfl (by simp) rfl
  | pollReady hpc hfd => exact hquiet rfl (by rw [hpc]; rfl) rfl rfl rfl (by simp) rfl
  | readError hpc => exact hquiet rfl (by rw [hpc]; rfl) rfl rfl rfl (by simp) rfl
  | readData hpc ho => exact hquiet rfl (by rw [hpc]; rfl) rfl rfl rfl (by simp) rfl

/-- **A run that returns leaves nothing** exactly when nothing has made it give
    up. -/
theorem run_settled {as : List Answer} {rc : Int32}
    (h : run (stepIn enableTimeout) (r, w) as = some (r', w')) (hd : r'.pc = .done rc)
    (hw : Held w₀ r w) : w' = w₀ ↔ Settled as := by
  induction as generalizing r w with
  | nil =>
      obtain ⟨rfl, rfl⟩ := Prod.mk.inj (Option.some.inj h)
      exact absurd hd hw.not_done
  | cons a as ih =>
      obtain ⟨⟨r₁, w₁⟩, hs, hr⟩ := run_cons.mp h
      rw [Settled, List.forall_mem_cons]
      cases stepIn_held hs hw with
      | on hkeep _ hheld =>
          rw [ih hr hheld]
          exact (and_iff_right hkeep).symm
      | back hkeep hpc hw₁ =>
          obtain ⟨rfl, heq⟩ := run_stuck (stepIn_done hpc) hr
          obtain ⟨rfl, rfl⟩ := Prod.mk.inj heq
          exact iff_of_true hw₁ ⟨hkeep, fun b hb => (nomatch hb)⟩
      | away haway hpc hw₁ =>
          obtain ⟨rfl, heq⟩ := run_stuck (stepIn_done hpc) hr
          obtain ⟨rfl, rfl⟩ := Prod.mk.inj heq
          refine iff_of_false hw₁ ?_
          rintro ⟨hkeep, -⟩
          rw [haway] at hkeep
          exact nomatch hkeep

/-- A run in the world is a run. -/
theorem run_runner {as : List Answer}
    (h : run (stepIn enableTimeout) (r, w) as = some (r', w')) :
    run (step enableTimeout) r as = some r' := by
  induction as generalizing r w with
  | nil => exact congrArg some (Prod.mk.inj (Option.some.inj h)).1
  | cons a as ih =>
      obtain ⟨⟨r₁, w₁⟩, hs, hr⟩ := run_cons.mp h
      obtain ⟨-, -, hstep, -⟩ := stepIn_eq_some hs
      exact run_cons.mpr ⟨r₁, hstep, ih hr⟩

end Step

/-! ## Runs of tests -/

section Runs

variable {W : Type} {enableTimeout : Bool}

/-- **`run_test` in the world is `run_test`**, where the kernel can give the
    answers. -/
theorem runTestIn_outcome {sc : Script} {cs : CapState W} {t : Test} {w w' : World}
    {o : Outcome W} (h : runTestIn enableTimeout sc cs t w = some (o, w')) :
    runTest enableTimeout sc cs t = some o := by
  rw [runTestIn] at h
  rw [runTest]
  cases hread : testReadConfig sc.fs sc.frame t with
  | none => rw [hread] at h; cases h
  | some bs =>
      rw [hread] at h
      dsimp only at h ⊢
      cases hrun : testShouldRun bs.2.test sc.dead cs with
      | none => rw [hrun] at h; cases h
      | some d =>
          rw [hrun] at h
          dsimp only at h ⊢
          split at h
          · next hd =>
              rw [if_pos hd]
              split at h
              · next hres =>
                  rw [run_runner hres]
                  exact congrArg some (Prod.mk.inj (Option.some.inj h)).1
              · cases h
          · next hd =>
              rw [if_neg hd]
              split at h
              · next hempty =>
                  rw [if_pos hempty]
                  exact congrArg some (Prod.mk.inj (Option.some.inj h)).1
              · cases h

/-- **A call of `run_test` leaves nothing behind** exactly when nothing has made
    it give up. -/
theorem runTestIn_settled {sc : Script} {cs : CapState W} {t : Test} {w w' : World}
    {o : Outcome W} (h : runTestIn enableTimeout sc cs t w = some (o, w')) :
    w' = w ↔ Settled sc.answers := by
  rw [runTestIn] at h
  split at h
  · exact nomatch h
  · split at h
    · exact nomatch h
    · dsimp only at h
      split at h
      · split at h
        · next hres =>
            obtain ⟨-, rfl⟩ := Prod.mk.inj (Option.some.inj h)
            exact run_settled hres rfl (.nothing rfl rfl)
        · exact nomatch h
      · split at h
        · next hempty =>
            obtain ⟨-, rfl⟩ := Prod.mk.inj (Option.some.inj h)
            refine iff_of_true rfl ?_
            rw [List.isEmpty_iff.mp hempty]
            exact fun a ha => nomatch ha
        · exact nomatch h

/-- A test of a run: what it met, and the worlds in front of it and behind. -/
structure Visit where
  script : Script
  before : World
  behind : World

/-- `run_test` in a run: every test meets the next script, and the world the
    last one has left. -/
def scriptedIn (enableTimeout : Bool) :
    List Script × CapState W × World → Test →
      Option (Turn Visit × (List Script × CapState W × World))
  | ([], _, _), _ => none
  | (sc :: scripts, cs, w), t =>
      (runTestIn enableTimeout sc cs t w).map
        (fun p => (⟨p.1.rc, p.1.test, sc, w, p.2⟩, (scripts, p.1.caps, p.2)))

/-- The test has found the world `w` and left it. -/
def Clean (w : World) (v : Visit) : Prop := v.before = w ∧ v.behind = w

theorem scriptedIn_settled {s s' : List Script × CapState W × World} {t : Test}
    {turn : Turn Visit} (h : scriptedIn enableTimeout s t = some (turn, s')) :
    turn.info.before = s.2.2 ∧ turn.info.behind = s'.2.2
      ∧ (turn.info.behind = turn.info.before ↔ Settled turn.info.script.answers) := by
  obtain ⟨scripts, cs, w⟩ := s
  cases scripts with
  | nil => exact nomatch h
  | cons sc scripts =>
      obtain ⟨⟨o, w'⟩, ho, heq⟩ := Option.map_eq_some_iff.mp h
      obtain ⟨rfl, rfl⟩ := Prod.mk.inj heq
      exact ⟨rfl, rfl, runTestIn_settled ho⟩

/-- Every test of the loop is clean exactly when none has made `run_test` give
    up. -/
theorem runLoop_clean {contOnFailure : Bool} {rc : Int32} {tests : List Test}
    {s : List Script × CapState W × World}
    {l : Loop Visit (List Script × CapState W × World)}
    (h : runLoop (scriptedIn enableTimeout) contOnFailure rc tests s = some l) :
    (∀ turn ∈ l.done, Clean s.2.2 turn.info)
      ↔ ∀ turn ∈ l.done, Settled turn.info.script.answers := by
  induction tests generalizing rc s l with
  | nil =>
      rw [← Option.some.inj h]
      exact iff_of_true (fun turn ht => (nomatch ht)) (fun turn ht => (nomatch ht))
  | cons t tests ih =>
      obtain ⟨turn, s', hone, hrest⟩ := runLoop_cons h
      obtain ⟨hbefore, hbehind, hiff⟩ := scriptedIn_settled hone
      have hclean : Clean s.2.2 turn.info ↔ Settled turn.info.script.answers := by
        rw [← hiff, Clean, and_iff_right hbefore, hbefore]
      rcases hrest with ⟨-, rfl⟩ | ⟨l', hl', rfl⟩
      · rw [List.forall_mem_singleton, List.forall_mem_singleton]
        exact hclean
      · rw [List.forall_mem_cons, List.forall_mem_cons, hclean]
        refine and_congr_right fun hsettled => ?_
        -- behind a clean test the world is the one of the start
        have hworld : s'.2.2 = s.2.2 := by
          rw [← hbehind, hiff.mpr hsettled, hbefore]
        rw [← hworld]
        exact ih hl'

/-- **What a run of tests leaves behind**: a call of `run_test` leaves the
    world as it was exactly when none of its answers is a `fork`, a `sigaction`
    or a `waitid` that failed; and every test of the run starts in the world in
    front of the loop, and leaves it, exactly when no call of the run has met
    such an answer. -/
theorem runTests_residue {u : Setup} {contOnFailure : Bool} {tests : List Test}
    {scripts : List Script} {cs : CapState W} {w : World}
    {l : Loop Visit (List Script × CapState W × World)}
    (h : runTests u (scriptedIn enableTimeout) contOnFailure tests (scripts, cs, w)
      = some l) :
    (∀ turn ∈ l.done,
        (turn.info.behind = turn.info.before ↔ Settled turn.info.script.answers))
      ∧ ((∀ turn ∈ l.done, Clean w turn.info)
        ↔ ∀ turn ∈ l.done, Settled turn.info.script.answers) := by
  rcases runTests_cases h with ⟨-, rfl⟩ | ⟨-, hloop⟩
  · exact ⟨fun turn ht => (nomatch ht),
      iff_of_true (fun turn ht => (nomatch ht)) (fun turn ht => (nomatch ht))⟩
  · refine ⟨?_, runLoop_clean hloop⟩
    intro turn hturn
    obtain ⟨t, -, s₁, s₂, hone⟩ := (runLoop_turns hloop).1 turn hturn
    exact (scriptedIn_settled hone).2.2

end Runs

/-! ## Tests that leave something -/

/-- A runner with its standard descriptors and the working directory. -/
def sampleWorld : World := ⟨{0, 1, 2, 5}, ∅⟩

/-- The run of `t/01-a` and `t/02-b`, of which the first meets these answers and
    the second exits with 0. -/
def residueRun (answers : List Answer) :
    Option (Loop Visit (List Script × CapState Unit × World)) :=
  runTests ⟨0, true, 5⟩ (scriptedIn true) true
    [testCreate (str "t/01-a") .test, testCreate (str "t/02-b") .test]
    ([{ exitScript ⟨.exited, 0⟩ with answers := answers },
        { exitScript ⟨.exited, 0⟩ with
          answers := [.pipe (some (6, 7)), .fork 101, .sigaction true, .clock ⟨0, 0⟩,
            .reaped ⟨.exited, 0⟩, .dmesg 0] }],
      ⟨caps bareKernel, ()⟩, sampleWorld)

theorem runTests_residue_sample :
    ∃ l, residueRun [.pipe (some (3, 4)), .fork 100, .sigaction false] = some l
      ∧ (∀ turn ∈ l.done,
          (turn.info.behind = turn.info.before ↔ Settled turn.info.script.answers))
      ∧ ((∀ turn ∈ l.done, Clean sampleWorld turn.info)
        ↔ ∀ turn ∈ l.done, Settled turn.info.script.answers) := by
  have hsome : (residueRun [.pipe (some (3, 4)), .fork 100, .sigaction false]).isSome
      = true := by decide
  obtain ⟨l, hl⟩ := Option.isSome_iff_exists.mp hsome
  exact ⟨l, hl, runTests_residue hl⟩

/-- Behind a `fork` that fails both ends of the pipe stay open, in front of the
    next test as well. -/
theorem runTests_residue_fork :
    (residueRun [.pipe (some (3, 4)), .fork (-1)]).map
        (fun l => l.done.map (fun turn => decide (3 ∈ turn.info.before.fds)))
      = some [false, true]
    ∧ ¬ ∀ (enableTimeout : Bool) (u : Setup) (contOnFailure : Bool) (tests : List Test)
      (scripts : List Script) (cs : CapState Unit) (w : World)
      (l : Loop Visit (List Script × CapState Unit × World)),
      runTests u (scriptedIn enableTimeout) contOnFailure tests (scripts, cs, w) = some l →
      ∀ turn ∈ l.done, Clean w turn.info := by
  -- whether the read end is open in front of the tests
  have hworlds : (residueRun [.pipe (some (3, 4)), .fork (-1)]).map
      (fun l => l.done.map (fun turn => decide (3 ∈ turn.info.before.fds)))
      = some [false, true] := by decide
  refine ⟨hworlds, ?_⟩
  intro h
  obtain ⟨l, hl, hopen⟩ := Option.map_eq_some_iff.mp hworlds
  have hclean := h _ _ _ _ _ _ _ l hl
  have hsame : ∀ b ∈ l.done.map (fun turn => decide (3 ∈ turn.info.before.fds)),
      b = false := by
    intro b hb
    obtain ⟨turn, hturn, rfl⟩ := List.mem_map.mp hb
    rw [(hclean turn hturn).1]
    decide
  rw [hopen] at hsame
  exact absurd (hsame true (by simp)) (by decide)

end SpufsResidue
