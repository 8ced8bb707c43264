import SpufsTestsuite.RunTestsProofs

/-! # The output pipe — the runner, the child and what lies between them

    The child writes into a pipe of bounded capacity and terminates at some
    time; the runner reads the pipe between two looks at the child.  `sysStep`
    interleaves their steps: the runner is the automaton of `RunTestProofs`,
    and the answers it gets are those of this pipe and this child.

    The invariant (`Captures`) says where the written bytes are: captured, or
    still in the pipe.  The runner does not drain the pipe once it has reaped
    the child, so nothing is lost exactly when the pipe was empty then
    (`captured_at_verdict`). -/

namespace SpufsOutputPipe

open CString SpufsTest SpufsRunTest SpufsRunTests Automaton

/-! ## The system -/

/-- The child process. -/
inductive Proc where
  | unborn
  | alive
  | zombie (info : Siginfo)
  | reaped
  deriving DecidableEq, Repr

/-- The runner, the child, the bytes in the pipe, and all bytes ever written. -/
structure Sys where
  runner  : Runner
  child   : Proc
  pipe    : Bytes
  written : Bytes

/-- A step of the child or of the runner. -/
inductive Act where
  | write (d : Bytes)
  | exit (info : Siginfo)
  | runner (a : Answer)

/-- The write end of the pipe is closed: the child has terminated. -/
def Sys.closed (x : Sys) : Bool :=
  match x.child with
  | .zombie _ => true
  | .reaped => true
  | _ => false

/-- The answers that the kernel can give in a state. -/
def allowed (x : Sys) : Answer → Bool
  | .fork _ => decide (x.child = .unborn)
  | .running => decide (x.child = .alive)
  | .reaped info => decide (x.child = .zombie info)
  | .pollTimeout => x.pipe.isEmpty && !x.closed
  | .pollReady _ _ => !x.pipe.isEmpty || x.closed
  | .readData d => if d = [] then x.pipe.isEmpty && x.closed else d.isPrefixOf x.pipe
  | _ => true

/-- The child after an answer. -/
def childAfter (x : Sys) : Answer → Proc
  | .fork pid => if 0 < pid then .alive else x.child
  | .reaped _ => .reaped
  | _ => x.child

/-- The pipe after an answer. -/
def pipeAfter (x : Sys) : Answer → Bytes
  | .readData d => x.pipe.drop d.length
  | _ => x.pipe

/-- One step of the system, with a pipe that holds `capacity` bytes. -/
def sysStep (enableTimeout : Bool) (capacity : Nat) (x : Sys) : Act → Option Sys
  | .write d =>
      if x.child = .alive ∧ x.pipe.length + d.length ≤ capacity then
        some { x with pipe := x.pipe ++ d, written := x.written ++ d }
      else none
  | .exit info =>
      if x.child = .alive then some { x with child := .zombie info } else none
  | .runner a =>
      if allowed x a then
        (step enableTimeout x.runner a).map
          (fun r => ⟨r, childAfter x a, pipeAfter x a, x.written⟩)
      else none

/-- The system in front of `pipe`. -/
def sysStart (t : Test) (stdout : Bytes) : Sys :=
  ⟨startRunner t stdout, .unborn, [], []⟩

/-- `test->output.buf[0 .. len)`. -/
def captured (o : Output) : Option Bytes :=
  match o.buf with
  | none => if o.len = 0 then some [] else none
  | some buf => if o.len ≤ buf.length then some (buf.take o.len) else none

/-! ## Where the written bytes are -/

/-- The captured bytes and the bytes in the pipe are the written ones, and the
    buffer has the size that the record says; a buffer that could not be
    allocated has taken its bytes with it. -/
structure Captures (o : Output) (pipe written : Bytes) : Prop where
  room  : o.len ≤ o.bufsize
  size  : o.bufsize = 0 ∨ readsize ≤ o.bufsize
  bytes : ∀ buf, o.buf = some buf →
    buf.length = o.bufsize ∧ buf.take o.len ++ pipe = written
  null  : o.buf = none → (o.bufsize = 0 ∨ readsize ≤ o.bufsize - o.len)
    ∧ ∃ lost : Bytes, lost.length = o.len ∧ lost ++ pipe = written

/-- What the captured bytes say about the pipe. -/
theorem Captures.captured_eq {o : Output} {pipe written : Bytes}
    (h : Captures o pipe written) :
    captured o = some written ↔ pipe = [] ∧ (o.buf ≠ none ∨ o.len = 0) := by
  rw [captured]
  cases hb : o.buf with
  | none =>
      obtain ⟨-, lost, hlen, hw⟩ := h.null hb
      by_cases h0 : o.len = 0
      · have hlost : lost = [] := List.length_eq_zero_iff.mp (hlen.trans h0)
        rw [hlost, List.nil_append] at hw
        dsimp only
        rw [if_pos h0, ← hw, Option.some.injEq, eq_comm]
        exact (and_iff_left (Or.inr h0)).symm
      · dsimp only
        rw [if_neg h0]
        constructor
        · intro hx
          exact nomatch hx
        · rintro ⟨-, hx | hx⟩
          · exact absurd rfl hx
          · exact absurd hx h0
  | some buf =>
      obtain ⟨hlen, hw⟩ := h.bytes buf hb
      dsimp only
      rw [if_pos (by rw [hlen]; exact h.room), ← hw, Option.some.injEq]
      constructor
      · intro hx
        refine ⟨?_, Or.inl (fun hn => nomatch hn)⟩
        exact List.append_right_eq_self.mp hx.symm
      · rintro ⟨rfl, -⟩
        exact (List.append_nil _).symm

/-- The child has written: the bytes are in the pipe. -/
theorem Captures.write {o : Output} {pipe written : Bytes} (d : Bytes)
    (h : Captures o pipe written) : Captures o (pipe ++ d) (written ++ d) where
  room := h.room
  size := h.size
  bytes := by
    intro buf hb
    obtain ⟨hlen, hw⟩ := h.bytes buf hb
    exact ⟨hlen, by rw [← List.append_assoc, hw]⟩
  null := by
    intro hb
    obtain ⟨hroom, lost, hlen, hw⟩ := h.null hb
    exact ⟨hroom, lost, hlen, by rw [← List.append_assoc, hw]⟩

/-- An allocation that succeeds keeps the bytes and has the requested size. -/
theorem tallocRealloc_some {p : Option Bytes} {count : Nat}
    {fresh : Option (Nat → UInt8)} {buf : Bytes}
    (h : tallocRealloc p count fresh = some buf) (hp : (p.getD []).length ≤ count) :
    buf.length = count ∧ ∃ more, buf = p.getD [] ++ more := by
  rw [tallocRealloc] at h
  split at h
  · exact nomatch h
  · obtain ⟨byte, -, rfl⟩ := Option.map_eq_some_iff.mp h
    rw [List.take_of_length_le hp]
    refine ⟨?_, _, rfl⟩
    rw [List.length_append, List.length_map, List.length_range']
    omega

/-- The runner has made room: the captured bytes are where they were, or lost. -/
theorem Captures.grow {o : Output} {pipe written : Bytes}
    (fresh : Option (Nat → UInt8)) (h : Captures o pipe written) :
    Captures (growOutput o fresh) pipe written := by
  have hroom := h.room
  have hsize := h.size
  rw [growOutput]
  by_cases hlow : o.bufsize - o.len < readsize
  · rw [if_pos hlow]
    dsimp only
    have hold : (o.buf.getD []).length ≤ max readsize (o.bufsize * 2)
        ∧ ∃ lost : Bytes, lost.length = o.len ∧ lost ++ pipe = written
          ∧ (o.buf = none → o.len = 0)
          ∧ ∀ more, (o.buf.getD [] ++ more).take o.len = lost := by
      cases hb : o.buf with
      | none =>
          obtain ⟨hfree, lost, hlen, hw⟩ := h.null hb
          have h0 : o.len = 0 := by omega
          refine ⟨Nat.zero_le _, lost, hlen, hw, fun _ => h0, ?_⟩
          intro more
          rw [h0, List.take_zero]
          exact (List.length_eq_zero_iff.mp (hlen.trans h0)).symm
      | some buf =>
          obtain ⟨hlen, hw⟩ := h.bytes buf hb
          refine ⟨?_, buf.take o.len, ?_, hw, (fun hn => nomatch hn), ?_⟩
          · show buf.length ≤ _
            omega
          · rw [List.length_take]
            omega
          · intro more
            show (buf ++ more).take o.len = buf.take o.len
            exact List.take_append_of_le_length (by omega)
    obtain ⟨hle, lost, hlost, hw, -, htake⟩ := hold
    refine ⟨?_, Or.inr (Nat.le_max_left _ _), ?_, ?_⟩
    · show o.len ≤ max readsize (o.bufsize * 2)
      omega
    · intro buf hb
      obtain ⟨hlen, more, rfl⟩ := tallocRealloc_some hb hle
      exact ⟨hlen, by rw [htake, hw]⟩
    · intro _
      refine ⟨Or.inr ?_, lost, hlost, hw⟩
      show readsize ≤ max readsize (o.bufsize * 2) - o.len
      omega
  · rw [if_neg hlow]
    exact h

/-- The runner has read: the bytes have moved from the pipe to the buffer. -/
theorem Captures.store {o o' : Output} {pipe written d : Bytes}
    (h : Captures o (d ++ pipe) written) (ho : storeOutput o d = some o') :
    Captures o' pipe written := by
  rw [storeOutput] at ho
  by_cases hd : d = []
  · rw [if_pos hd] at ho
    rw [← Option.some.inj ho]
    rw [hd] at h
    exact h
  · rw [if_neg hd] at ho
    cases hb : o.buf with
    | none => rw [hb] at ho; exact nomatch ho
    | some buf =>
        rw [hb] at ho
        dsimp only at ho
        obtain ⟨hlen, hw⟩ := h.bytes buf hb
        split at ho
        · next hfit =>
            obtain ⟨hfit, -⟩ := hfit
            obtain rfl := Option.some.inj ho
            have htake : (buf.take o.len).length = o.len := by
              rw [List.length_take]
              omega
            refine ⟨?_, h.size, ?_, fun hn => nomatch hn⟩
            · show o.len + d.length ≤ o.bufsize
              omega
            · intro buf' hb'
              obtain rfl := Option.some.inj hb'
              constructor
              · rw [List.length_append, List.length_append, htake, List.length_drop]
                show _ = o.bufsize
                omega
              · have hboth : (buf.take o.len ++ d).length = o.len + d.length := by
                  rw [List.length_append, htake]
                rw [← hboth, List.take_left, List.append_assoc, hw]
        · exact nomatch ho

/-! ## The system keeps track of its bytes -/

section System

variable {enableTimeout : Bool} {capacity : Nat} {x y : Sys}

/-- The child writes and exits while it is alive, and leaves the runner alone. -/
theorem sysStep_write {d : Bytes} (h : sysStep enableTimeout capacity x (.write d) = some y) :
    x.child = .alive ∧ y = { x with pipe := x.pipe ++ d, written := x.written ++ d } := by
  rw [sysStep] at h
  split at h
  · next hok => exact ⟨hok.1, (Option.some.inj h).symm⟩
  · exact nomatch h

theorem sysStep_exit {info : Siginfo}
    (h : sysStep enableTimeout capacity x (.exit info) = some y) :
    x.child = .alive ∧ y = { x with child := .zombie info } := by
  rw [sysStep] at h
  split at h
  · next hok => exact ⟨hok, (Option.some.inj h).symm⟩
  · exact nomatch h

/-- A step of the runner is one of the automaton, with an answer the kernel
    can give. -/
theorem sysStep_runner {a : Answer}
    (h : sysStep enableTimeout capacity x (.runner a) = some y) :
    allowed x a = true ∧ ∃ r, step enableTimeout x.runner a = some r
      ∧ y = ⟨r, childAfter x a, pipeAfter x a, x.written⟩ := by
  rw [sysStep] at h
  split at h
  · next hok =>
      obtain ⟨r, hr, rfl⟩ := Option.map_eq_some_iff.mp h
      exact ⟨hok, r, hr, rfl⟩
  · exact nomatch h

/-- **THE BYTES ARE SOMEWHERE**: every step keeps track of them. -/
theorem sysStep_captures {act : Act}
    (h : sysStep enableTimeout capacity x act = some y)
    (hx : Captures x.runner.test.output x.pipe x.written) :
    Captures y.runner.test.output y.pipe y.written := by
  cases act with
  | write d =>
      obtain ⟨-, rfl⟩ := sysStep_write h
      exact hx.write d
  | exit info =>
      obtain ⟨-, rfl⟩ := sysStep_exit h
      exact hx
  | runner a =>
      obtain ⟨hok, r, hr, rfl⟩ := sysStep_runner h
      cases step_kind hr with
      | quiet _ hread htest _ =>
          have hpipe : pipeAfter x a = x.pipe := by
            cases a with
            | readData d => exact absurd rfl (hread d)
            | _ => rfl
          show Captures r.test.output (pipeAfter x a) x.written
          rw [htest, hpipe]
          exact hx
      | grow htest _ =>
          show Captures r.test.output x.pipe x.written
          rw [htest]
          exact hx.grow _
      | @store d o ho htest _ =>
          show Captures r.test.output (x.pipe.drop d.length) x.written
          rw [htest]
          refine Captures.store ?_ ho
          have hpre : d ++ x.pipe.drop d.length = x.pipe := by
            by_cases hd : d = []
            · rw [hd]
              rfl
            · rw [allowed, if_neg hd] at hok
              obtain ⟨z, hz⟩ := List.isPrefixOf_iff_prefix.mp hok
              rw [← hz, List.drop_left]
          rw [hpre]
          exact hx
      | reap hreap =>
          have hout := (reap_leaves hreap).output
          show Captures r.test.output x.pipe x.written
          rw [hout]
          exact hx
      | check _ hcheck =>
          show Captures r.test.output x.pipe x.written
          rw [(checkDmesg_leaves hcheck).output]
          exact hx

/-- The child has been reaped, and the runner is past its loop. -/
structure Settled (x y : Sys) : Prop where
  child   : y.child = .reaped
  runner  : y.runner.pc.live = false
  written : y.written = x.written
  output  : y.runner.test.output = x.runner.test.output

/-- Once the child has been reaped nothing is written or captured any more. -/
theorem Settled.step {z : Sys} {act : Act} (h : Settled x y)
    (hstep : sysStep enableTimeout capacity y act = some z) : Settled x z := by
  cases act with
  | write d => exact nomatch h.child.symm.trans (sysStep_write hstep).1
  | exit info => exact nomatch h.child.symm.trans (sysStep_exit hstep).1
  | runner a =>
      obtain ⟨-, r, hr, rfl⟩ := sysStep_runner hstep
      obtain ⟨rc, rfl, hcheck⟩ := step_settled hr h.runner
      exact ⟨h.child, (checkDmesg_leaves hcheck).not_live, h.written,
        (checkDmesg_leaves hcheck).output.trans h.output⟩

/-- A runner that has given up changes its result no more. -/
theorem sysStep_gaveUp {act : Act} {rc : Int32} {res : TestResult}
    (h : sysStep enableTimeout capacity x act = some y)
    (hx : x.runner.pc = .done rc ∧ x.runner.test.result = res) :
    y.runner.pc = .done rc ∧ y.runner.test.result = res := by
  cases act with
  | write d =>
      obtain ⟨-, rfl⟩ := sysStep_write h
      exact hx
  | exit info =>
      obtain ⟨-, rfl⟩ := sysStep_exit h
      exact hx
  | runner a =>
      obtain ⟨-, r, hr, -⟩ := sysStep_runner h
      rw [step_done hx.1] at hr
      exact nomatch hr

/-- The step that ends the waiting of a test: the runner gives up without a
    result, or it has reaped the child. -/
theorem sysStep_leaves {act : Act} {z : Sys}
    (h : sysStep enableTimeout capacity x act = some z)
    (hx : x.runner.pc.live = true ∧ x.runner.test.result = .notrun)
    (hleft : ¬ (z.runner.pc.live = true ∧ z.runner.test.result = .notrun)) :
    (z.runner.pc = .done (-1) ∧ z.runner.test.result = .notrun)
      ∨ ∃ info, act = .runner (.reaped info) ∧ Settled x z := by
  cases act with
  | write d =>
      obtain ⟨-, rfl⟩ := sysStep_write h
      exact absurd hx hleft
  | exit info =>
      obtain ⟨-, rfl⟩ := sysStep_exit h
      exact absurd hx hleft
  | runner a =>
      obtain ⟨-, r, hr, rfl⟩ := sysStep_runner h
      rcases step_live hr hx.1 with ⟨hres, -, -, hpc | hpc⟩ | ⟨info, rfl, hreap⟩
      · exact absurd ⟨hpc, hres.trans hx.2⟩ hleft
      · exact Or.inl ⟨hpc, hres.trans hx.2⟩
      · have hout := (reap_leaves hreap).output
        exact Or.inr ⟨info, rfl, rfl, (reap_leaves hreap).not_live, rfl, hout⟩

/-- What is captured and what is in the pipe, in every state of a run. -/
theorem run_captures {t : Test} {stdout : Bytes} {acts : List Act}
    (hout : t.output = ⟨none, 0, 0⟩)
    (h : run (sysStep enableTimeout capacity) (sysStart t stdout) acts = some x) :
    Captures x.runner.test.output x.pipe x.written := by
  refine run_preserves
    (P := fun u : Sys => Captures u.runner.test.output u.pipe u.written)
    sysStep_captures h ?_
  show Captures t.output [] []
  rw [hout]
  refine ⟨Nat.le_refl 0, Or.inl rfl, (fun buf hb => nomatch hb), ?_⟩
  intro _
  exact ⟨Or.inl rfl, [], rfl, rfl⟩

/-- **NO OUTPUT IS LOST, OR THE PIPE WAS NOT EMPTY**: in every run of the
    system in which the test gets a verdict, the captured output is everything
    the child has written exactly when, in the state in which `waitid` reaps
    the child, the pipe is empty and no captured byte has gone with a buffer
    that could not be grown. -/
theorem captured_at_verdict {t : Test} {stdout : Bytes} {acts : List Act}
    (hnew : t.result = .notrun) (hout : t.output = ⟨none, 0, 0⟩)
    (h : run (sysStep enableTimeout capacity) (sysStart t stdout) acts = some y)
    (hverdict : y.runner.test.result = .passed ∨ y.runner.test.result = .failed) :
    ∃ pre info post x, acts = pre ++ .runner (.reaped info) :: post
      ∧ run (sysStep enableTimeout capacity) (sysStart t stdout) pre = some x
      ∧ (captured y.runner.test.output = some y.written
        ↔ x.pipe = [] ∧ (x.runner.test.output.buf ≠ none
            ∨ x.runner.test.output.len = 0)) := by
  have hresult : y.runner.test.result ≠ .notrun := by
    intro hx
    rw [hx] at hverdict
    rcases hverdict with hv | hv
    · exact nomatch hv
    · exact nomatch hv
  obtain ⟨pre, act, post, x, z, rfl, hpre, -, hx, hstep, hleft, hpost⟩ :=
    run_leaves (P := fun u : Sys => u.runner.pc.live = true
      ∧ u.runner.test.result = .notrun) h ⟨rfl, hnew⟩ (fun hx => hresult hx.2)
  rcases sysStep_leaves hstep hx hleft with hgave | ⟨info, rfl, hreaped⟩
  · -- the runner has given up: no verdict follows
    have hend := run_preserves (P := fun u : Sys => u.runner.pc = .done (-1)
      ∧ u.runner.test.result = .notrun) sysStep_gaveUp hpost hgave
    exact absurd hend.2 hresult
  · have hsettled : Settled x y := run_preserves (P := fun u => Settled x u)
      (fun hs hu => hu.step hs) hpost hreaped
    refine ⟨pre, info, post, x, rfl, hpre, ?_⟩
    rw [hsettled.output, hsettled.written]
    exact (run_captures hout hpre).captured_eq

end System

/-! ## A lost line -/

/-- The setup of `run_test`. -/
def setupActs : List Act :=
  [.runner (.pipe (some (3, 4))), .runner (.fork 100), .runner (.sigaction true),
    .runner (.clock ⟨0, 0⟩)]

/-- The run of `t/01-a` behind the setup, with a pipe of 65536 bytes. -/
def sampleRun (acts : List Act) : Option Sys :=
  run (sysStep true 65536) (sysStart (testCreate (str "t/01-a") .test) [])
    (setupActs ++ acts)

/-- The child writes a line and exits with status 1 before the runner has
    looked at the pipe. -/
def lostActs : List Act :=
  [.write (str "bad\n"), .exit ⟨.exited, 1⟩, .runner (.reaped ⟨.exited, 1⟩)]

theorem captured_at_verdict_sample :
    ∃ y, sampleRun lostActs = some y
      ∧ ∃ pre info post x, setupActs ++ lostActs
          = pre ++ .runner (.reaped info) :: post
        ∧ run (sysStep true 65536) (sysStart (testCreate (str "t/01-a") .test) []) pre
          = some x
        ∧ (captured y.runner.test.output = some y.written
          ↔ x.pipe = [] ∧ (x.runner.test.output.buf ≠ none
            ∨ x.runner.test.output.len = 0)) := by
  have hrun : (sampleRun lostActs).map (fun y => y.runner.test.result)
      = some .failed := by decide
  obtain ⟨y, hy, hres⟩ := Option.map_eq_some_iff.mp hrun
  exact ⟨y, hy, captured_at_verdict rfl rfl hy (Or.inr hres)⟩

/-- The failure is reported without the line that the test has written. -/
theorem lost_line :
    (sampleRun lostActs).map
        (fun y => (y.runner.test.result, captured y.runner.test.output, y.written))
      = some (.failed, some [], str "bad\n") := by
  decide

end SpufsOutputPipe
