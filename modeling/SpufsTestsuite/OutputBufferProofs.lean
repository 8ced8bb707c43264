import SpufsTestsuite.OutputPipeProofs

/-! # The capture buffer — one call of `read_test_output` after the other

    `read_test_output` polls the pipe, makes room for `readsize` bytes and reads
    behind the captured ones.  Its sums are sums of `int`s, and the kernel
    writes where it is told to: `readTestOutput` has no result where a sum
    overflows or where the bytes do not go into the allocation.

    The new size is stored before anything looks at the new buffer.  So the
    record describes a buffer that holds everything read so far exactly as long
    as every reallocation succeeds (`readTestOutput_sound`). -/

namespace SpufsOutputBuffer

open CString SpufsTest SpufsRunTest SpufsOutputPipe Automaton

/-! ## One call -/

/-- Where the code leaves its language: a sum that is no `int`, or a write
    outside of the allocation. -/
inductive Fault
  | overflow
  | outside
  deriving DecidableEq, Repr

/-- A sum of `int`s that are not negative. -/
def int (n : Nat) : Except Fault Nat := if n < 2 ^ 31 then .ok n else .error .overflow

/-- The number of descriptors handed to `poll`. -/
def nFds (fd : Int) : Nat := if 0 < fd then 1 else 0

/-- At most as many bytes as were asked for. -/
abbrev Chunk := { d : Bytes // d.length ≤ readsize }

/-- What `poll` reports of that many descriptors, and what `talloc_realloc` and
    `read` return behind it, if they are called.  A failed `read` is `none`. -/
inductive Polled (n : Nat) where
  | error
  | timeout
  | ready (polled : 0 < n) (pollerr : Bool) (fresh : Option (Nat → UInt8))
      (read : Option Chunk)

/-- What a call leaves: its value, the record, the record at the `read` if there
    was one, and the bytes that were read. -/
structure Done where
  rc     : Int
  output : Output
  dest   : Option Output
  chunk  : Bytes

/-- Makes room for `readsize` bytes behind the captured ones. -/
def makeRoom (o : Output) (fresh : Option (Nat → UInt8)) : Except Fault Output :=
  if o.bufsize - o.len < readsize then do
    let twice ← int (o.bufsize * 2)
    let allocSize := max readsize twice
    pure { o with buf := tallocRealloc o.buf allocSize fresh, bufsize := allocSize }
  else pure o

/-- The kernel has copied the bytes behind the captured ones. -/
def takeIn (o : Output) (d : Bytes) : Except Fault Output :=
  match storeOutput o d with
  | none => .error .outside
  | some o' => do
      let len ← int (o.len + d.length)
      pure { o' with len := len }

/-- `read_test_output`, for the descriptor `fd`; the timeout goes to `poll`. -/
def readTestOutput (fd : Int) (o : Output) : Polled (nFds fd) → Except Fault Done
  | .error => pure ⟨0, o, none, []⟩
  | .timeout => pure ⟨0, o, none, []⟩
  | .ready _ true _ _ => pure ⟨-1, o, none, []⟩
  | .ready _ false fresh read => do
      let o ← makeRoom o fresh
      match read with
      | none => pure ⟨-1, o, some o, []⟩
      | some d =>
          if d.1 = [] then pure ⟨-1, o, some o, []⟩
          else do
            let o' ← takeIn o d
            pure ⟨0, o', some o, d⟩

/-! ## It is the one of the runner -/

section Runner

variable {fd : Int} {o o' : Output} {fresh : Option (Nat → UInt8)}

theorem bind_ok {α β : Type} {x : Except Fault α} {f : α → Except Fault β} {b : β} :
    (x >>= f) = .ok b ↔ ∃ a, x = .ok a ∧ f a = .ok b := by
  cases x with
  | error e =>
      constructor
      · exact fun h => nomatch h
      · rintro ⟨a, h, -⟩
        exact nomatch h
  | ok a =>
      constructor
      · intro h
        exact ⟨a, rfl, h⟩
      · rintro ⟨a', h, hf⟩
        rw [Except.ok.inj h]
        exact hf

theorem int_eq {n m : Nat} : int n = .ok m ↔ m = n ∧ n < 2 ^ 31 := by
  rw [int]
  by_cases hn : n < 2 ^ 31
  · rw [if_pos hn, Except.ok.injEq, eq_comm]
    exact (and_iff_left hn).symm
  · rw [if_neg hn]
    constructor
    · exact fun h => nomatch h
    · exact fun h => absurd h.2 hn

/-- Where its sum does not overflow it is the room that the runner makes. -/
theorem makeRoom_eq : makeRoom o fresh = .ok o' ↔ o' = growOutput o fresh
    ∧ (o.bufsize - o.len < readsize → o.bufsize * 2 < 2 ^ 31) := by
  rw [makeRoom, growOutput]
  by_cases hlow : o.bufsize - o.len < readsize
  · rw [if_pos hlow, if_pos hlow, bind_ok]
    constructor
    · rintro ⟨twice, htwice, h⟩
      obtain ⟨rfl, hlt⟩ := int_eq.mp htwice
      exact ⟨(Except.ok.inj h).symm, fun _ => hlt⟩
    · rintro ⟨rfl, hlt⟩
      exact ⟨_, int_eq.mpr ⟨rfl, hlt hlow⟩, rfl⟩
  · rw [if_neg hlow, if_neg hlow]
    constructor
    · intro h
      exact ⟨(Except.ok.inj h).symm, fun h => absurd h hlow⟩
    · rintro ⟨rfl, -⟩
      rfl

/-- Where its sum does not overflow it stores as the runner does. -/
theorem takeIn_eq {d : Bytes} (hd : d ≠ []) :
    takeIn o d = .ok o' ↔ storeOutput o d = some o' ∧ o.len + d.length < 2 ^ 31 := by
  have hlen : ∀ {o₁ : Output}, storeOutput o d = some o₁ → o₁.len = o.len + d.length := by
    intro o₁ h
    rw [storeOutput, if_neg hd] at h
    cases hb : o.buf with
    | none => rw [hb] at h; cases h
    | some buf =>
        rw [hb] at h
        dsimp only at h
        split at h
        · rw [← Option.some.inj h]
        · cases h
  rw [takeIn]
  cases hs : storeOutput o d with
  | none =>
      constructor
      · exact fun h => by cases h
      · exact fun h => by cases h.1
  | some o₁ =>
      dsimp only
      rw [bind_ok]
      constructor
      · rintro ⟨len, h, hret⟩
        obtain ⟨rfl, hlt⟩ := int_eq.mp h
        rw [← Except.ok.inj hret, ← hlen hs]
        exact ⟨rfl, hlen hs ▸ hlt⟩
      · rintro ⟨h, hlt⟩
        refine ⟨_, int_eq.mpr ⟨rfl, hlt⟩, ?_⟩
        rw [← hlen hs, Option.some.inj h]
        rfl

/-- The answers that the runner gets in a call. -/
def answersOf {n : Nat} : Polled n → List Answer
  | .error => [.pollError]
  | .timeout => [.pollTimeout]
  | .ready _ true fresh _ => [.pollReady true fresh]
  | .ready _ false fresh none => [.pollReady false fresh, .readError]
  | .ready _ false fresh (some d) => [.pollReady false fresh, .readData d]

/-- **A call of `read_test_output`** is what the runner does from a `poll` to the
    next look at the child. -/
theorem readTestOutput_runs {enableTimeout : Bool} {r : Runner} {timeout : Int}
    (hpc : r.pc = .poll timeout) {p : Polled (nFds r.test.run.stdoutFd)} {done : Done}
    (h : readTestOutput r.test.run.stdoutFd r.test.output p = .ok done) :
    ∃ r', run (step enableTimeout) r (answersOf p) = some r' ∧ r'.pc = .wait
      ∧ r'.test = { r.test with output := done.output } := by
  cases p with
  | error =>
      obtain rfl := Except.ok.inj h
      exact ⟨polled r timeout .wait, by simp [answersOf, run, step, hpc], rfl, rfl⟩
  | timeout =>
      obtain rfl := Except.ok.inj h
      exact ⟨polled r timeout .wait, by simp [answersOf, run, step, hpc], rfl, rfl⟩
  | ready hn pollerr fresh read =>
      have hfd : 0 < r.test.run.stdoutFd := by
        by_contra hfd
        rw [nFds, if_neg hfd] at hn
        exact nomatch hn
      have hready : ∀ pollerr fresh, step enableTimeout r (.pollReady pollerr fresh)
          = if pollerr then some (polled r timeout .wait)
            else some (polled
              { r with test := { r.test with output := growOutput r.test.output fresh } }
              timeout .read) := by
        intro pollerr fresh
        simp only [step, hpc, if_neg (Int.not_le.mpr hfd)]
      cases pollerr with
      | true =>
          obtain rfl := Except.ok.inj h
          exact ⟨polled r timeout .wait, by simp [answersOf, run, hready], rfl, rfl⟩
      | false =>
          obtain ⟨o, ho, h⟩ := bind_ok.mp h
          obtain ⟨rfl, -⟩ := makeRoom_eq.mp ho
          -- in front of the read
          let u := polled { r with
            test := { r.test with output := growOutput r.test.output fresh } } timeout .read
          have hu : step enableTimeout r (.pollReady false fresh) = some u := hready false fresh
          have hread : ∀ {a o'}, step enableTimeout u a = some (readDone u o') →
              run (step enableTimeout) r [.pollReady false fresh, a]
                = some (readDone u o') := by
            intro a o' ha
            exact run_cons.mpr ⟨u, hu, run_cons.mpr ⟨_, ha, rfl⟩⟩
          cases read with
          | none =>
              obtain rfl := Except.ok.inj h
              exact ⟨readDone u _, hread rfl, rfl, rfl⟩
          | some d =>
              dsimp only at h
              by_cases hd : d.1 = []
              · rw [if_pos hd] at h
                obtain rfl := Except.ok.inj h
                refine ⟨readDone u _, hread ?_, rfl, rfl⟩
                show (storeOutput _ d.1).map (readDone u) = _
                rw [storeOutput, if_pos hd]
                rfl
              · rw [if_neg hd] at h
                obtain ⟨o', ho', h⟩ := bind_ok.mp h
                obtain ⟨hs, -⟩ := (takeIn_eq hd).mp ho'
                obtain rfl := Except.ok.inj h
                refine ⟨readDone u o', hread ?_, rfl, rfl⟩
                show (storeOutput (growOutput r.test.output fresh) d.1).map (readDone u) = _
                rw [hs]
                rfl

end Runner

/-! ## Many calls -/

/-- The record, and all the bytes that the calls have read, in order. -/
structure Capture where
  output : Output
  chunks : Bytes

/-- The capture behind a call. -/
def callStep (fd : Int) (s : Capture) (p : Polled (nFds fd)) : Option Capture :=
  match readTestOutput fd s.output p with
  | .error _ => none
  | .ok done => some ⟨done.output, s.chunks ++ done.chunk⟩

/-- What the record of a test promises. -/
structure Sound (s : Capture) : Prop where
  room  : s.output.len ≤ s.output.bufsize
  live  : ∀ buf, s.output.buf = some buf → s.output.bufsize ≤ buf.length
  null  : s.output.buf = none → s.output.bufsize = 0
  bytes : captured s.output = some s.chunks

/-- There are `readsize` free bytes in the allocation behind the captured ones. -/
def Roomy (o : Output) : Prop := ∃ buf, o.buf = some buf ∧ o.len + readsize ≤ buf.length

/-- The call comes back, without a sum that overflows or a write outside of the
    allocation; it has read into free bytes, and what it leaves is sound. -/
def CallSound (fd : Int) (s : Capture) (p : Polled (nFds fd)) : Prop :=
  ∃ done, readTestOutput fd s.output p = .ok done
    ∧ (∀ o, done.dest = some o → Roomy o)
    ∧ Sound ⟨done.output, s.chunks ++ done.chunk⟩

/-- If the call has to make room, `talloc_realloc` returns memory. -/
def CanGrow {n : Nat} (s : Capture) : Polled n → Prop
  | .ready _ false fresh _ => s.output.bufsize - s.output.len < readsize →
      fresh ≠ none ∧ s.output.bufsize * 2 < maxTallocSize
  | _ => True

/-- What every call keeps: the bytes are where the record says, and the buffer
    is smaller than the largest allocation. -/
structure Kept (s : Capture) : Prop where
  captures : Captures s.output [] s.chunks
  null     : s.output.buf = none → s.output.bufsize = 0
  small    : s.output.bufsize < maxTallocSize

theorem Kept.sound {s : Capture} (h : Kept s) : Sound s where
  room := h.captures.room
  live := fun buf hb => Nat.le_of_eq (h.captures.bytes buf hb).1.symm
  null := h.null
  bytes := by
    refine h.captures.captured_eq.mpr ⟨rfl, ?_⟩
    by_cases hb : s.output.buf = none
    · have hroom := h.captures.room
      rw [h.null hb] at hroom
      exact Or.inr (Nat.le_zero.mp hroom)
    · exact Or.inl hb

/-- **Room is made** where memory is returned: the captured bytes stay, and
    `readsize` bytes behind them are free. -/
theorem Kept.grow {s : Capture} (h : Kept s) {fresh : Option (Nat → UInt8)}
    (hgrow : s.output.bufsize - s.output.len < readsize →
      fresh ≠ none ∧ s.output.bufsize * 2 < maxTallocSize) :
    ∃ o, makeRoom s.output fresh = .ok o ∧ Kept ⟨o, s.chunks⟩ ∧ Roomy o := by
  have hroom := h.captures.room
  have hsize := h.captures.size
  have hcap := h.captures.grow fresh
  have hmax : maxTallocSize = 2 ^ 28 := rfl
  refine ⟨growOutput s.output fresh, ?_, ?_⟩
  · refine makeRoom_eq.mpr ⟨rfl, fun hlow => ?_⟩
    have := (hgrow hlow).2
    omega
  · by_cases hlow : s.output.bufsize - s.output.len < readsize
    · obtain ⟨hfresh, htwice⟩ := hgrow hlow
      have hsmall : ¬ maxTallocSize ≤ max readsize (s.output.bufsize * 2) := by
        have hread : readsize = 4096 := rfl
        omega
      obtain ⟨byte, rfl⟩ := Option.ne_none_iff_exists'.mp hfresh
      obtain ⟨buf, hbuf⟩ : ∃ buf, (growOutput s.output (some byte)).buf = some buf := by
        rw [growOutput, if_pos hlow]
        show ∃ buf, tallocRealloc s.output.buf _ _ = some buf
        rw [tallocRealloc, if_neg hsmall]
        exact ⟨_, rfl⟩
      have hlen := (hcap.bytes buf hbuf).1
      have hbufsize : (growOutput s.output (some byte)).bufsize
          = max readsize (s.output.bufsize * 2) := by rw [growOutput, if_pos hlow]
      have hsame : (growOutput s.output (some byte)).len = s.output.len := by
        rw [growOutput, if_pos hlow]
      refine ⟨⟨hcap, fun hn => ?_, ?_⟩, buf, hbuf, ?_⟩
      · rw [show (growOutput s.output (some byte)).buf = none from hn] at hbuf
        cases hbuf
      · show (growOutput s.output (some byte)).bufsize < maxTallocSize
        omega
      · omega
    · have hsame : growOutput s.output fresh = s.output := by rw [growOutput, if_neg hlow]
      rw [hsame]
      refine ⟨h, ?_⟩
      cases hb : s.output.buf with
      | none =>
          have hread : readsize = 4096 := rfl
          have := h.null hb
          omega
      | some buf =>
          have hlen := (h.captures.bytes buf hb).1
          exact ⟨buf, hb, by omega⟩

/-- **The bytes that were read are captured.** -/
theorem Kept.store {s : Capture} (h : Kept s) (hroom : Roomy s.output) (d : Chunk)
    (hd : d.1 ≠ []) :
    ∃ o, takeIn s.output d = .ok o ∧ Kept ⟨o, s.chunks ++ d⟩ := by
  obtain ⟨buf, hbuf, hfree⟩ := hroom
  have hlen := (h.captures.bytes buf hbuf).1
  have hsmall := h.small
  have hmax : maxTallocSize = 2 ^ 28 := rfl
  have hd' := d.2
  have hfit : s.output.len + d.1.length ≤ buf.length ∧ d.1.length ≤ readsize := by omega
  obtain ⟨o, ho, hnull, hbufsize⟩ : ∃ o, storeOutput s.output d.1 = some o ∧ o.buf ≠ none
      ∧ o.bufsize = s.output.bufsize := by
    rw [storeOutput, if_neg hd, hbuf]
    dsimp only
    rw [if_pos hfit]
    exact ⟨_, rfl, (fun hn => by cases hn), rfl⟩
  refine ⟨o, (takeIn_eq hd).mpr ⟨ho, by omega⟩, ?_, fun hn => absurd hn hnull, ?_⟩
  · have hwrite := h.captures.write d.1
    rw [List.nil_append, ← List.append_nil d.1] at hwrite
    rw [List.append_nil] at hwrite
    exact Captures.store (by rw [List.append_nil]; exact hwrite) ho
  · show o.bufsize < maxTallocSize
    omega

/-- **Every call that can grow the buffer keeps the record.** -/
theorem Kept.call {fd : Int} {s : Capture} {p : Polled (nFds fd)} (h : Kept s)
    (hp : CanGrow s p) :
    ∃ done, readTestOutput fd s.output p = .ok done
      ∧ (∀ o, done.dest = some o → Roomy o)
      ∧ Kept ⟨done.output, s.chunks ++ done.chunk⟩ := by
  have hquiet : ∀ {o : Output}, Kept ⟨o, s.chunks⟩ → Kept ⟨o, s.chunks ++ []⟩ := by
    intro o ho
    rw [List.append_nil]
    exact ho
  cases p with
  | error => exact ⟨_, rfl, (fun o ho => nomatch ho), hquiet h⟩
  | timeout => exact ⟨_, rfl, (fun o ho => nomatch ho), hquiet h⟩
  | ready hn pollerr fresh read =>
      cases pollerr with
      | true => exact ⟨_, rfl, (fun o ho => nomatch ho), hquiet h⟩
      | false =>
          obtain ⟨o, ho, hkept, hroom⟩ := h.grow hp
          have hdest : ∀ o', some o = some o' → Roomy o' := by
            rintro o' ⟨⟩
            exact hroom
          cases read with
          | none =>
              refine ⟨⟨-1, o, some o, []⟩, ?_, hdest, hquiet hkept⟩
              exact bind_ok.mpr ⟨o, ho, rfl⟩
          | some d =>
              by_cases hd : d.1 = []
              · refine ⟨⟨-1, o, some o, []⟩, ?_, hdest, hquiet hkept⟩
                exact bind_ok.mpr ⟨o, ho, if_pos hd⟩
              · obtain ⟨o', ho', hkept'⟩ := hkept.store hroom d hd
                refine ⟨⟨0, o', some o, d⟩, ?_, hdest, hkept'⟩
                refine bind_ok.mpr ⟨o, ho, ?_⟩
                dsimp only
                rw [if_neg hd]
                exact bind_ok.mpr ⟨o', ho', rfl⟩

/-- **A reallocation that fails** leaves a null pointer under the new size. -/
theorem callSound_canGrow {fd : Int} {s : Capture} {p : Polled (nFds fd)}
    (h : CallSound fd s p) : CanGrow s p := by
  obtain ⟨done, hdone, -, hsound⟩ := h
  cases p with
  | error => trivial
  | timeout => trivial
  | ready hn pollerr fresh read =>
      cases pollerr with
      | true => trivial
      | false =>
          intro hlow
          by_contra hfail
          obtain ⟨o, ho, hdone⟩ := bind_ok.mp hdone
          obtain ⟨rfl, -⟩ := makeRoom_eq.mp ho
          have hnone : tallocRealloc s.output.buf (max readsize (s.output.bufsize * 2)) fresh
              = none := by
            rw [tallocRealloc]
            split
            · rfl
            · next hcount =>
                have hlt : s.output.bufsize * 2 < maxTallocSize := by omega
                cases fresh with
                | none => rfl
                | some byte => exact absurd ⟨(fun hn => by cases hn), hlt⟩ hfail
          have hbuf : (growOutput s.output fresh).buf = none := by
            rw [growOutput, if_pos hlow]
            exact hnone
          have hsize : (growOutput s.output fresh).bufsize ≠ 0 := by
            rw [growOutput, if_pos hlow]
            have hread : readsize = 4096 := rfl
            show max readsize (s.output.bufsize * 2) ≠ 0
            omega
          have hleft : done.output = growOutput s.output fresh := by
            cases read with
            | none => rw [← Except.ok.inj hdone]
            | some d =>
                dsimp only at hdone
                by_cases hd : d.1 = []
                · rw [if_pos hd] at hdone
                  rw [← Except.ok.inj hdone]
                · rw [if_neg hd] at hdone
                  obtain ⟨o', ho', -⟩ := bind_ok.mp hdone
                  obtain ⟨hs, -⟩ := (takeIn_eq hd).mp ho'
                  rw [storeOutput, if_neg hd, hbuf] at hs
                  cases hs
          have hnull := hsound.null
          rw [hleft] at hnull
          exact hsize (hnull hbuf)

/-- A test in front of its first call. -/
def newCapture (t : Test) : Capture := ⟨t.output, []⟩

theorem newCapture_kept (path : Bytes) (type : TestType) :
    Kept (newCapture (testCreate path type)) where
  captures := by
    refine ⟨Nat.le_refl 0, Or.inl rfl, (fun buf hb => nomatch hb), fun _ => ?_⟩
    exact ⟨Or.inl rfl, [], rfl, rfl⟩
  null := fun _ => rfl
  small := Nat.two_pow_pos 28

/-- **The record holds what was read** behind every call of a sequence exactly
    if every call that has to make room gets it. -/
theorem readTestOutput_sound (path : Bytes) (type : TestType) (fd : Int)
    (ps : List (Polled (nFds fd))) :
    ((∃ s, run (callStep fd) (newCapture (testCreate path type)) ps = some s)
      ∧ ∀ s p, Takes (callStep fd) (newCapture (testCreate path type)) ps s p →
          CallSound fd s p)
      ↔ ∀ s p, Takes (callStep fd) (newCapture (testCreate path type)) ps s p →
          CanGrow s p := by
  constructor
  · rintro ⟨-, hall⟩ s p hp
    exact callSound_canGrow (hall s p hp)
  · intro hall
    have hstep : ∀ {s : Capture} {p : Polled (nFds fd)}, Kept s → CanGrow s p →
        ∃ s', callStep fd s p = some s' ∧ Kept s' := by
      intro s p hs hp
      obtain ⟨done, hdone, -, hkept⟩ := hs.call hp
      exact ⟨_, by rw [callStep, hdone], hkept⟩
    obtain ⟨⟨s', hrun, -⟩, hkept⟩ := run_takes hstep (newCapture_kept path type) hall
    refine ⟨⟨s', hrun⟩, ?_⟩
    intro s p hp
    obtain ⟨done, hdone, hdest, hkept'⟩ := (hkept s p hp).call (hall s p hp)
    exact ⟨done, hdone, hdest, hkept'.sound⟩

/-! ## A buffer that cannot grow -/

/-- A call that reads one byte, with the room it needs. -/
def readOne : Polled (nFds 3) :=
  .ready (by decide) false (some (fun _ => 0)) (some ⟨[120], by decide⟩)

/-- A call behind which there is no more memory. -/
def readNoMemory : Polled (nFds 3) := .ready (by decide) false none none

/-- The byte that was captured is lost with the buffer: the record has a null
    pointer, one captured byte, and 8192 bytes of room. -/
theorem readTestOutput_lost :
    (run (callStep 3) (newCapture (testCreate (str "t/01-a") .test))
        [readOne, readNoMemory]).map (fun s => (s.output, s.chunks))
      = some (⟨none, 1, 8192⟩, [120])
    ∧ ¬ ((∃ s, run (callStep 3) (newCapture (testCreate (str "t/01-a") .test))
          [readOne, readNoMemory] = some s)
        ∧ ∀ s p, Takes (callStep 3) (newCapture (testCreate (str "t/01-a") .test))
            [readOne, readNoMemory] s p → CallSound 3 s p) := by
  refine ⟨by decide +kernel, ?_⟩
  rintro ⟨-, hall⟩
  have hfirst : (run (callStep 3) (newCapture (testCreate (str "t/01-a") .test))
      [readOne]).map (fun s => (s.output.len, s.output.bufsize)) = some (1, 4096) := by
    decide +kernel
  obtain ⟨s, hs, hsize⟩ := Option.map_eq_some_iff.mp hfirst
  obtain ⟨hlen, hbufsize⟩ := Prod.mk.inj hsize
  have hgrow := callSound_canGrow (hall s readNoMemory ⟨[readOne], [], rfl, hs⟩)
  refine (hgrow ?_).1 rfl
  rw [hlen, hbufsize]
  decide

end SpufsOutputBuffer
