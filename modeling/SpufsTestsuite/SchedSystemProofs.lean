import SpufsTestsuite.SchedSpeProofs

/-! # sched_multiple as a system — main, the mailboxes and the SPE threads

    `gen_datafile.py` writes how many contexts there are, and a pattern of
    messages.  `main` sends every message to the context that it names, each
    through that context's mailbox, then goes through the contexts once more:
    the stop message, a join, a look at the stop code.

    Main and the threads take their steps in any order.  Whatever the pattern
    is, an invariant says where every program waits, as a function of what it
    has taken from its mailbox, and has a rank that every step lowers
    (`step_ranked`). -/

namespace SpufsSchedSystem

open Spu SpufsSchedSpe
open Transition (Ranked sum_update forall_update forall_update_rank)

/-! ## The data file -/

/-- Python's `pack('B', x)`. -/
def packB (x : Int) : Option Byte :=
  if 0 ≤ x ∧ x ≤ 255 then some (BitVec.ofInt 8 x) else none

/-- `gen_datafile.py`, with the numbers that `random()` gives it. -/
def genDatafile (nSpes : Int) (randoms : List ℚ) : Option (List Byte) := do
  let head ← packB nSpes
  let pattern ← randoms.mapM (fun r : ℚ => packB ⌊r * (nSpes : ℚ)⌋)
  return head :: pattern

theorem packB_eq_some {x : Int} {b : Byte} (h : packB x = some b) :
    x ≤ 255 ∧ (b.toNat : Int) = x := by
  rw [packB] at h
  split_ifs at h with hx
  cases h
  rw [BitVec.toNat_ofInt]
  omega

/-- What the file begins with, and what its pattern is made of. -/
theorem genDatafile_eq_some {nSpes : Int} {randoms : List ℚ} {file : List Byte}
    (h : genDatafile nSpes randoms = some file) :
    ∃ head pattern, file = head :: pattern ∧ packB nSpes = some head
      ∧ ∀ p ∈ pattern, ∃ r ∈ randoms, packB ⌊r * (nSpes : ℚ)⌋ = some p := by
  obtain ⟨head, hhead, hrest⟩ := Option.bind_eq_some_iff.mp h
  obtain ⟨pattern, hpat, hfile⟩ := Option.bind_eq_some_iff.mp hrest
  refine ⟨head, pattern, (Option.some.inj hfile).symm, hhead, ?_⟩
  clear h hrest hfile
  induction randoms generalizing pattern with
  | nil =>
      cases Option.some.inj hpat
      exact fun p hp => nomatch hp
  | cons r rs ih =>
      rw [List.mapM_cons] at hpat
      obtain ⟨q, hq, hpat⟩ := Option.bind_eq_some_iff.mp hpat
      obtain ⟨qs, hqs, hpat⟩ := Option.bind_eq_some_iff.mp hpat
      cases Option.some.inj hpat
      intro p hp
      rcases List.mem_cons.mp hp with rfl | hp
      · exact ⟨r, List.mem_cons_self, hq⟩
      · obtain ⟨r', hr', hp'⟩ := ih qs hqs p hp
        exact ⟨r', List.mem_cons_of_mem r hr', hp'⟩

/-- `read_dataset`: the count of contexts and the pattern.  The length of the
    file is kept in an `int`; `mmap` takes no length of zero, and none that a
    negative `int` makes. -/
def readDataset (file : List Byte) : Option (Nat × List Byte) :=
  let len := (BitVec.ofNat 32 file.length).toInt
  if len ≤ 0 then none
  else
    match file with
    | [] => none
    | n :: pattern => some (n.toNat, pattern.take (len - 1).toNat)

/-! ## Threads -/

/-- What the thread of a context does. -/
inductive Run where
  | running
  -- `spu_run` has returned
  | returned (code : BitVec 14)
  -- `spe_thread` has returned, and can be joined
  | exited (code : BitVec 14)
  deriving DecidableEq, Repr

/-- A context: its processor, the words in its mailbox, the words that the
    program has taken, and its thread. -/
structure Thread where
  spe   : State Unit
  mbox  : List Word
  taken : List Word
  run   : Run

/-- The words sent to the context. -/
def Thread.sent (t : Thread) : List Word := t.taken ++ t.mbox

def Thread.push (t : Thread) (w : Word) : Thread := { t with mbox := t.mbox ++ [w] }

/-- The next step of a thread, and whether it raises `thread_abort`: its program
    goes on or stops, then `spe_thread` looks at the status. -/
def Thread.step (t : Thread) : Option (Thread × Bool) :=
  match t.run with
  | .running =>
      match t.spe.exec with
      | .next s => some ({ t with spe := s }, false)
      | .read ch k =>
          match t.mbox with
          | [] => none
          | w :: ws =>
              if ch = 29 then
                some ({ t with spe := k w, mbox := ws, taken := t.taken ++ [w] }, false)
              else none
      | .stop code => some ({ t with run := .returned code }, false)
      | _ => none
  | .returned code =>
      some ({ t with run := .exited code }, decide (runStatus code ≠ 0x13370002))
  | .exited _ => none

/-- Where a thread is, and its rank: ten for every word in the mailbox, and the
    steps to the next wait. -/
def Thread.At (t : Thread) (r : Nat) : Prop :=
  match t.run with
  | .running =>
      ∃ k c, k ≤ 6 ∧ Alone noDevice k t.spe c ∧ (phaseOf t.taken).At c
        ∧ r = 10 * t.mbox.length + k + 2
  | .returned code => phaseOf t.taken = .stopped code ∧ r = 10 * t.mbox.length + 1
  | .exited code => phaseOf t.taken = .stopped code ∧ r = 10 * t.mbox.length

theorem Thread.At.push {t : Thread} {r : Nat} (h : t.At r) (w : Word) :
    (t.push w).At (r + 10) := by
  have hlen : (t.push w).mbox.length = t.mbox.length + 1 := by
    rw [Thread.push, List.length_append, List.length_singleton]
  rw [Thread.At, hlen]
  rw [Thread.At] at h
  cases hr : t.run with
  | running =>
      rw [hr] at h
      obtain ⟨k, c, hk, ha, hc, hrank⟩ := h
      rw [Thread.push, hr]
      exact ⟨k, c, hk, ha, hc, by omega⟩
  | returned code =>
      rw [hr] at h
      rw [Thread.push, hr]
      exact ⟨h.1, by omega⟩
  | exited code =>
      rw [hr] at h
      rw [Thread.push, hr]
      exact ⟨h.1, by omega⟩

/-- Once `spu_run` has returned, the program has stopped. -/
theorem Thread.At.stopped {t : Thread} {r : Nat} (h : t.At r) {code : BitVec 14}
    (hr : t.run = .returned code ∨ t.run = .exited code) :
    phaseOf t.taken = .stopped code := by
  rw [Thread.At] at h
  rcases hr with hr | hr
  · rw [hr] at h
    exact h.1
  · rw [hr] at h
    exact h.1

theorem Thread.sent_push (t : Thread) (w : Word) : (t.push w).sent = t.sent ++ [w] :=
  (List.append_assoc ..).symm

section ThreadSteps

variable {t t' : Thread} {r : Nat} {raised : Bool}

theorem step_next {s : State Unit} (hr : t.run = .running) (he : t.spe.exec = .next s) :
    t.step = some ({ t with spe := s }, false) := by
  rw [Thread.step, hr]
  simp only [he]

theorem step_read {rt : Reg} {w : Word} {ws : List Word} (hr : t.run = .running)
    (hd : decode (t.spe.ls t.spe.pc) = some (.rdch rt 29)) (hm : t.mbox = w :: ws) :
    t.step = some ({ t with
      spe := (t.spe.put rt (.preferred w)).next
      mbox := ws
      taken := t.taken ++ [w] }, false) := by
  rw [Thread.step, hr]
  simp only [State.exec_at hd, Instr.exec, hm, if_true]

theorem step_wait {rt : Reg} (hr : t.run = .running)
    (hd : decode (t.spe.ls t.spe.pc) = some (.rdch rt 29)) (hm : t.mbox = []) :
    t.step = none := by
  rw [Thread.step, hr]
  simp only [State.exec_at hd, Instr.exec, hm]

theorem step_stop {code : BitVec 14} (hr : t.run = .running)
    (hd : decode (t.spe.ls t.spe.pc) = some (.stop code)) :
    t.step = some ({ t with run := .returned code }, false) := by
  rw [Thread.step, hr]
  simp only [State.exec_at hd, Instr.exec]

/-- A program that waits for a word, or has stopped. -/
theorem phase_cases (p : Phase) {c : State Unit} (h : p.At c) :
    (∃ rt, decode (c.ls c.pc) = some (.rdch rt 29) ∧ (∀ code, p ≠ .stopped code)
      ∧ ∀ w, ∃ k c', k ≤ 6 ∧ Alone noDevice k (c.put rt (.preferred w)).next c'
        ∧ (p.after w).At c')
    ∨ ∃ code, p = .stopped code ∧ decode (c.ls c.pc) = some (.stop code) := by
  cases p with
  | ident =>
      refine .inl ⟨3, AtId.fetch h, (fun _ h => nomatch h), ?_⟩
      intro w
      have hmsg := turn_id h w
      exact ⟨0, _, by decide, .rest (own_rdch hmsg.fetch), hmsg⟩
  | msg id => exact .inl ⟨4, AtMsg.fetch h, (fun _ h => nomatch h), turn_msg h⟩
  | stopped code => exact .inr ⟨code, rfl, AtStop.fetch h⟩

/-- **A step of a thread** lowers its rank, and changes nothing of what was sent
    to it.  It raises `thread_abort` for a program that stopped as it should
    not. -/
theorem Thread.At.step (h : t.At r) (hs : t.step = some (t', raised)) :
    ∃ r', r' < r ∧ t'.At r' ∧ t'.sent = t.sent ∧ (∀ code, t.run ≠ .exited code)
      ∧ (raised = true → ∃ code, phaseOf t.taken = .stopped code
          ∧ runStatus code ≠ 0x13370002) := by
  rw [Thread.At] at h
  cases hr : t.run with
  | running =>
      rw [hr] at h
      obtain ⟨k, c, hk, ha, hc, hrank⟩ := h
      rcases ha.cases_own with ⟨hspe, -⟩ | ⟨u, hu⟩
      · rcases phase_cases _ hc with ⟨rt, hd, -, hgoes⟩ | ⟨code, hp, hd⟩
        · rw [← hspe] at hd hgoes
          cases hm : t.mbox with
          | nil =>
              rw [step_wait hr hd hm] at hs
              exact nomatch hs
          | cons w ws =>
              rw [step_read hr hd hm] at hs
              cases hs
              obtain ⟨k', c', hk', ha', hc'⟩ := hgoes w
              rw [hm, List.length_cons] at hrank
              refine ⟨10 * ws.length + k' + 2, by omega, ?_, ?_, (fun _ h => nomatch h),
                (fun h => nomatch h)⟩
              · rw [Thread.At, hr]
                exact ⟨k', c', hk', ha', by rw [phaseOf_append]; exact hc', rfl⟩
              · rw [Thread.sent, Thread.sent, hm, List.append_cons t.taken w ws]
        · rw [← hspe] at hd
          rw [step_stop hr hd] at hs
          cases hs
          exact ⟨10 * t.mbox.length + 1, by omega, ⟨hp, rfl⟩, rfl, (fun _ h => nomatch h),
            (fun h => nomatch h)⟩
      · rw [step_next hr (own_noDevice hu)] at hs
        cases hs
        obtain ⟨j, rfl, hj⟩ := ha.after hu
        refine ⟨10 * t.mbox.length + j + 2, by omega, ?_, rfl, (fun _ h => nomatch h),
          (fun h => nomatch h)⟩
        rw [Thread.At, hr]
        exact ⟨j, c, by omega, hj, hc, rfl⟩
  | returned code =>
      rw [hr] at h
      rw [Thread.step, hr] at hs
      cases hs
      refine ⟨10 * t.mbox.length, by omega, ⟨h.1, rfl⟩, rfl, (fun _ h => nomatch h), ?_⟩
      intro hraised
      exact ⟨code, h.1, of_decide_eq_true hraised⟩
  | exited code =>
      rw [Thread.step, hr] at hs
      exact nomatch hs

/-- A thread without a step can be joined, or its program waits for a word. -/
theorem Thread.At.stuck (h : t.At r) (hs : t.step = none) :
    (∃ code, t.run = .exited code)
      ∨ t.mbox = [] ∧ ∀ code, phaseOf t.taken ≠ .stopped code := by
  rw [Thread.At] at h
  cases hr : t.run with
  | running =>
      rw [hr] at h
      obtain ⟨k, c, -, ha, hc, -⟩ := h
      rcases ha.cases_own with ⟨hspe, -⟩ | ⟨u, hu⟩
      · rcases phase_cases _ hc with ⟨rt, hd, hp, -⟩ | ⟨code, -, hd⟩
        · rw [← hspe] at hd
          cases hm : t.mbox with
          | nil => exact .inr ⟨rfl, hp⟩
          | cons w ws =>
              rw [step_read hr hd hm] at hs
              exact nomatch hs
        · rw [← hspe] at hd
          rw [step_stop hr hd] at hs
          exact nomatch hs
      · rw [step_next hr (own_noDevice hu)] at hs
        exact nomatch hs
  | returned code =>
      rw [Thread.step, hr] at hs
      exact nomatch hs
  | exited code => exact .inl ⟨code, rfl⟩

end ThreadSteps

/-! ## The system -/

/-- Where `main` is. -/
inductive Main (n : Nat) where
  -- at the head of the loop over the pattern
  | write (j : Nat)
  -- behind the write, before the look at `thread_abort`
  | abortCheck (j : Nat)
  -- at the head of the loop over the contexts
  | complete (j : Nat)
  -- behind the stop message, in `pthread_join`
  | join (i : Fin n)
  | exit (rc : Int)
  -- a message names no context, and `threads` is used out of its bounds
  | outOfRange
  deriving DecidableEq, Repr

structure Sys (n : Nat) where
  main   : Main n
  abort  : Bool
  thread : Fin n → Thread

variable {n : Nat}

/-- The contexts are set up, and every program is at its entry. -/
def Sys.start (ctx : Fin n → State Unit) : Sys n :=
  { main := .write 0
    abort := false
    thread := fun i =>
      { spe := (ctx i).boot speProgram entry, mbox := [], taken := [], run := .running } }

/-- A write to a mailbox, which waits until there is room. -/
def Sys.send (cap : Nat) (i : Fin n) (w : Word) (next : Main n) (s : Sys n) :
    Option (Sys n) :=
  if (s.thread i).mbox.length < cap then
    some { s with
      main := next
      thread := Function.update s.thread i ((s.thread i).push w) }
  else none

/-- The next step of `main`. -/
def Sys.mainStep (cap : Nat) (pattern : List Byte) (s : Sys n) : Option (Sys n) :=
  match s.main with
  | .write j =>
      match pattern[j]? with
      | none => some { s with main := .complete 0 }
      | some p =>
          if h : p.toNat < n then s.send cap ⟨p.toNat, h⟩ (p.setWidth 32) (.abortCheck j)
          else some { s with main := .outOfRange }
  | .abortCheck j =>
      some { s with main := if s.abort then .exit 1 else .write (j + 1) }
  | .complete j =>
      if h : j < n then s.send cap ⟨j, h⟩ stopMsg (.join ⟨j, h⟩)
      else some { s with main := .exit 0 }
  | .join i =>
      match (s.thread i).run with
      | .exited code =>
          some { s with
            main := if runStatus code ≠ 0x13370002 then .exit 1 else .complete (i + 1) }
      | _ => none
  | .exit _ => none
  | .outOfRange => none

/-- The next step of a thread. -/
def Sys.threadStep (i : Fin n) (s : Sys n) : Option (Sys n) :=
  (s.thread i).step.map fun (t, raised) =>
    { s with
      abort := s.abort || raised
      thread := Function.update s.thread i t }

/-- Main or one of the threads takes its next step. -/
inductive Step (cap : Nat) (pattern : List Byte) : Sys n → Sys n → Prop where
  | main {s s' : Sys n} (h : s.mainStep cap pattern = some s') : Step cap pattern s s'
  | thread {s s' : Sys n} (i : Fin n) (h : s.threadStep i = some s') : Step cap pattern s s'

/-- What a step of `main` does, one case for each branch of the code. -/
inductive MainStepped (cap : Nat) (pattern : List Byte) (s s' : Sys n) : Prop
  | written {j : Nat} {p : Byte} (hm : s.main = .write j) (hp : pattern[j]? = some p)
      (hn : p.toNat < n)
      (hs : s.send cap ⟨p.toNat, hn⟩ (p.setWidth 32) (.abortCheck j) = some s')
  | outOfRange {j : Nat} {p : Byte} (hm : s.main = .write j) (hp : pattern[j]? = some p)
      (hn : ¬ p.toNat < n) (hs : s' = { s with main := .outOfRange })
  | patternEnd {j : Nat} (hm : s.main = .write j) (hlen : pattern.length ≤ j)
      (hs : s' = { s with main := .complete 0 })
  | aborted {j : Nat} (hm : s.main = .abortCheck j) (ha : s.abort = true)
      (hs : s' = { s with main := .exit 1 })
  | goesOn {j : Nat} (hm : s.main = .abortCheck j) (ha : s.abort = false)
      (hs : s' = { s with main := .write (j + 1) })
  | stopSent {j : Nat} (hm : s.main = .complete j) (hj : j < n)
      (hs : s.send cap ⟨j, hj⟩ stopMsg (.join ⟨j, hj⟩) = some s')
  | finished {j : Nat} (hm : s.main = .complete j) (hj : n ≤ j)
      (hs : s' = { s with main := .exit 0 })
  | joinedWrong {i : Fin n} {code : BitVec 14} (hm : s.main = .join i)
      (hr : (s.thread i).run = .exited code) (hcode : code ≠ 0x1337)
      (hs : s' = { s with main := .exit 1 })
  | joined {i : Fin n} (hm : s.main = .join i) (hr : (s.thread i).run = .exited 0x1337)
      (hs : s' = { s with main := .complete (i + 1) })

/-- **A step of `main`, said once.** -/
theorem mainStep_cases {cap : Nat} {pattern : List Byte} {s s' : Sys n}
    (hs : s.mainStep cap pattern = some s') : MainStepped cap pattern s s' := by
  rw [Sys.mainStep] at hs
  cases hm : s.main with
  | write j =>
      rw [hm] at hs
      cases hp : pattern[j]? with
      | none =>
          simp only [hp] at hs
          exact .patternEnd hm (List.getElem?_eq_none_iff.mp hp) (Option.some.inj hs).symm
      | some p =>
          simp only [hp] at hs
          split_ifs at hs with hn
          · exact .written hm hp hn hs
          · exact .outOfRange hm hp hn (Option.some.inj hs).symm
  | abortCheck j =>
      rw [hm] at hs
      cases ha : s.abort with
      | true => exact .aborted hm ha (by rw [← Option.some.inj hs, if_pos ha])
      | false =>
          refine .goesOn hm ha ?_
          rw [← Option.some.inj hs, ha, if_neg Bool.false_ne_true]
  | complete j =>
      rw [hm] at hs
      simp only at hs
      split_ifs at hs with hj
      · exact .stopSent hm hj hs
      · exact .finished hm (Nat.not_lt.mp hj) (Option.some.inj hs).symm
  | join i =>
      rw [hm] at hs
      cases hr : (s.thread i).run with
      | exited code =>
          simp only [hr] at hs
          by_cases hcode : code = 0x1337
          · subst hcode
            have hrun : ¬ runStatus 0x1337 ≠ 0x13370002 := not_not.mpr rfl
            rw [if_neg hrun] at hs
            exact .joined hm hr (Option.some.inj hs).symm
          · rw [if_pos (fun h => hcode (runStatus_eq h))] at hs
            exact .joinedWrong hm hr hcode (Option.some.inj hs).symm
      | running =>
          simp only [hr] at hs
          exact nomatch hs
      | returned code =>
          simp only [hr] at hs
          exact nomatch hs
  | exit rc =>
      rw [hm] at hs
      exact nomatch hs
  | outOfRange =>
      rw [hm] at hs
      exact nomatch hs

/-! ## What holds along every run -/

/-- The words that the pattern has for a context. -/
def words (pattern : List Byte) (i : Nat) : List Word :=
  (pattern.filter (fun p => p.toNat = i)).map (fun p => p.setWidth 32)

/-- What has been sent to a context, where `main` is. -/
def SentAt (pattern : List Byte) (i : Fin n) (ws : List Word) : Main n → Prop
  | .write j => ws = words (pattern.take j) i
  | .abortCheck j => ws = words (pattern.take (j + 1)) i
  | .complete j => ws = words pattern i ++ if i < j then [stopMsg] else []
  | .join k => ws = words pattern i ++ if i ≤ k then [stopMsg] else []
  | .exit rc => rc = 0 → ws = words pattern i ++ [stopMsg]
  | .outOfRange => True

/-- The context has been joined, where `main` is. -/
def Joined (i : Fin n) : Main n → Prop
  | .complete j => i < j
  | .join k => i < k
  | .exit rc => rc = 0
  | _ => False

/-- The steps that `main` has left, with more than ten for every write. -/
def Main.rank (pattern : List Byte) : Main n → Nat
  | .write j => 20 * (pattern.length - j) + 20 * n + 10
  | .abortCheck j => 20 * (pattern.length - (j + 1)) + 20 * n + 15
  | .complete j => 20 * (n - j) + 5
  | .join i => 20 * (n - (i + 1)) + 10
  | .exit _ => 0
  | .outOfRange => 0

/-- The invariant, with its rank. -/
structure Invariant (pattern : List Byte) (s : Sys n) (r : Nat) : Prop where
  threads : ∃ rank : Fin n → Nat, (∀ i, (s.thread i).At (rank i))
    ∧ r = s.main.rank pattern + ∑ i, rank i
  sent    : ∀ i, SentAt pattern i (s.thread i).sent s.main
  joined  : ∀ i, Joined i s.main → (s.thread i).run = .exited 0x1337

variable {cap : Nat} {pattern : List Byte} {s s' : Sys n} {r : Nat}

/-- A step of `main` that sends nothing. -/
theorem Invariant.move (h : Invariant pattern s r) {m : Main n}
    (hrank : m.rank pattern < s.main.rank pattern)
    (hsent : ∀ i ws, SentAt pattern i ws s.main → SentAt pattern i ws m)
    (hjoined : ∀ i, Joined i m → Joined i s.main ∨ (s.thread i).run = .exited 0x1337) :
    ∃ r', r' < r ∧ Invariant pattern { s with main := m } r' := by
  obtain ⟨rank, hat, rfl⟩ := h.threads
  refine ⟨m.rank pattern + ∑ i, rank i, by omega, ⟨rank, hat, rfl⟩, ?_, ?_⟩
  · intro i
    exact hsent i _ (h.sent i)
  · intro i hi
    rcases hjoined i hi with hj | hrun
    · exact h.joined i hj
    · exact hrun

/-- A step of `main` that sends a word. -/
theorem Invariant.send (h : Invariant pattern s r) {i : Fin n} {w : Word} {m : Main n}
    (hs : s.send cap i w m = some s')
    (hrank : m.rank pattern + 10 < s.main.rank pattern)
    (hother : ∀ j ws, j ≠ i → SentAt pattern j ws s.main → SentAt pattern j ws m)
    (hsent : ∀ ws, SentAt pattern i ws s.main → SentAt pattern i (ws ++ [w]) m)
    (hjoined : ∀ j, Joined j m → Joined j s.main) :
    ∃ r', r' < r ∧ Invariant pattern s' r' := by
  rw [Sys.send] at hs
  split_ifs at hs with hroom
  cases hs
  obtain ⟨rank, hat, rfl⟩ := h.threads
  have hsum := sum_update rank i (rank i + 10)
  refine ⟨m.rank pattern + ∑ j, Function.update rank i (rank i + 10) j, by omega,
    ⟨_, ?_, rfl⟩, ?_, ?_⟩
  · exact forall_update_rank (fun _ (th : Thread) r => th.At r) ((hat i).push w) (fun j _ => hat j)
  · refine forall_update (fun j (th : Thread) => SentAt pattern j th.sent m) ?_ ?_
    · rw [Thread.sent_push]
      exact hsent _ (h.sent i)
    · intro j hj
      exact hother j _ hj (h.sent j)
  · exact forall_update (fun j (th : Thread) => Joined j m → th.run = .exited 0x1337)
      (fun hm => h.joined i (hjoined i hm)) (fun j _ hm => h.joined j (hjoined j hm))

/-- A step of a thread. -/
theorem Invariant.thread (h : Invariant pattern s r) {i : Fin n} (hs : s.threadStep i = some s') :
    ∃ r', r' < r ∧ Invariant pattern s' r' := by
  obtain ⟨⟨t, raised⟩, ht, rfl⟩ := Option.map_eq_some_iff.mp hs
  obtain ⟨rank, hat, rfl⟩ := h.threads
  obtain ⟨r', hlt, ht', hsent, hrun, -⟩ := (hat i).step ht
  have hsum := sum_update rank i r'
  refine ⟨s.main.rank pattern + ∑ j, Function.update rank i r' j, by omega,
    ⟨_, ?_, rfl⟩, ?_, ?_⟩
  · exact forall_update_rank (fun _ (th : Thread) r => th.At r) ht' (fun j _ => hat j)
  · refine forall_update (fun j (th : Thread) => SentAt pattern j th.sent s.main) ?_
      (fun j _ => h.sent j)
    rw [hsent]
    exact h.sent i
  · exact forall_update (fun j (th : Thread) => Joined j s.main → th.run = .exited 0x1337)
      (fun hm => absurd (h.joined i hm) (hrun _)) (fun j _ => h.joined j)

theorem words_take_succ {j : Nat} {p : Byte} (h : pattern[j]? = some p) (i : Nat) :
    words (pattern.take (j + 1)) i
      = words (pattern.take j) i ++ if p.toNat = i then [p.setWidth 32] else [] := by
  rw [words, words, List.take_add_one, h, List.filter_append, List.map_append]
  congr 1
  by_cases hp : p.toNat = i
  · simp [hp]
  · simp [hp]

/-- What a step of `main` keeps. -/
theorem Invariant.main (h : Invariant pattern s r)
    (hs : s.mainStep cap pattern = some s') : ∃ r', r' < r ∧ Invariant pattern s' r' := by
  -- an exit with an error says nothing of what has been sent or joined
  have herror : s.main.rank pattern ≠ 0 →
      ∃ r', r' < r ∧ Invariant pattern { s with main := .exit 1 } r' := by
    intro hrank
    refine h.move (Nat.pos_of_ne_zero hrank) ?_ ?_
    · intro i ws _ hrc
      exact nomatch hrc
    · intro i hi
      exact nomatch hi
  cases mainStep_cases hs with
  | @written j p hm hp hn hsend =>
      have hlt : j < pattern.length := (List.getElem?_eq_some_iff.mp hp).1
      refine h.send hsend (by rw [hm, Main.rank, Main.rank]; omega) ?_ ?_
        (fun i hi => nomatch hi)
      · intro i ws hi hws
        have hne : ¬ p.toNat = i := fun h => hi (Fin.ext h.symm)
        rw [hm] at hws
        rw [SentAt, words_take_succ hp, if_neg hne, List.append_nil]
        exact hws
      · intro ws hws
        rw [hm] at hws
        rw [SentAt, words_take_succ hp, if_pos rfl, ← show ws = _ from hws]
  | outOfRange hm hp hn heq =>
      have hlt := (List.getElem?_eq_some_iff.mp hp).1
      subst heq
      refine h.move (by rw [hm, Main.rank, Main.rank]; omega) ?_ (fun i hi => nomatch hi)
      exact fun _ _ _ => trivial
  | patternEnd hm hlen heq =>
      subst heq
      refine h.move (by rw [hm, Main.rank, Main.rank]; omega) ?_ (fun i hi => nomatch hi)
      intro i ws hws
      rw [hm] at hws
      rw [SentAt, List.take_of_length_le hlen] at hws
      rw [SentAt, hws]
      simp
  | aborted hm ha heq =>
      subst heq
      exact herror (by rw [hm, Main.rank]; omega)
  | goesOn hm ha heq =>
      subst heq
      refine h.move (by rw [hm, Main.rank, Main.rank]; omega) ?_ (fun i hi => nomatch hi)
      intro i ws hws
      rw [hm] at hws
      exact hws
  | @stopSent j hm hj hsend =>
      refine h.send hsend (by rw [hm, Main.rank, Main.rank]; simp only; omega) ?_ ?_ ?_
      · intro i ws hi hws
        have hij : i ≤ ⟨j, hj⟩ ↔ (i : Nat) < j :=
          ⟨fun hle => Nat.lt_of_le_of_ne hle (fun h => hi (Fin.ext h)), Nat.le_of_lt⟩
        rw [hm] at hws
        simp only [SentAt, hij] at hws ⊢
        exact hws
      · intro ws hws
        rw [hm] at hws
        simp only [SentAt] at hws ⊢
        rw [hws, if_pos (le_refl _), if_neg (Nat.lt_irrefl j), List.append_nil]
      · intro i hi
        rw [hm]
        exact hi
  | finished hm hj heq =>
      subst heq
      refine h.move (by rw [hm, Main.rank, Main.rank]; omega) ?_ ?_
      · intro i ws hws _
        rw [hm] at hws
        rw [SentAt, if_pos (by omega)] at hws
        exact hws
      · intro i _
        refine .inl ?_
        rw [hm, Joined]
        omega
  | joinedWrong hm hr hcode heq =>
      subst heq
      exact herror (by rw [hm, Main.rank]; omega)
  | @joined i hm hr heq =>
      subst heq
      refine h.move (by rw [hm, Main.rank, Main.rank]; omega) ?_ ?_
      · intro j ws hws
        rw [hm] at hws
        simp only [SentAt, Fin.le_def, Nat.lt_succ_iff] at hws ⊢
        exact hws
      · intro j hj
        by_cases hji : j = i
        · exact .inr (hji ▸ hr)
        · refine .inl ?_
          rw [hm]
          exact Nat.lt_of_le_of_ne (Nat.lt_succ_iff.mp hj) (fun h => hji (Fin.ext h))

/-- **Every step keeps the invariant and lowers its rank.** -/
theorem step_ranked : Ranked (@Step n cap pattern) (Invariant pattern) := by
  intro s s' r h hstep
  cases hstep with
  | main hs => exact h.main hs
  | thread i hs => exact h.thread hs

/-- The invariant holds at the start. -/
theorem start_invariant (pattern : List Byte) (ctx : Fin n → State Unit) :
    ∃ r, Invariant pattern (Sys.start ctx) r := by
  refine ⟨_, ⟨fun _ => 4, ?_, rfl⟩, fun _ => rfl, fun _ hi => nomatch hi⟩
  intro i
  obtain ⟨c, ha, hc⟩ := boot_settles (ctx i)
  exact ⟨2, c, by decide, ha, hc, rfl⟩

end SpufsSchedSystem
