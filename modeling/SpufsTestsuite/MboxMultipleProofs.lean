import SpufsTestsuite.MboxReceiverProofs

/-! # 02-mbox-multiple — what a success of the test says

    The PPE side writes the messages and then the stop message, waits for the
    SPE's thread, and looks at the stop code alone.  The channel between the
    two is arbitrary: it delivers any finite sequence of words.

    The stop code says that the words counted up from 0 and ended with the
    stop message, but not how far they counted.  So the test is sound exactly
    for the deliveries that do not end early or late
    (`main_sound_iff`). -/

namespace SpufsMboxMultiple

open Spu SpufsMboxReceiver

/-- `nr_msgs`. -/
def nrMsgs : Nat := 1024000

/-- What the calls of `main` return, and what it reads of `thread_abort`. -/
structure Env where
  ctx      : Int
  lsFd     : Int
  mboxFd   : Int
  create   : Int
  sent     : Nat → Int
  abort    : Nat → Bool
  sentStop : Int

/-- How `main` ends. -/
inductive Exit where
  | status (rc : Int)
  | aborted
  deriving DecidableEq, Repr

/-- The loop over the messages from `i` on, `k` of them left: whether it goes on
    to the stop message, and the words it has written. -/
def sendLoop (env : Env) : Nat → Nat → Bool × List Word
  | 0, _ => (true, [])
  | k + 1, i =>
      if env.sent i ≠ 4 then (false, [])
      else if env.abort i then (true, [BitVec.ofNat 32 i])
      else
        let (ok, ws) := sendLoop env k (i + 1)
        (ok, BitVec.ofNat 32 i :: ws)

/-- `main`; `runRc` is the `run_rc` of the SPE's thread, if `spu_run` ever
    returns.  The assertion on the write of the program assigns, so that it
    cannot fail. -/
def main (env : Env) (runRc : Option Int) : Option Exit :=
  if env.ctx < 0 then some .aborted
  else if env.lsFd < 0 then some .aborted
  else if env.mboxFd ≤ 0 then some (.status 1)
  else if env.create ≠ 0 then some .aborted
  else if (sendLoop env nrMsgs 0).1 = false then some (.status 1)
  else if env.sentStop ≠ 4 then some (.status 1)
  -- pthread_join
  else runRc.map (fun rc => if rc ≠ 0x13370002 then .status 1 else .status 0)

/-- `main` returns success after the SPE, fed with `ws`, has consumed `used`. -/
def Succeeds (env : Env) (s : State Unit) (ws used : List Word) : Prop :=
  ∃ fuel code unread, feed 29 fuel (s.boot speProgram 0) ws = some (.stopped code unread)
    ∧ ws = used ++ unread ∧ main env (some (runStatus code)) = some (.status 0)

/-- A success is one of the stop code `0x1337`. -/
theorem main_success {env : Env} {code : BitVec 14}
    (h : main env (some (runStatus code)) = some (.status 0)) : code = 0x1337 := by
  by_contra hne
  have hrc : runStatus code ≠ 0x13370002 := fun hrc => hne (runStatus_eq hrc)
  rw [main] at h
  split_ifs at h <;> simp [hrc] at h

/-- The words that the program consumed when it stopped with `0x1337`. -/
theorem Succeeds.used {env : Env} {s : State Unit} {ws used : List Word}
    (h : Succeeds env s ws used) :
    ∃ k, k < 2 ^ 32 ∧ used = counting 0 k ++ [stopMsg] ∧ used <+: ws := by
  obtain ⟨fuel, code, unread, hf, hws, hmain⟩ := h
  obtain ⟨fuel', hf'⟩ := feed_receive s ws
  have hend := feed_unique hf' hf
  rw [main_success hmain] at hend
  obtain ⟨k, hk, hcount⟩ := (receive_stops (n := 0) (by decide) ws unread).mp hend
  refine ⟨k, by omega, ?_, ⟨unread, hws.symm⟩⟩
  rw [hws, List.append_cons] at hcount
  exact List.append_cancel_right hcount

/-- An environment in which every call succeeds and the flag is never seen. -/
def Env.good : Env :=
  { ctx := 3, lsFd := 4, mboxFd := 5, create := 0, sent := fun _ => 4
    abort := fun _ => false, sentStop := 4 }

theorem sendLoop_good (k i : Nat) : sendLoop .good k i = (true, counting i k) := by
  induction k generalizing i with
  | zero => rfl
  | succ k ih =>
      rw [counting_succ, sendLoop, ih]
      rfl

/-- With a channel that keeps every word, `main` writes the stream and succeeds. -/
theorem succeeds_good {k : Nat} (hk : k < 2 ^ 32) (s : State Unit) (unread : List Word) :
    Succeeds .good s (counting 0 k ++ stopMsg :: unread) (counting 0 k ++ [stopMsg]) := by
  obtain ⟨fuel, hf⟩ := feed_receive s (counting 0 k ++ stopMsg :: unread)
  have hstop : receive 0 (counting 0 k ++ stopMsg :: unread) = .stopped 0x1337 unread :=
    (receive_stops (n := 0) (by decide) _ unread).mpr ⟨k, by omega, rfl⟩
  refine ⟨fuel, 0x1337, unread, hf.trans (congrArg some hstop), ?_, ?_⟩
  · rw [List.append_assoc]
    rfl
  · rw [main, sendLoop_good]
    decide

/-- **The test is sound for a delivery** exactly if the delivery does not begin
    with a stream of another length. -/
theorem main_sound_iff (ws : List Word) :
    (∀ env s used, Succeeds env s ws used → used = counting 0 nrMsgs ++ [stopMsg])
      ↔ ∀ k, k < 2 ^ 32 → k ≠ nrMsgs → ¬ (counting 0 k ++ [stopMsg]) <+: ws := by
  constructor
  · rintro h k hk hne ⟨unread, rfl⟩
    have hsucc := succeeds_good hk ⟨0, fun _ => .splat 0, fun _ => 0, ()⟩ unread
    rw [List.append_cons] at hsucc
    have hlen := congrArg List.length (h _ _ _ hsucc)
    simp only [List.length_append, length_counting, List.length_singleton] at hlen
    omega
  · intro h env s used hsucc
    obtain ⟨k, hk, rfl, hpre⟩ := hsucc.used
    by_cases hne : k = nrMsgs
    · rw [hne]
    · exact absurd hpre (h k hk hne)

/-- The channel has lost every message, and delivers the stop message alone. -/
theorem main_unsound :
    Succeeds .good ⟨0, fun _ => .splat 0, fun _ => 0, ()⟩ [stopMsg] [stopMsg]
      ∧ [stopMsg] ≠ counting 0 nrMsgs ++ [stopMsg] := by
  refine ⟨succeeds_good (k := 0) (by decide) _ [], ?_⟩
  intro h
  have hlen := congrArg List.length h
  simp [length_counting, nrMsgs] at hlen

end SpufsMboxMultiple
