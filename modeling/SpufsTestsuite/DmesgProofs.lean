import SpufsTestsuite.RunTestProofs

/-! # The kernel log — `dmesg_check`, call after call

    `dmesg_check` reads the kernel log into a static buffer and looks for a
    word in it with `strstr`.  The kernel says how many bytes it has copied, and
    puts no NUL behind them, but the number is not used: what the search
    finds behind them is what earlier calls and the allocator have left there.

    A call gives the answer of its own log exactly if the bytes behind it are
    harmless (`dmesgCheck_log`). -/

namespace SpufsDmesg

open CString SpufsRunTest Automaton

/-! ## The function -/

/-- The static variables of `dmesg_check`. -/
structure Dmesg where
  buf     : Option Bytes
  bufsize : Int
  deriving DecidableEq, Repr

/-- What a call meets: the size of the kernel's buffer, the contents of new
    memory (none when there is no memory), and the bytes that the kernel copies
    (none for an error). -/
structure Klog where
  size  : Int
  fresh : Option (Nat → UInt8)
  log   : Option Bytes

/-- `talloc_realloc` of an array of bytes, for any `int`. -/
def reallocInt (p : Option Bytes) (size : Int) (fresh : Option (Nat → UInt8)) :
    Option Bytes :=
  let count := (size % 2 ^ 32).toNat
  if count = 0 then none else tallocRealloc p count fresh

/-- The buffer is as large as the kernel's. -/
def resize (s : Dmesg) (k : Klog) : Dmesg :=
  if k.size ≠ s.bufsize then ⟨reallocInt s.buf k.size k.fresh, k.size⟩ else s

/-- `"Badness"`. -/
def badness : Bytes := str "Badness"

/-- `dmesg_check`: the static variables behind the call, and its value; without
    a value it has read outside of its buffer. -/
def dmesgCheck (s : Dmesg) (k : Klog) : Dmesg × Option Int :=
  let s := resize s k
  match k.log with
  | none => (s, some (-1))
  | some d =>
      let buf := d ++ (s.buf.getD []).drop d.length
      ({ s with buf := some buf },
        (strstr badness buf).map (fun found => if found then 1 else 0))

/-- What the kernel can do: it copies at most as many bytes as the buffer has,
    and no NUL, and to a null pointer it copies none. -/
def allowed (s : Dmesg) (k : Klog) : Bool :=
  match k.log, (resize s k).buf with
  | none, _ => true
  | some _, none => false
  | some d, some buf => decide (d.length ≤ buf.length) && !d.contains 0

/-- One call in a run. -/
def dmesgStep (s : Dmesg) (k : Klog) : Option Dmesg :=
  if allowed s k then some (dmesgCheck s k).1 else none

/-- The variables when the program starts. -/
def dmesgStart : Dmesg := ⟨none, 0⟩

/-! ## The answer of a call -/

/-- If the kernel returns a log, the value says whether the word is in it. -/
def AnswersLog (s : Dmesg) (k : Klog) : Prop :=
  ∀ d, k.log = some d →
    (dmesgCheck s k).2 = some (if badness <:+: d then 1 else 0)

/-- What the buffer holds behind the log. -/
def leftover (s : Dmesg) (k : Klog) (d : Bytes) : Bytes :=
  ((resize s k).buf.getD []).drop d.length

/-- If the log does not have the word, the leftover has a NUL, and the word does
    not end in front of it. -/
def Harmless (s : Dmesg) (k : Klog) : Prop :=
  ∀ d, k.log = some d → ¬ badness <:+: d →
    (0 : UInt8) ∈ leftover s k d
      ∧ ¬ badness <:+: d ++ (leftover s k d).takeWhile (· != 0)

section Call

variable {s s' : Dmesg} {k : Klog} {ks : List Klog}

theorem allowed_noNul {d : Bytes} (h : allowed s k = true) (hd : k.log = some d) :
    (0 : UInt8) ∉ d := by
  rw [allowed, hd] at h
  cases hb : (resize s k).buf with
  | none => rw [hb] at h; exact nomatch h
  | some buf =>
      rw [hb] at h
      simpa using (Bool.and_eq_true_iff.mp h).2

/-- **One call**: the answer is that of the log exactly if what is behind the log
    is harmless. -/
theorem answersLog_iff (h : allowed s k = true) : AnswersLog s k ↔ Harmless s k := by
  refine forall_congr' (fun d => forall_congr' (fun hd => ?_))
  have h0 := allowed_noNul h hd
  have hneedle := strstr_iff (show badness ≠ [] by decide) (by decide) (d ++ leftover s k d)
  have hall : ∀ x ∈ d, (x != 0) = true := by
    intro x hx
    exact bne_iff_ne.mpr (fun h => h0 (h ▸ hx))
  have hvalue : (dmesgCheck s k).2 = (strstr badness (d ++ leftover s k d)).map
      (fun found => if found then 1 else 0) := by
    rw [dmesgCheck, hd]
    rfl
  rw [List.takeWhile_append_of_pos hall, List.mem_append, or_iff_right h0] at hneedle
  obtain ⟨htrue, hfalse⟩ := hneedle
  rw [hvalue]
  by_cases hbad : badness <:+: d
  · rw [if_pos hbad, htrue.mpr (List.infix_append_of_infix_left hbad)]
    exact iff_of_true rfl (fun hno => absurd hbad hno)
  · rw [if_neg hbad, imp_iff_right hbad, ← hfalse]
    cases strstr badness (d ++ leftover s k d) with
    | none => exact iff_of_false (fun h => nomatch h) (fun h => nomatch h)
    | some found =>
        cases found with
        | true => exact iff_of_false (fun h => nomatch h) (fun h => nomatch h)
        | false => exact iff_of_true rfl rfl

/-- **The log check looks at the current log** in every call of a run exactly if
    in every call what is behind the log is harmless. -/
theorem dmesgCheck_log (h : run dmesgStep dmesgStart ks = some s') :
    (∀ s k, Takes dmesgStep dmesgStart ks s k → AnswersLog s k)
      ↔ ∀ s k, Takes dmesgStep dmesgStart ks s k → Harmless s k := by
  refine forall_congr' (fun s => forall_congr' (fun k => forall_congr' (fun ht => ?_)))
  obtain ⟨v, hv⟩ := ht.defined h
  refine answersLog_iff ?_
  by_contra hno
  rw [dmesgStep, if_neg hno] at hv
  exact nomatch hv

end Call

/-! ## A log that has been cleared -/

/-- A call with a buffer of 16 bytes, and new memory full of zeros. -/
def logged (d : Bytes) : Klog := ⟨16, some (fun _ => 0), some d⟩

/-- A clean log, one with the word behind a longer one, one that cannot be read, and
    one behind a change of the kernel's buffer. -/
def sampleLogs : List Klog :=
  [logged (str "ok"), logged (str "x Badness"), ⟨16, some (fun _ => 0), none⟩,
    ⟨32, some (fun _ => 0), some (str "clean again")⟩]

theorem dmesgCheck_log_sample :
    ∃ s', run dmesgStep dmesgStart sampleLogs = some s'
      ∧ ((∀ s k, Takes dmesgStep dmesgStart sampleLogs s k → AnswersLog s k)
        ↔ ∀ s k, Takes dmesgStep dmesgStart sampleLogs s k → Harmless s k) := by
  obtain ⟨s', hs'⟩ : ∃ s', run dmesgStep dmesgStart sampleLogs = some s' := ⟨_, rfl⟩
  exact ⟨s', hs', dmesgCheck_log hs'⟩

/-- The log had the word and has been cleared: the next call, with no byte of log,
    still finds it.  A log that fills the buffer is searched beyond its end. -/
theorem dmesgCheck_stale :
    (∃ s, Takes dmesgStep dmesgStart [logged badness, logged []] s (logged [])
      ∧ (dmesgCheck s (logged [])).2 = some 1 ∧ ¬ AnswersLog s (logged []))
    ∧ (dmesgCheck dmesgStart (logged (List.replicate 16 120))).2 = none := by
  obtain ⟨s, hs, hvalue⟩ : ∃ s, run dmesgStep dmesgStart [logged badness] = some s
      ∧ (dmesgCheck s (logged [])).2 = some 1 := ⟨_, rfl, by decide⟩
  refine ⟨⟨s, ⟨[logged badness], [], rfl, hs⟩, hvalue, ?_⟩, by decide⟩
  intro h
  have hzero := h [] rfl
  rw [hvalue] at hzero
  exact absurd (Option.some.inj hzero) (by decide)

end SpufsDmesg
