import SpufsTestsuite.RingSpeProofs

/-! # A node of the ring — its signal register and its commands

    A node is an SPE with its signal register and the commands that its memory
    flow controller has not performed yet.  What it has received and not sent
    on makes the difference: a node is passive, or it sends a word, or its
    word is in flight.

    A passive node leaves that mode only by the read of a signal
    (`Passive.step`), and a node in flight only when its command is performed
    (`Flight.step`, `Flight.performed`). -/

namespace SpufsRingNode

open Spu SpufsRingSpe
open Transition (Settles)

/-! ## Commands and tags -/

/-- A command of the memory flow controller. -/
structure Command where
  lsa  : Word
  ea   : BitVec 64
  size : Word
  tag  : Word
  cmd  : Word
  deriving DecidableEq, Repr

/-- The command that a write to channel 21 issues. -/
def command (m : Mfc) (cmd : Word) : Command := ⟨m.lsa, m.eah ++ m.eal, m.size, m.tag, cmd⟩

/-- The word that a `sndsig` command takes from the local store. -/
def Command.payload (c : Command) (ls : Addr → Word) : Word := ls (c.lsa.extractLsb' 2 16)

/-- A bit for every tag of a command that has not been performed. -/
def pendingTags (queue : List Command) : Word :=
  queue.foldr (fun c m => m ||| 1 <<< c.tag.toNat) 0

/-- The tags under the mask whose commands have all been performed. -/
def tagStatus (m : Mfc) (queue : List Command) : Word := m.mask &&& ~~~pendingTags queue

/-- A read of the tag status returns: at once, for any tag, or for all of them,
    as the update request has it. -/
def tagReady (m : Mfc) (queue : List Command) : Bool :=
  if m.update = 0 then true
  else if m.update = 1 then tagStatus m queue ≠ 0
  else tagStatus m queue = m.mask

/-! ## Nodes -/

/-- An SPE, the unread word in its signal register, its commands, the words that
    its program has read, and its stop code. -/
structure Node where
  spe     : State Mfc
  signal  : Option Word
  queue   : List Command
  got     : List Word
  stopped : Option (BitVec 14)

/-- The next step of the SPE. -/
def Node.step (nd : Node) : Option Node :=
  match nd.stopped with
  | some _ => none
  | none =>
      match own mfcWrite nd.spe with
      | some s => some { nd with spe := s }
      | none =>
          match nd.spe.exec with
          | .write ch v s =>
              if ch = 21 then some { nd with spe := s, queue := nd.queue ++ [command s.chan v] }
              else none
          | .read ch k =>
              if ch = 3 then
                nd.signal.map fun v =>
                  { nd with spe := k v, signal := none, got := nd.got ++ [v] }
              else if ch = 24 then
                if tagReady nd.spe.chan nd.queue then
                  some { nd with spe := k (tagStatus nd.spe.chan nd.queue) }
                else none
              else none
          | .stop code => some { nd with stopped := some code }
          | _ => none

section Steps

variable {nd : Node}

theorem step_own {s : State Mfc} (hr : nd.stopped = none) (ho : own mfcWrite nd.spe = some s) :
    nd.step = some { nd with spe := s } := by
  rw [Node.step, hr]
  simp only [ho]

theorem step_signal {rt : Reg} (hr : nd.stopped = none)
    (hd : decode (nd.spe.ls nd.spe.pc) = some (.rdch rt 3)) :
    nd.step = nd.signal.map fun v =>
      { nd with spe := (nd.spe.put rt (.preferred v)).next, signal := none,
                got := nd.got ++ [v] } := by
  rw [Node.step, hr]
  simp only [own_rdch hd, State.exec_at hd, Instr.exec, if_true]

theorem step_issue {rt : Reg} (hr : nd.stopped = none)
    (hd : decode (nd.spe.ls nd.spe.pc) = some (.wrch 21 rt)) :
    nd.step = some { nd with
      spe := nd.spe.next
      queue := nd.queue ++ [command nd.spe.chan (nd.spe.reg rt).w0] } := by
  have hnone : own mfcWrite nd.spe = none := own_at hd
  rw [Node.step, hr]
  simp only [hnone, State.exec_at hd, Instr.exec, if_true]
  rfl

theorem step_status {rt : Reg} (hr : nd.stopped = none)
    (hd : decode (nd.spe.ls nd.spe.pc) = some (.rdch rt 24)) :
    nd.step = if tagReady nd.spe.chan nd.queue then
      some { nd with
        spe := (nd.spe.put rt (.preferred (tagStatus nd.spe.chan nd.queue))).next }
      else none := by
  have h24 : ¬ (24 : Channel) = 3 := by decide
  rw [Node.step, hr]
  simp only [own_rdch hd, State.exec_at hd, Instr.exec, if_neg h24, if_true]

theorem step_stop {code : BitVec 14} (hr : nd.stopped = none)
    (hd : decode (nd.spe.ls nd.spe.pc) = some (.stop code)) :
    nd.step = some { nd with stopped := some code } := by
  rw [Node.step, hr]
  simp only [own_stop hd, State.exec_at hd, Instr.exec]

end Steps

/-! ## The modes of a node -/

variable {hi lo : Word} {K c : Nat} {nd nd' : Node} {r : Nat}

/-- Where an SPE is that has done `c` receives and holds no word, with its rank. -/
inductive Rests (hi lo : Word) (K c : Nat) :
    State Mfc → Option (BitVec 14) → Nat → Prop where
  | idle {spe s : State Mfc} {k : Nat} (hc : c < K) (hk : k ≤ 10) (hs : Alone mfcWrite k spe s)
      (h : AtRead hi lo (BitVec.ofNat 32 (K - c)) s) :
      Rests hi lo K c spe none (100 * (K - c) + k + 2)
  | waits {spe s : State Mfc} {k : Nat} (hc : c ≤ K) (hk : k ≤ 2)
      (hs : Settles (own mfcWrite) State.ls k spe s)
      (h : AtWait hi lo (BitVec.ofNat 32 (K - c + 1)) s) :
      Rests hi lo K c spe none (100 * (K - c) + k + 30)
  | ends {spe s : State Mfc} {k : Nat} (hc : c = K) (hk : k ≤ 2) (hs : Alone mfcWrite k spe s)
      (h : AtStop 0x1337 s) : Rests hi lo K c spe none (k + 1)
  | stopped {spe : State Mfc} (hc : c = K) : Rests hi lo K c spe (some 0x1337) 0

/-- The node holds no word. -/
def Passive (hi lo : Word) (K c : Nat) (nd : Node) (r : Nat) : Prop :=
  nd.queue = [] ∧ Rests hi lo K c nd.spe nd.stopped r

/-- The node has read its last word, and is about to send `v` on. -/
def Sending (hi lo : Word) (K c : Nat) (v : Word) (nd : Node) (r : Nat) : Prop :=
  nd.queue = [] ∧ nd.stopped = none ∧ c ≤ K
    ∧ ∃ k s, k ≤ 8 ∧ Alone mfcWrite k nd.spe s ∧ AtSend hi lo (BitVec.ofNat 32 (K - c + 1)) v s
      ∧ r = 100 * (K - c) + k + 60

/-- The command that sends a word on. -/
def sndsig (hi lo : Word) : Command := ⟨44, hi ++ lo, 4, 0, 0xa0⟩

/-- The word `v` of the node is in flight. -/
def Flight (hi lo : Word) (K c : Nat) (v : Word) (nd : Node) (r : Nat) : Prop :=
  nd.queue = [sndsig hi lo] ∧ nd.stopped = none ∧ c ≤ K ∧ nd.spe.ls 11 = v
    ∧ ∃ k s, k ≤ 2 ∧ Settles (own mfcWrite) State.ls k nd.spe s
      ∧ AtWait hi lo (BitVec.ofNat 32 (K - c + 1)) s ∧ r = 100 * (K - c) + k + 40

/-- The counter is zero after the last receive only. -/
theorem left_pred {m : Nat} (hm : m < 2 ^ 32) :
    BitVec.ofNat 32 (m + 1) - 1 = BitVec.ofNat 32 m
      ∧ (BitVec.ofNat 32 m = 0 ↔ m = 0) := by
  constructor
  · rw [BitVec.ofNat_add]
    exact BitVec.add_sub_cancel _ _
  · rw [← BitVec.toNat_inj, BitVec.toNat_ofNat, Nat.mod_eq_of_lt hm]
    rfl

/-- After the wait for a command the node is on its way to the next read, or to
    the stop. -/
theorem rests_after_wait (hK : K < 2 ^ 32) (hc : c ≤ K) {s : State Mfc}
    (h : AtWait hi lo (BitVec.ofNat 32 (K - c + 1)) s) (x : Word) :
    ∃ r', r' < 100 * (K - c) + 30 ∧ Rests hi lo K c (readStatus x s) none r' := by
  obtain ⟨t, ht, hcase⟩ := turn_wait h x
  obtain ⟨hleft, hzero⟩ := @left_pred (K - c) (by omega)
  rw [hleft] at hcase
  by_cases hz : K - c = 0
  · rw [if_pos (hzero.mpr hz)] at hcase
    exact ⟨3, by omega, .ends (by omega) (le_refl 2) ht hcase⟩
  · rw [if_neg (fun h => hz (hzero.mp h))] at hcase
    exact ⟨100 * (K - c) + 2 + 2, by omega, .idle (by omega) (by decide) ht hcase⟩

/-- The wait for a tag ends when no command is left. -/
theorem tagReady_nil {m : Mfc} (hm : m.mask = 1) (hu : m.update = 1) :
    tagReady m [] = true := by
  rw [tagReady, tagStatus, hm, hu]
  decide

/-- It does not end while the command is left. -/
theorem tagReady_sndsig {m : Mfc} (hm : m.mask = 1) (hu : m.update = 1) :
    tagReady m [sndsig hi lo] = false := by
  have hp : pendingTags [sndsig hi lo] = 1 := by simp [pendingTags, sndsig]
  rw [tagReady, tagStatus, hm, hu, hp]
  decide

/-- **A step of a passive node** keeps it passive, or reads the signal. -/
theorem Passive.step (hK : K < 2 ^ 32) (h : Passive hi lo K c nd r)
    (hs : nd.step = some nd') :
    (∃ r', r' < r ∧ Passive hi lo K c nd' r' ∧ nd'.signal = nd.signal ∧ nd'.got = nd.got)
    ∨ ∃ v, nd.signal = some v ∧ c < K ∧ nd'.signal = none ∧ nd'.got = nd.got ++ [v]
        ∧ ∃ r', r' < r ∧ Sending hi lo K (c + 1) (v + 1) nd' r' := by
  obtain ⟨hq, h⟩ := h
  generalize hrun : nd.stopped = run at h
  generalize hspe : nd.spe = spe at h
  cases h with
  | @idle s k hc hk hset hat =>
      rcases hset.cases_own with ⟨rfl, -⟩ | ⟨u, hu⟩
      · -- at the read of the signal
        rw [step_signal hrun (hspe ▸ hat.fetch)] at hs
        obtain ⟨v, hv, rfl⟩ := Option.map_eq_some_iff.mp hs
        obtain ⟨t, ht, hsend⟩ := turn_read hat v
        have hleft : K - (c + 1) + 1 = K - c := by omega
        refine .inr ⟨v, hv, hc, rfl, rfl, 100 * (K - (c + 1)) + 8 + 60, by omega, hq, hrun, hc, 8,
          t, le_refl 8, hspe ▸ ht, ?_, rfl⟩
        rw [hleft]
        exact hsend
      · rw [step_own hrun (hspe ▸ hu)] at hs
        cases hs
        obtain ⟨j, rfl, hj⟩ := hset.after hu
        refine .inl ⟨100 * (K - c) + j + 2, by omega, ⟨hq, ?_⟩, rfl, rfl⟩
        show Rests hi lo K c u nd.stopped _
        rw [hrun]
        exact .idle hc (by omega) hj hat
  | @waits s k hc hk hset hat =>
      rcases hset.cases_own with ⟨rfl, -⟩ | ⟨u, hu⟩
      · rw [step_status hrun (hspe ▸ hat.fetch), hq, hspe, tagReady_nil hat.mask hat.update,
          if_pos rfl] at hs
        cases hs
        obtain ⟨r', hlt, hr'⟩ := rests_after_wait hK hc hat (tagStatus spe.chan [])
        refine .inl ⟨r', by omega, ⟨rfl, ?_⟩, rfl, rfl⟩
        show Rests hi lo K c _ nd.stopped r'
        rw [hrun]
        exact hr'
      · rw [step_own hrun (hspe ▸ hu)] at hs
        cases hs
        obtain ⟨j, rfl, hj⟩ := hset.after hu
        refine .inl ⟨100 * (K - c) + j + 30, by omega, ⟨hq, ?_⟩, rfl, rfl⟩
        show Rests hi lo K c u nd.stopped _
        rw [hrun]
        exact .waits hc (by omega) hj hat
  | @ends s k hc hk hset hat =>
      rcases hset.cases_own with ⟨rfl, -⟩ | ⟨u, hu⟩
      · rw [step_stop hrun (hspe ▸ hat.fetch)] at hs
        cases hs
        exact .inl ⟨0, by omega, ⟨hq, .stopped hc⟩, rfl, rfl⟩
      · rw [step_own hrun (hspe ▸ hu)] at hs
        cases hs
        obtain ⟨j, rfl, hj⟩ := hset.after hu
        refine .inl ⟨j + 1, by omega, ⟨hq, ?_⟩, rfl, rfl⟩
        show Rests hi lo K c u nd.stopped _
        rw [hrun]
        exact .ends hc (by omega) hj hat
  | stopped hc =>
      rw [Node.step, hrun] at hs
      exact nomatch hs

/-- A passive node without a step has stopped after its last receive, or waits
    for a signal. -/
theorem Passive.stuck (h : Passive hi lo K c nd r) (hs : nd.step = none) :
    (nd.stopped = some 0x1337 ∧ c = K) ∨ (nd.signal = none ∧ c < K) := by
  obtain ⟨hq, h⟩ := h
  generalize hrun : nd.stopped = run at h
  generalize hspe : nd.spe = spe at h
  have hown : nd.stopped = none → ∀ u, own mfcWrite spe ≠ some u := by
    intro hr u hu
    rw [step_own hr (hspe ▸ hu)] at hs
    exact nomatch hs
  cases h with
  | @idle s k hc hk hset hat =>
      rcases hset.cases_own with ⟨rfl, -⟩ | ⟨u, hu⟩
      · rw [step_signal hrun (hspe ▸ hat.fetch), Option.map_eq_none_iff] at hs
        exact .inr ⟨hs, hc⟩
      · exact absurd hu (hown hrun u)
  | @waits s k hc hk hset hat =>
      rcases hset.cases_own with ⟨rfl, -⟩ | ⟨u, hu⟩
      · rw [step_status hrun (hspe ▸ hat.fetch), hq, hspe, tagReady_nil hat.mask hat.update,
          if_pos rfl] at hs
        exact nomatch hs
      · exact absurd hu (hown hrun u)
  | @ends s k hc hk hset hat =>
      rcases hset.cases_own with ⟨rfl, -⟩ | ⟨u, hu⟩
      · rw [step_stop hrun (hspe ▸ hat.fetch)] at hs
        exact nomatch hs
      · exact absurd hu (hown hrun u)
  | stopped hc => exact .inl ⟨rfl, hc⟩

/-- **A step of a sending node** brings it nearer to the command, or issues it. -/
theorem Sending.step {v : Word} (h : Sending hi lo K c v nd r) :
    ∃ nd', nd.step = some nd' ∧ nd'.signal = nd.signal ∧ nd'.got = nd.got
      ∧ ∃ r', r' < r ∧ (Sending hi lo K c v nd' r' ∨ Flight hi lo K c v nd' r') := by
  obtain ⟨hq, hrun, hc, k, s, hk, hset, hat, rfl⟩ := h
  rcases hset.cases_own with ⟨hspe, -⟩ | ⟨u, hu⟩
  · rw [← hspe] at hat
    obtain ⟨t, ht, hwait⟩ := turn_send hat
    refine ⟨_, step_issue hrun hat.fetch, rfl, rfl, 100 * (K - c) + 2 + 40, by omega,
      .inr ⟨?_, hrun, hc, hat.buf, 2, t, le_refl 2, ht, hwait, rfl⟩⟩
    rw [hq, List.nil_append, command, hat.lsa, hat.eah, hat.eal, hat.size, hat.tag,
      hat.live.r7]
    rfl
  · obtain ⟨j, rfl, hj⟩ := hset.after hu
    exact ⟨_, step_own hrun hu, rfl, rfl, 100 * (K - c) + j + 60, by omega,
      .inl ⟨hq, hrun, hc, j, s, by omega, hj, hat, rfl⟩⟩

/-- **A node in flight** stays there, whatever its SPE does. -/
theorem Flight.step {v : Word} (h : Flight hi lo K c v nd r) (hs : nd.step = some nd') :
    nd'.signal = nd.signal ∧ nd'.got = nd.got ∧ ∃ r', r' < r ∧ Flight hi lo K c v nd' r' := by
  obtain ⟨hq, hrun, hc, hv, k, s, hk, hset, hat, rfl⟩ := h
  rcases hset.cases_own with ⟨hspe, -⟩ | ⟨u, hu⟩
  · rw [← hspe] at hat
    rw [step_status hrun hat.fetch, hq, tagReady_sndsig hat.mask hat.update] at hs
    exact nomatch hs
  · rw [step_own hrun hu] at hs
    cases hs
    obtain ⟨j, rfl, hj⟩ := hset.after hu
    have hls : u.ls = nd.spe.ls := hj.obs_eq.trans hset.obs_eq.symm
    exact ⟨rfl, rfl, 100 * (K - c) + j + 40, by omega, hq, hrun, hc, hls ▸ hv, j, s, by omega,
      hj, hat, rfl⟩

/-- When the command has been performed, the node is passive. -/
theorem Flight.performed {v : Word} (h : Flight hi lo K c v nd r) :
    ∃ r', r' < r ∧ Passive hi lo K c { nd with queue := [] } r' := by
  obtain ⟨hq, hrun, hc, hv, k, s, hk, hset, hat, rfl⟩ := h
  refine ⟨100 * (K - c) + k + 30, by omega, rfl, ?_⟩
  show Rests hi lo K c nd.spe nd.stopped _
  rw [hrun]
  exact .waits hc hk hset hat

end SpufsRingNode
