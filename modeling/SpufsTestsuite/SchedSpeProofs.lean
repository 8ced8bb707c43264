import SpufsTestsuite.SpuProofs

/-! # sched_multiple's SPE side — a reader of one identity

    The program takes the first word that it reads for its identity.  Every
    further word counts as a message: the stop message stops it with `0x1337`,
    its own identity is read on, any other word stops it with 0.

    The first word is not compared with anything.  A context that is sent the
    stop message alone takes that for its identity (`phaseOf_stop_only`). -/

namespace SpufsSchedSpe

open Spu

/-- `spe_program`; the first quadword is the counter. -/
def speProgram : List Word :=
  [0x00000000, 0x00000000, 0x00000000, 0x00000000,
   0x40800007,  -- il    r7,0
   0x32f80005,  -- fsmbi r5,0xf000
   0x01a00e83,  -- rdch  r3,ch29
   0x01a00e84,  -- rdch  r4,ch29
   0x1c004387,  -- ai    r7,r7,1
   0x20800007,  -- stqa  r7,0
   0x78010286,  -- ceq   r6,r5,r4
   0x20000106,  -- brz   r6,.+2
   0x00001337,  -- stop  0x1337
   0x78010188,  -- ceq   r8,r3,r4
   0x217ffc88,  -- brnz  r8
   0x00000000]  -- stop  0x00

/-- The instructions behind the counter. -/
def speCode : List Instr :=
  [.il 7 0, .fsmbi 5 0xf000, .rdch 3 29, .rdch 4 29, .ai 7 7 1, .stqa 7 0,
   .ceq 6 5 4, .brz 6 2, .stop 0x1337, .ceq 8 3 4, .brnz 8 (-7), .stop 0]

/-- `entry` of `spe_thread`. -/
def entry : Nat := 0x10

theorem speProgram_decode : (speProgram.drop 4).map decode = speCode.map some := by decide

/-- The message that main sends for completion. -/
def stopMsg : Word := 0xffffffff

/-- The program waits for a message, with `id` taken for its identity. -/
structure AtMsg (id : Word) (s : State Unit) : Prop where
  pc   : s.pc = 7
  code : Listing s.ls 4 speCode
  mask : (s.reg 5).w0 = stopMsg
  own  : (s.reg 3).w0 = id

/-- The program waits for its identity. -/
structure AtId (s : State Unit) : Prop where
  pc   : s.pc = 6
  code : Listing s.ls 4 speCode
  mask : (s.reg 5).w0 = stopMsg

/-- Where the program waits. -/
inductive Phase where
  | ident
  | msg (id : Word)
  | stopped (code : BitVec 14)
  deriving DecidableEq, Repr

/-- The next wait, after a word. -/
def Phase.after : Phase → Word → Phase
  | .ident, w => .msg w
  | .msg id, w =>
      if w = stopMsg then .stopped 0x1337
      else if w = id then .msg id
      else .stopped 0
  | .stopped code, _ => .stopped code

/-- Where the program waits after the words. -/
def phaseOf (ws : List Word) : Phase := ws.foldl Phase.after .ident

def Phase.At : Phase → State Unit → Prop
  | .ident => AtId
  | .msg id => AtMsg id
  | .stopped code => AtStop code

theorem phaseOf_append (ws : List Word) (w : Word) :
    phaseOf (ws ++ [w]) = (phaseOf ws).after w := by
  rw [phaseOf, List.foldl_append]
  rfl

/-- The stop message alone is taken for an identity. -/
theorem phaseOf_stop_only : phaseOf [stopMsg] = .msg stopMsg := rfl

/-- After its identity and more of the same, a program waits for messages. -/
theorem phaseOf_replicate (id : Word) (hid : id ≠ stopMsg) (n : Nat) :
    phaseOf (List.replicate (n + 1) id) = .msg id := by
  induction n with
  | zero => rfl
  | succ n ih =>
      rw [List.replicate_succ', phaseOf_append, ih, Phase.after, if_neg hid, if_pos rfl]

/-- The stop message behind that is what stops it. -/
theorem phaseOf_complete (id : Word) (hid : id ≠ stopMsg) (n : Nat) :
    phaseOf (List.replicate (n + 1) id ++ [stopMsg]) = .stopped 0x1337 := by
  rw [phaseOf_append, phaseOf_replicate id hid, Phase.after, if_pos rfl]

/-! ## The steps of the program -/

theorem AtId.fetch {s : State Unit} (h : AtId s) :
    decode (s.ls s.pc) = some (.rdch 3 29) := by
  rw [h.pc]
  exact h.code 2 _ rfl

theorem AtMsg.fetch {id : Word} {s : State Unit} (h : AtMsg id s) :
    decode (s.ls s.pc) = some (.rdch 4 29) := by
  rw [h.pc]
  exact h.code 3 _ rfl

/-- From its entry the program gets to the read of its identity. -/
theorem boot_settles (s : State Unit) :
    ∃ c, Alone noDevice 2 (s.boot speProgram entry) c ∧ AtId c := by
  have hcode : Listing (s.boot speProgram entry).ls 4 speCode :=
    (boot_loaded (by decide) entry s).listing speProgram_decode
  have hsafe : blockSafe 4 12 [.il 7 0, .fsmbi 5 0xf000] = true := by decide
  obtain ⟨t, ht, h5⟩ : ∃ t, runBlock noDevice [.il 7 0, .fsmbi 5 0xf000]
      (s.boot speProgram entry) = some t ∧ (t.reg 5).w0 = stopMsg := ⟨_, rfl, rfl⟩
  obtain ⟨hpc, hls⟩ := runBlock_frame hsafe ht
  have hid : AtId t := ⟨hpc, hcode.congr hls, h5⟩
  exact ⟨t, settles_block hcode rfl hsafe 0 rfl ⟨_, rfl⟩ (fun _ _ _ _ _ => rfl) ht
    (.rest (own_rdch hid.fetch)), hid⟩

/-- The identity is read, and the program waits for a message. -/
theorem turn_id {s : State Unit} (h : AtId s) (w : Word) :
    AtMsg w (s.put 3 (.preferred w)).next := by
  refine ⟨?_, ?_, h.mask, rfl⟩
  · rw [State.next_pc, State.put_pc, h.pc]
    rfl
  · rw [State.next_ls, State.put_ls]
    exact h.code

/-- The state in which `spe_program` has just read a message. -/
def readMsg (w : Word) (s : State Unit) : State Unit := (s.put 4 (.preferred w)).next

/-- The message is counted and compared with the stop message. -/
theorem counted {id w : Word} {s : State Unit} (h : AtMsg id s) :
    ∃ t, runBlock noDevice [.ai 7 7 1, .stqa 7 0, .ceq 6 5 4] (readMsg w s) = some t
      ∧ (t.reg 6).w0 = (if w = stopMsg then 0xffffffff else 0) ∧ (t.reg 3).w0 = id
      ∧ (t.reg 4).w0 = w ∧ (t.reg 5).w0 = stopMsg := by
  refine ⟨_, rfl, ?_, h.own, rfl, h.mask⟩
  show (if (s.reg 5).w0 = w then _ else _) = _
  rw [h.mask]
  simp only [eq_comm]

/-- **A message takes the program to its next wait**, in at most six steps. -/
theorem turn_msg {id : Word} {s : State Unit} (h : AtMsg id s) (w : Word) :
    ∃ k c, k ≤ 6 ∧ Alone noDevice k (readMsg w s) c ∧ ((Phase.msg id).after w).At c := by
  have hsafe : blockSafe 4 12 [.ai 7 7 1, .stqa 7 0, .ceq 6 5 4] = true := by decide
  have hcode : Listing (readMsg w s).ls 4 speCode := h.code
  have hpc : (readMsg w s).pc = 4 + BitVec.ofNat 16 4 := by
    rw [readMsg, State.next_pc, State.put_pc, h.pc]
    rfl
  obtain ⟨t, ht, h6, h3, h4, h5⟩ := counted h
  obtain ⟨htpc, htls⟩ := runBlock_frame hsafe ht
  have htcode : Listing t.ls 4 speCode := hcode.congr htls
  rw [hpc] at htpc
  -- whatever the branch decides, the block in front of it has run
  have hblock : ∀ {k c}, Alone noDevice k t c → Alone noDevice (3 + k) (readMsg w s) c := by
    intro k c hk
    exact settles_block hcode rfl hsafe 4 hpc ⟨_, rfl⟩ (fun _ _ _ _ _ => rfl) ht hk
  have hbrz : decode (t.ls t.pc) = some (.brz 6 2) := by
    rw [htpc]
    exact htcode 7 _ rfl
  by_cases hw : w = stopMsg
  · have hgo : own noDevice t = some t.next := by
      rw [own_brz hbrz, h6, if_pos hw, if_neg (by decide)]
    have hstop : AtStop 0x1337 t.next := by
      refine ⟨?_⟩
      rw [State.next_ls, State.next_pc, htpc]
      exact htcode 8 _ rfl
    refine ⟨4, t.next, by decide, hblock (.step hgo rfl (.rest (own_stop hstop.fetch))), ?_⟩
    rw [Phase.after, if_pos hw]
    exact hstop
  · have hgo : own noDevice t = some (t.jump 2) := by
      rw [own_brz hbrz, h6, if_neg hw, if_pos rfl]
    obtain ⟨u, hu, hul, hupc, hu8, hu3, hu5⟩ : ∃ u, own noDevice (t.jump 2) = some u
        ∧ u.ls = t.ls ∧ u.pc = 4 + BitVec.ofNat 16 10
        ∧ (u.reg 8).w0 = (if id = w then 0xffffffff else 0) ∧ (u.reg 3).w0 = id
        ∧ (u.reg 5).w0 = stopMsg := by
      have hceq : decode ((t.jump 2).ls (t.jump 2).pc) = some (.ceq 8 3 4) := by
        rw [State.jump_ls, State.jump_pc, htpc]
        exact htcode 9 _ rfl
      refine ⟨_, own_at hceq, rfl, ?_, ?_, h3, h5⟩
      · show (t.jump 2).pc + 1 = _
        rw [State.jump_pc, htpc]
        rfl
      · show (if (t.reg 3).w0 = (t.reg 4).w0 then _ else _) = _
        rw [h3, h4]
    have hucode : Listing u.ls 4 speCode := hul ▸ htcode
    have hbrnz : decode (u.ls u.pc) = some (.brnz 8 (-7)) := by
      rw [hupc]
      exact hucode 10 _ rfl
    rw [Phase.after, if_neg hw]
    by_cases hid : w = id
    · -- the context's own identity: back to the read
      have hloop : own noDevice u = some (u.jump (-7)) := by
        rw [own_brnz hbrnz, hu8, if_pos hid.symm, if_neg (by decide)]
      have hmsg : AtMsg id (u.jump (-7)) := by
        refine ⟨?_, ?_, hu5, hu3⟩
        · rw [State.jump_pc, hupc]
          rfl
        · rw [State.jump_ls]
          exact hucode
      rw [if_pos hid]
      exact ⟨6, _, by decide, hblock (.step hgo rfl (.step hu rfl
        (.step hloop rfl (.rest (own_rdch hmsg.fetch))))), hmsg⟩
    · have hfall : own noDevice u = some u.next := by
        rw [own_brnz hbrnz, hu8, if_neg (Ne.symm hid), if_pos rfl]
      have hstop : AtStop 0 u.next := by
        refine ⟨?_⟩
        rw [State.next_ls, State.next_pc, hupc]
        exact hucode 11 _ rfl
      rw [if_neg hid]
      exact ⟨6, _, by decide, hblock (.step hgo rfl (.step hu rfl
        (.step hfall rfl (.rest (own_stop hstop.fetch))))), hstop⟩

end SpufsSchedSpe
