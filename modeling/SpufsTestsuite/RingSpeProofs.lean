import SpufsTestsuite.SpuProofs

/-! # 01-dual-ring's SPE side — read a signal, send it on

    The program loads its neighbour's address and the count of iterations, and
    then goes round a loop: it reads its signal register, adds one, has the
    memory flow controller send the sum to the neighbour's signal register,
    and waits for the command to be performed.

    The parameters of a command go to channels that take them at once
    (`mfcWrite`).  Three waits are left: for a signal (`AtRead`), to issue the
    command (`AtSend`), and for its completion (`AtWait`). -/

namespace SpufsRingSpe

open Spu
open Transition (Settles)

/-! ## The memory flow controller's channels -/

/-- The command parameters, and the tag mask and update request. -/
structure Mfc where
  lsa    : Word
  eah    : Word
  eal    : Word
  size   : Word
  tag    : Word
  mask   : Word
  update : Word
  deriving DecidableEq, Repr

/-- The channel writes that are taken at once. -/
def mfcWrite (ch : Channel) (v : Word) (m : Mfc) : Option Mfc :=
  match ch with
  | 16 => some { m with lsa := v }
  | 17 => some { m with eah := v }
  | 18 => some { m with eal := v }
  | 19 => some { m with size := v }
  | 20 => some { m with tag := v }
  | 22 => some { m with mask := v }
  | 23 => some { m with update := v }
  | _ => none

/-! ## The program -/

/-- `spe_program`. -/
def speProgram : List Word :=
  [ -- sig_addr
   0x00000000, 0x00000000, 0x00000000, 0x00000000,
   -- iters
   0x00000000, 0x00000000, 0x00000000, 0x00000000,
   -- buf
   0x00000000, 0x00000000, 0x00000000, 0x00000000,
   -- _start
   0x30800001,  -- lqa     r1,0
   0x3fe10082,  -- shlqbyi r2,r1,4
   0x30800203,  -- lqa     r3,10 <iters>
   0x40801604,  -- il      r4,44
   0x40800005,  -- il      r5,0
   0x40800206,  -- il      r6,4
   0x40805007,  -- il      r7,160
   0x40800088,  -- il      r8,1
   0x40800089,  -- il      r9,1
   0x4281018b,  -- ila     r11,10203
   -- loop
   0x01a0018a,  -- rdch    r10,$ch3
   0x1c00450a,  -- ai      r10,r10,1
   0xb142850b,  -- shufb   r10,r10,r10,r11
   0x2080040a,  -- stqa    r10,20 <buf>
   0x21a00804,  -- wrch    $ch16,r4
   0x21a00881,  -- wrch    $ch17,r1
   0x21a00902,  -- wrch    $ch18,r2
   0x21a00986,  -- wrch    $ch19,r6
   0x21a00a05,  -- wrch    $ch20,r5
   0x21a00a87,  -- wrch    $ch21,r7
   0x21a00b08,  -- wrch    $ch22,r8
   0x21a00b89,  -- wrch    $ch23,r9
   0x01a00c0c,  -- rdch    r12,$ch24
   0x1cffc183,  -- ai      r3,r3,-1
   0x217ff903,  -- brnz    r3,58 <loop>
   0x00001337]  -- stop

/-- `spe_program_entry`. -/
def speProgramEntry : Nat := 0x30

/-- The instructions in front of the loop. -/
def prologue : List Instr :=
  [.lqa 1 0, .shlqbyi 2 1 4, .lqa 3 4, .il 4 44, .il 5 0, .il 6 4, .il 7 160, .il 8 1,
   .il 9 1, .ila 11 0x10203]

/-- The instructions between the read of a signal and the command. -/
def prepare : List Instr :=
  [.ai 10 10 1, .shufb 10 10 10 11, .stqa 10 8, .wrch 16 4, .wrch 17 1, .wrch 18 2,
   .wrch 19 6, .wrch 20 5]

/-- The instructions of `spe_program`, from `_start` on. -/
def speCode : List Instr :=
  prologue ++ .rdch 10 3 :: prepare
    ++ [.wrch 21 7, .wrch 22 8, .wrch 23 9, .rdch 12 24, .ai 3 3 (-1), .brnz 3 (-14),
        .stop 0x1337]

theorem speProgram_decode : (speProgram.drop 12).map decode = speCode.map some := by decide

/-- What stays in the registers: the neighbour's address, and `left` receives. -/
structure Live (hi lo left : Word) (s : State Mfc) : Prop where
  code : Listing s.ls 12 speCode
  r1   : (s.reg 1).w0 = hi
  r2   : (s.reg 2).w0 = lo
  r3   : (s.reg 3).w0 = left
  r4   : (s.reg 4).w0 = 44
  r5   : (s.reg 5).w0 = 0
  r6   : (s.reg 6).w0 = 4
  r7   : (s.reg 7).w0 = 160
  r8   : (s.reg 8).w0 = 1
  r9   : (s.reg 9).w0 = 1
  r11  : s.reg 11 = .splat 0x00010203

/-- The program waits for a signal. -/
structure AtRead (hi lo left : Word) (s : State Mfc) : Prop where
  pc   : s.pc = 22
  live : Live hi lo left s

/-- The program is about to issue the command that sends `v`. -/
structure AtSend (hi lo left v : Word) (s : State Mfc) : Prop where
  pc   : s.pc = 31
  live : Live hi lo left s
  buf  : s.ls 11 = v
  lsa  : s.chan.lsa = 44
  eah  : s.chan.eah = hi
  eal  : s.chan.eal = lo
  size : s.chan.size = 4
  tag  : s.chan.tag = 0

/-- The program waits for the completion of its command. -/
structure AtWait (hi lo left : Word) (s : State Mfc) : Prop where
  pc     : s.pc = 34
  live   : Live hi lo left s
  mask   : s.chan.mask = 1
  update : s.chan.update = 1

section Fetch

variable {hi lo left v : Word} {s : State Mfc}

theorem AtRead.fetch (h : AtRead hi lo left s) :
    decode (s.ls s.pc) = some (.rdch 10 3) := by
  rw [h.pc]
  exact h.live.code 10 _ rfl

theorem AtSend.fetch (h : AtSend hi lo left v s) :
    decode (s.ls s.pc) = some (.wrch 21 7) := by
  rw [h.pc]
  exact h.live.code 19 _ rfl

theorem AtWait.fetch (h : AtWait hi lo left s) :
    decode (s.ls s.pc) = some (.rdch 12 24) := by
  rw [h.pc]
  exact h.live.code 22 _ rfl

/-- The command channel is not one that is taken at once. -/
theorem AtSend.own_none (h : AtSend hi lo left v s) : own mfcWrite s = none := own_at h.fetch

end Fetch

/-! ## From wait to wait -/

/-- From its entry the program gets to the read of its first signal. -/
theorem boot_settles {ws : List Word} {hi lo left : Word} (s : State Mfc)
    (hcode : Listing (s.boot ws speProgramEntry).ls 12 speCode)
    (h0 : (s.boot ws speProgramEntry).ls 0 = hi) (h1 : (s.boot ws speProgramEntry).ls 1 = lo)
    (h4 : (s.boot ws speProgramEntry).ls 4 = left) :
    ∃ c, Alone mfcWrite 10 (s.boot ws speProgramEntry) c ∧ AtRead hi lo left c := by
  have hsafe : blockSafe 12 26 prologue = true := by decide
  obtain ⟨t, ht, hlive⟩ : ∃ t, runBlock mfcWrite prologue (s.boot ws speProgramEntry) = some t
      ∧ (Listing t.ls 12 speCode → Live hi lo left t) := by
    refine ⟨_, rfl, ?_⟩
    intro hc
    refine ⟨hc, h0, ?_, h4, rfl, rfl, rfl, rfl, rfl, rfl, rfl⟩
    exact (Quad.shlqbyi_four _).trans h1
  obtain ⟨hpc, hls⟩ := runBlock_frame hsafe ht
  have hread : AtRead hi lo left t := ⟨hpc, hlive (hcode.congr hls)⟩
  exact ⟨t, settles_block hcode rfl hsafe 0 rfl ⟨_, rfl⟩ (fun _ _ _ _ _ => rfl) ht
    (.rest (own_rdch hread.fetch)), hread⟩

section Turns

variable {hi lo left v : Word} {s : State Mfc}

/-- The state in which `spe_program` has just read a signal. -/
def readSignal (v : Word) (s : State Mfc) : State Mfc := (s.put 10 (.preferred v)).next

/-- The signal plus one lies in the buffer, and the command's parameters are set. -/
theorem turn_read (h : AtRead hi lo left s) (v : Word) :
    ∃ c, Alone mfcWrite 8 (readSignal v s) c ∧ AtSend hi lo left (v + 1) c := by
  have hsafe : blockSafe 12 26 prepare = true := by decide
  have hcode : Listing (readSignal v s).ls 12 speCode := h.live.code
  have hpc : (readSignal v s).pc = 12 + BitVec.ofNat 16 11 := by
    rw [readSignal, State.next_pc, State.put_pc, h.pc]
    rfl
  obtain ⟨t, ht, hlive, hbuf, hlsa, heah, heal, hsize, htag⟩ :
      ∃ t, runBlock mfcWrite prepare (readSignal v s) = some t
        ∧ (Listing t.ls 12 speCode → Live hi lo left t) ∧ t.ls 11 = v + 1
        ∧ t.chan.lsa = 44 ∧ t.chan.eah = hi ∧ t.chan.eal = lo ∧ t.chan.size = 4
        ∧ t.chan.tag = 0 := by
    have hshuf := Quad.shufb_splat ((Quad.preferred v).map (· + 1))
      ((Quad.preferred v).map (· + 1))
    rw [← h.live.r11] at hshuf
    refine ⟨_, rfl, ?_, ?_, h.live.r4, h.live.r1, h.live.r2, h.live.r6, h.live.r5⟩
    · intro hc
      exact ⟨hc, h.live.r1, h.live.r2, h.live.r3, h.live.r4, h.live.r5, h.live.r6, h.live.r7,
        h.live.r8, h.live.r9, h.live.r11⟩
    · exact congrArg (fun q => Quad.word q 11) hshuf
  obtain ⟨htpc, htls⟩ := runBlock_frame hsafe ht
  rw [hpc] at htpc
  have hsend : AtSend hi lo left (v + 1) t :=
    ⟨htpc, hlive (hcode.congr htls), hbuf, hlsa, heah, heal, hsize, htag⟩
  exact ⟨t, settles_block hcode rfl hsafe 11 hpc ⟨_, rfl⟩ (fun _ _ _ _ _ => rfl) ht
    (.rest hsend.own_none), hsend⟩

/-- Once the command is issued, the program asks for its completion, and leaves
    the local store alone. -/
theorem turn_send (h : AtSend hi lo left v s) :
    ∃ c, Settles (own mfcWrite) State.ls 2 s.next c ∧ AtWait hi lo left c := by
  have hsafe : blockSafe 12 26 [.wrch 22 8, .wrch 23 9] = true := by decide
  have hcode : Listing s.next.ls 12 speCode := h.live.code
  have hpc : s.next.pc = 12 + BitVec.ofNat 16 20 := by
    rw [State.next_pc, h.pc]
    rfl
  obtain ⟨t, ht, hlive, hmask, hupdate⟩ :
      ∃ t, runBlock mfcWrite [.wrch 22 8, .wrch 23 9] s.next = some t
        ∧ (Listing t.ls 12 speCode → Live hi lo left t) ∧ t.chan.mask = 1
        ∧ t.chan.update = 1 := by
    refine ⟨_, rfl, ?_, h.live.r8, h.live.r9⟩
    intro hc
    exact ⟨hc, h.live.r1, h.live.r2, h.live.r3, h.live.r4, h.live.r5, h.live.r6, h.live.r7,
      h.live.r8, h.live.r9, h.live.r11⟩
  obtain ⟨htpc, htls⟩ := runBlock_frame hsafe ht
  rw [hpc] at htpc
  have hwait : AtWait hi lo left t := ⟨htpc, hlive (hcode.congr htls), hmask, hupdate⟩
  -- a channel write touches no word of the local store
  have hobs : ∀ i ∈ [Instr.wrch 22 8, .wrch 23 9], ∀ u w : State Mfc,
      (i.exec u).own mfcWrite = some w → w.ls = u.ls := by
    intro i hi u w hw
    funext a
    refine ls_own hw ?_
    rcases List.mem_pair.mp hi with rfl | rfl
    · rfl
    · rfl
  exact ⟨t, settles_block hcode rfl hsafe 20 hpc ⟨_, rfl⟩ hobs ht
    (.rest (own_rdch hwait.fetch)), hwait⟩

/-- The state in which `spe_program` has just read the tag status. -/
def readStatus (x : Word) (s : State Mfc) : State Mfc := (s.put 12 (.preferred x)).next

/-- The counter goes down, and the loop goes on until it is zero. -/
theorem turn_wait (h : AtWait hi lo left s) (x : Word) :
    ∃ c, Alone mfcWrite 2 (readStatus x s) c
      ∧ if left - 1 = 0 then AtStop 0x1337 c else AtRead hi lo (left - 1) c := by
  have hpc : (readStatus x s).pc = 35 := by
    rw [readStatus, State.next_pc, State.put_pc, h.pc]
    rfl
  have hcode : Listing (readStatus x s).ls 12 speCode := h.live.code
  obtain ⟨t, ht, htls, htpc, hlive⟩ : ∃ t, own mfcWrite (readStatus x s) = some t
      ∧ t.ls = s.ls ∧ t.pc = 36 ∧ Live hi lo (left - 1) t := by
    have hai : decode ((readStatus x s).ls (readStatus x s).pc) = some (.ai 3 3 (-1)) := by
      rw [hpc]
      exact hcode 23 _ rfl
    refine ⟨_, own_at hai, rfl, ?_, hcode, h.live.r1, h.live.r2, ?_, h.live.r4, h.live.r5,
      h.live.r6, h.live.r7, h.live.r8, h.live.r9, h.live.r11⟩
    · show (readStatus x s).pc + 1 = 36
      rw [hpc]
      rfl
    · show (s.reg 3).w0 + (-1 : BitVec 10).signExtend 32 = left - 1
      rw [h.live.r3, BitVec.sub_eq_add_neg]
      rfl
  have hbrnz : decode (t.ls t.pc) = some (.brnz 3 (-14)) := by
    rw [htpc]
    exact hlive.code 24 _ rfl
  by_cases hz : left - 1 = 0
  · have hgo : own mfcWrite t = some t.next := by
      rw [own_brnz hbrnz, hlive.r3, if_pos hz]
    have hstop : AtStop 0x1337 t.next := by
      refine ⟨?_⟩
      rw [State.next_ls, State.next_pc, htpc]
      exact hlive.code 25 _ rfl
    refine ⟨t.next, .step ht rfl (.step hgo rfl (.rest (own_stop hstop.fetch))), ?_⟩
    rw [if_pos hz]
    exact hstop
  · have hgo : own mfcWrite t = some (t.jump (-14)) := by
      rw [own_brnz hbrnz, hlive.r3, if_neg hz]
    have hread : AtRead hi lo (left - 1) (t.jump (-14)) := by
      refine ⟨?_, ?_, hlive.r1, hlive.r2, hlive.r3, hlive.r4, hlive.r5, hlive.r6, hlive.r7,
        hlive.r8, hlive.r9, hlive.r11⟩
      · rw [State.jump_pc, htpc]
        rfl
      · rw [State.jump_ls]
        exact hlive.code
    refine ⟨t.jump (-14), .step ht rfl (.step hgo rfl (.rest (own_rdch hread.fetch))), ?_⟩
    rw [if_neg hz]
    exact hread

end Turns

end SpufsRingSpe
