import SpufsTestsuite.SpuProofs

/-! # The mailbox receiver — what the hand-assembled program does

    `02-mbox-multiple` and `03-mbox-multiple+sched` run the same ten words on
    the SPE: a counter, a read of the mailbox, a comparison with the stop
    message and one with the counter.  The program is taken as the words are,
    decoded, not as the comments have it.

    Every word that is read moves the program to the next read or to a stop
    (`turn_stop`, `turn_next`, `turn_wrong`), so that its end is a function of
    the words alone (`feed_receive`). -/

namespace SpufsMboxReceiver

open Spu

/-- `spe_program`. -/
def speProgram : List Word :=
  [0x32f80002,  -- fsmbi   $2,0xf000
   0x40800000,  -- il      $0,0
   0x01a00e81,  -- rdch    $1,$ch29
   0x78008083,  -- ceq     $3,$1,$2
   0x20000103,  -- brz     $3,0x18
   0x00001337,  -- stop    0x1337
   0x78000083,  -- ceq     $3,$1,$0
   0x1c004000,  -- ai      $0,$0,1
   0x217ffd03,  -- brnz    $3
   0x00000000]  -- stop

/-- The instructions of `spe_program`, with the branches as they are encoded:
    the last one goes back six words, to the read. -/
def speCode : List Instr :=
  [.fsmbi 2 0xf000, .il 0 0, .rdch 1 29, .ceq 3 1 2, .brz 3 2, .stop 0x1337,
   .ceq 3 1 0, .ai 0 0 1, .brnz 3 (-6), .stop 0]

theorem speProgram_decode : speProgram.map decode = speCode.map some := by decide

/-- The message that ends the stream. -/
def stopMsg : Word := 0xffffffff

/-- The program waits for a word, with `n` in the counter. -/
structure AtRead (n : Word) (s : State Unit) : Prop where
  pc    : s.pc = 2
  code  : Listing s.ls 0 speCode
  mask  : (s.reg 2).w0 = stopMsg
  count : (s.reg 0).w0 = n

theorem AtRead.fetch {n : Word} {s : State Unit} (h : AtRead n s) :
    decode (s.ls s.pc) = some (.rdch 1 29) := by
  rw [h.pc]
  exact h.code 2 _ rfl

/-- From its entry the program gets to the first read, with the counter at 0. -/
theorem boot_settles (s : State Unit) :
    ∃ k c, Alone noDevice k (s.boot speProgram 0) c ∧ AtRead 0 c := by
  have hcode : Listing (s.boot speProgram 0).ls 0 speCode :=
    (boot_loaded (by decide) 0 s).listing speProgram_decode
  have hsafe : blockSafe 0 10 [.fsmbi 2 0xf000, .il 0 0] = true := by decide
  obtain ⟨t, ht, h2, h0⟩ : ∃ t, runBlock noDevice [.fsmbi 2 0xf000, .il 0 0]
      (s.boot speProgram 0) = some t ∧ (t.reg 2).w0 = stopMsg ∧ (t.reg 0).w0 = 0 :=
    ⟨_, rfl, rfl, rfl⟩
  obtain ⟨hpc, hls⟩ := runBlock_frame hsafe ht
  have hread : AtRead 0 t := ⟨hpc, hcode.congr hls, h2, h0⟩
  exact ⟨_, t, settles_block hcode rfl hsafe 0 rfl ⟨_, rfl⟩ (fun _ _ _ _ _ => rfl) ht
    (.rest (own_rdch hread.fetch)), hread⟩

/-! ## One word -/

/-- The state in which `spe_program` has just read the word. -/
def readWord (w : Word) (s : State Unit) : State Unit := (s.put 1 (.preferred w)).next

/-- The comparison with the stop message; the branch goes by its outcome. -/
theorem compared {n w : Word} {s : State Unit} (h : AtRead n s) :
    ∃ t, own noDevice (readWord w s) = some t ∧ t.pc = 4 ∧ t.ls = s.ls
      ∧ (t.reg 3).w0 = (if w = stopMsg then 0xffffffff else 0)
      ∧ t.reg 0 = s.reg 0 ∧ (t.reg 1).w0 = w ∧ t.reg 2 = s.reg 2 := by
  have hpc : (readWord w s).pc = 3 := by
    rw [readWord, State.next_pc, State.put_pc, h.pc]
    rfl
  have hfetch : decode ((readWord w s).ls (readWord w s).pc) = some (.ceq 3 1 2) := by
    rw [hpc]
    exact h.code 3 _ rfl
  refine ⟨_, own_at hfetch, ?_, rfl, ?_, rfl, rfl, rfl⟩
  · show (readWord w s).pc + 1 = 4
    rw [hpc]
    rfl
  · show (if w = (s.reg 2).w0 then _ else _) = _
    rw [h.mask]

/-- The stop message stops the program with the code `0x1337`. -/
theorem turn_stop {n : Word} {s : State Unit} (h : AtRead n s) :
    ∃ k c, Alone noDevice k (readWord stopMsg s) c
      ∧ AtStop 0x1337 c := by
  obtain ⟨t, ht, hpc, hls, h3, -⟩ := compared (w := stopMsg) h
  have hbrz : decode (t.ls t.pc) = some (.brz 3 2) := by
    rw [hpc, hls]
    exact h.code 4 _ rfl
  have hstop : AtStop 0x1337 t.next := by
    refine ⟨?_⟩
    rw [State.next_ls, State.next_pc, hpc, hls]
    exact h.code 5 _ rfl
  have hgo : own noDevice t = some t.next := by
    rw [own_brz hbrz, h3, if_pos rfl, if_neg (by decide)]
  exact ⟨2, t.next, .step ht rfl (.step hgo rfl (.rest (own_stop hstop.fetch))), hstop⟩

/-- Any other word is compared with the counter, which goes up. -/
theorem turn_other {n w : Word} {s : State Unit} (h : AtRead n s) (hw : w ≠ stopMsg) :
    ∃ k c, Alone noDevice k (readWord w s) c
      ∧ if w = n then AtRead (n + 1) c else AtStop 0 c := by
  obtain ⟨t, ht, hpc, hls, h3, h0, h1, h2⟩ := compared (w := w) h
  have hcode : Listing t.ls 0 speCode := hls ▸ h.code
  have hbrz : decode (t.ls t.pc) = some (.brz 3 2) := by
    rw [hpc]
    exact hcode 4 _ rfl
  have hgo : own noDevice t = some (t.jump 2) := by
    rw [own_brz hbrz, h3, if_neg hw, if_pos rfl]
  have hcode2 : Listing (t.jump 2).ls 0 speCode := hcode
  have hpc6 : (t.jump 2).pc = 6 := by
    rw [State.jump_pc, hpc]
    rfl
  have hsafe : blockSafe 0 10 [.ceq 3 1 0, .ai 0 0 1] = true := by decide
  obtain ⟨u, hu, hu3, hu0, hu2⟩ : ∃ u, runBlock noDevice [.ceq 3 1 0, .ai 0 0 1] (t.jump 2)
      = some u ∧ (u.reg 3).w0 = (if w = n then 0xffffffff else 0)
      ∧ (u.reg 0).w0 = n + 1 ∧ (u.reg 2).w0 = stopMsg := by
    refine ⟨_, rfl, ?_, ?_, ?_⟩
    · show (if (t.reg 1).w0 = (t.reg 0).w0 then _ else _) = _
      rw [h1, h0, h.count]
    · show (t.reg 0).w0 + 1 = n + 1
      rw [h0, h.count]
    · show (t.reg 2).w0 = stopMsg
      rw [h2, h.mask]
  obtain ⟨hupc, huls⟩ := runBlock_frame hsafe hu
  have hucode : Listing u.ls 0 speCode := hcode.congr huls
  rw [hpc6] at hupc
  have hbrnz : decode (u.ls u.pc) = some (.brnz 3 (-6)) := by
    rw [hupc]
    exact hucode 8 _ rfl
  by_cases hn : w = n
  · -- the word is the counter's: back to the read
    have hloop : own noDevice u = some (u.jump (-6)) := by
      rw [own_brnz hbrnz, hu3, if_pos hn, if_neg (by decide)]
    have hread : AtRead (n + 1) (u.jump (-6)) := by
      refine ⟨?_, ?_, hu2, hu0⟩
      · rw [State.jump_pc, hupc]
        rfl
      · rw [State.jump_ls]
        exact hucode
    have hrest : Alone noDevice 1 u (u.jump (-6)) := .step hloop rfl (.rest (own_rdch hread.fetch))
    have hblock : Alone noDevice 3 (t.jump 2) (u.jump (-6)) :=
      settles_block hcode2 rfl hsafe 6 hpc6 ⟨_, rfl⟩ (fun _ _ _ _ _ => rfl) hu hrest
    refine ⟨5, u.jump (-6), .step ht rfl (.step hgo rfl hblock), ?_⟩
    rw [if_pos hn]
    exact hread
  · have hfall : own noDevice u = some u.next := by
      rw [own_brnz hbrnz, hu3, if_neg hn, if_pos rfl]
    have hstop : AtStop 0 u.next := by
      refine ⟨?_⟩
      rw [State.next_ls, State.next_pc, hupc]
      exact hucode 9 _ rfl
    have hrest : Alone noDevice 1 u u.next := .step hfall rfl (.rest (own_stop hstop.fetch))
    have hblock : Alone noDevice 3 (t.jump 2) u.next :=
      settles_block hcode2 rfl hsafe 6 hpc6 ⟨_, rfl⟩ (fun _ _ _ _ _ => rfl) hu hrest
    refine ⟨5, u.next, .step ht rfl (.step hgo rfl hblock), ?_⟩
    rw [if_neg hn]
    exact hstop

/-! ## All words -/

/-- The end of the program on the words, from the read with `n` in the counter. -/
def receive : Word → List Word → Halt
  | _, [] => .blocked
  | n, w :: ws =>
      if w = stopMsg then .stopped 0x1337 ws
      else if w = n then receive (n + 1) ws
      else .stopped 0 ws

theorem AtRead.receive {n : Word} {s : State Unit} (h : AtRead n s) (ws : List Word) :
    ∃ fuel, feed 29 fuel s ws = some (receive n ws) := by
  induction ws generalizing n s with
  | nil => exact ⟨1, feed_rdch_nil h.fetch⟩
  | cons w ws ih =>
      -- the read, the steps to the next wait, and what follows there
      have hgoes : ∀ {k c r}, Alone noDevice k (readWord w s) c →
          (∃ fuel, feed 29 fuel c ws = some r) → ∃ fuel, feed 29 fuel s (w :: ws) = some r := by
        rintro k c r hk ⟨fuel, hf⟩
        exact ⟨fuel + k + 1, by rw [feed_rdch h.fetch]; exact (feed_alone hk fuel ws).trans hf⟩
      by_cases hw : w = stopMsg
      · obtain ⟨k, c, hk, hc⟩ := turn_stop h
        rw [SpufsMboxReceiver.receive, if_pos hw]
        exact hgoes (hw ▸ hk) ⟨1, feed_stop hc.fetch ws⟩
      · obtain ⟨k, c, hk, hc⟩ := turn_other h hw
        rw [SpufsMboxReceiver.receive, if_neg hw]
        by_cases hn : w = n
        · rw [if_pos hn] at hc ⊢
          exact hgoes hk (ih hc)
        · rw [if_neg hn] at hc ⊢
          exact hgoes hk ⟨1, feed_stop hc.fetch ws⟩

/-- **The program's end is a function of the words it is fed with.** -/
theorem feed_receive (s : State Unit) (ws : List Word) :
    ∃ fuel, feed 29 fuel (s.boot speProgram 0) ws = some (receive 0 ws) := by
  obtain ⟨k, c, hk, hc⟩ := boot_settles s
  obtain ⟨fuel, hf⟩ := hc.receive ws
  exact ⟨fuel + k, (feed_alone hk fuel ws).trans hf⟩

/-- The words `n`, `n + 1`, … of a stream. -/
def counting (n k : Nat) : List Word := (List.range' n k).map (BitVec.ofNat 32)

theorem counting_succ (n k : Nat) :
    counting n (k + 1) = BitVec.ofNat 32 n :: counting (n + 1) k := by
  rw [counting, List.range'_succ, List.map_cons, counting]

theorem length_counting (n k : Nat) : (counting n k).length = k := by
  rw [counting, List.length_map, List.length_range']

/-- A counter below the stop message's value is no stop message. -/
theorem ofNat_ne_stopMsg {n : Nat} (hn : n + 1 < 2 ^ 32) : BitVec.ofNat 32 n ≠ stopMsg := by
  intro h
  have hval := congrArg BitVec.toNat h
  rw [BitVec.toNat_ofNat, Nat.mod_eq_of_lt (by omega)] at hval
  have hmax : stopMsg.toNat = 2 ^ 32 - 1 := rfl
  omega

/-- The words that count on from the counter are read, one by one. -/
theorem receive_counting {n k : Nat} (hk : n + k < 2 ^ 32) (ws : List Word) :
    receive (BitVec.ofNat 32 n) (counting n k ++ ws) = receive (BitVec.ofNat 32 (n + k)) ws := by
  induction k generalizing n with
  | zero => rfl
  | succ k ih =>
      have hnext : BitVec.ofNat 32 n + 1 = BitVec.ofNat 32 (n + 1) := (BitVec.ofNat_add ..).symm
      rw [counting_succ, List.cons_append, receive, if_neg (ofNat_ne_stopMsg (by omega)),
        if_pos rfl, hnext, ih (by omega), Nat.add_right_comm]
      rfl

/-- What follows the words that count up: nothing, the stop message, or a word that
    is not the counter's. -/
theorem counting_split {n : Nat} (hn : n < 2 ^ 32) (ws : List Word) :
    ∃ k, n + k < 2 ^ 32 ∧ (ws = counting n k
      ∨ ∃ v rest, ws = counting n k ++ v :: rest
        ∧ (v = stopMsg ∨ v ≠ BitVec.ofNat 32 (n + k) ∧ v ≠ stopMsg)) := by
  induction ws generalizing n with
  | nil => exact ⟨0, hn, .inl rfl⟩
  | cons w ws ih =>
      by_cases hw : w = stopMsg
      · exact ⟨0, hn, .inr ⟨w, ws, rfl, .inl hw⟩⟩
      · by_cases hwn : w = BitVec.ofNat 32 n
        · have hlt : n + 1 < 2 ^ 32 := by
            by_contra hge
            have hmax : n = 2 ^ 32 - 1 := by omega
            exact hw (hwn.trans (by rw [hmax]; rfl))
          obtain ⟨k, hk, hws⟩ := ih hlt
          refine ⟨k + 1, by omega, ?_⟩
          rw [counting_succ, ← hwn]
          rcases hws with hws | ⟨v, rest, hws, hv⟩
          · exact .inl (congrArg _ hws)
          · rw [Nat.add_right_comm] at hv
            exact .inr ⟨v, rest, congrArg _ hws, hv⟩
        · exact ⟨0, hn, .inr ⟨w, ws, rfl, .inr ⟨hwn, hw⟩⟩⟩

theorem receive_stopMsg (n : Word) (rest : List Word) :
    receive n (stopMsg :: rest) = .stopped 0x1337 rest := if_pos rfl

theorem receive_wrong {n v : Word} (hn : v ≠ n) (hv : v ≠ stopMsg) (rest : List Word) :
    receive n (v :: rest) = .stopped 0 rest := by
  rw [receive, if_neg hv, if_neg hn]

/-- **The three ends**, by what follows the words that count up. -/
theorem receive_spec {n : Nat} (hn : n < 2 ^ 32) (ws : List Word) :
    ∃ k, n + k < 2 ^ 32
      ∧ ((ws = counting n k ∧ receive (BitVec.ofNat 32 n) ws = .blocked)
        ∨ (∃ rest, ws = counting n k ++ stopMsg :: rest
          ∧ receive (BitVec.ofNat 32 n) ws = .stopped 0x1337 rest)
        ∨ ∃ v rest, v ≠ BitVec.ofNat 32 (n + k) ∧ v ≠ stopMsg
          ∧ ws = counting n k ++ v :: rest
          ∧ receive (BitVec.ofNat 32 n) ws = .stopped 0 rest) := by
  obtain ⟨k, hk, hws⟩ := counting_split hn ws
  refine ⟨k, hk, ?_⟩
  rcases hws with hws | ⟨v, rest, hws, hv | ⟨hvn, hv⟩⟩
  · refine .inl ⟨hws, ?_⟩
    rw [hws, ← List.append_nil (counting n k), receive_counting hk, receive]
  · subst hv
    exact .inr (.inl ⟨rest, hws, by rw [hws, receive_counting hk, receive_stopMsg]⟩)
  · exact .inr (.inr ⟨v, rest, hvn, hv, hws,
      by rw [hws, receive_counting hk, receive_wrong hvn hv]⟩)

/-- The stop code `0x1337` is that of the words that count up and then end with
    the stop message. -/
theorem receive_stops {n : Nat} (hn : n < 2 ^ 32) (ws rest : List Word) :
    receive (BitVec.ofNat 32 n) ws = .stopped 0x1337 rest
      ↔ ∃ k, n + k < 2 ^ 32 ∧ ws = counting n k ++ stopMsg :: rest := by
  constructor
  · intro h
    obtain ⟨k, hk, ⟨-, hr⟩ | ⟨rest', hws, hr⟩ | ⟨v, rest', -, -, -, hr⟩⟩ := receive_spec hn ws
    · exact nomatch hr.symm.trans h
    · cases hr.symm.trans h
      exact ⟨k, hk, hws⟩
    · exact nomatch hr.symm.trans h
  · rintro ⟨k, hk, rfl⟩
    rw [receive_counting hk, receive_stopMsg]

/-- The stop code 0 is that of the words that count up and go on with another one. -/
theorem receive_stops_wrong {n : Nat} (hn : n < 2 ^ 32) (ws rest : List Word) :
    receive (BitVec.ofNat 32 n) ws = .stopped 0 rest
      ↔ ∃ k v, n + k < 2 ^ 32 ∧ v ≠ BitVec.ofNat 32 (n + k) ∧ v ≠ stopMsg
        ∧ ws = counting n k ++ v :: rest := by
  constructor
  · intro h
    obtain ⟨k, hk, ⟨-, hr⟩ | ⟨rest', -, hr⟩ | ⟨v, rest', hvn, hv, hws, hr⟩⟩ := receive_spec hn ws
    · exact nomatch hr.symm.trans h
    · exact nomatch hr.symm.trans h
    · cases hr.symm.trans h
      exact ⟨k, v, hk, hvn, hv, hws⟩
  · rintro ⟨k, v, hk, hvn, hv, rfl⟩
    rw [receive_counting hk, receive_wrong hvn hv]

end SpufsMboxReceiver
