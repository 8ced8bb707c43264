import SpufsTestsuite.MboxReceiverProofs

/-! # The mailbox receiver — its language

    What the receiver does with a finite sequence of words is settled by the
    first word that is not the counter's.  If that is the stop message the
    program stops with `0x1337`, if it is another one with 0, and if there is
    none the program has read everything and waits at the `rdch`.

    The branches of the program are relative and were assembled by hand.  All
    of them lead into the ten words, so that no other word is ever executed. -/

namespace SpufsMboxLanguage

open Spu SpufsMboxReceiver

/-- The tests that run the receiver. -/
inductive Test where
  | mboxMultiple
  | mboxMultipleSched
  deriving DecidableEq, Repr

/-- `spe_program` of `03-mbox-multiple+sched`. -/
def speProgramSched : List Word :=
  [0x32f80002,  -- fsmbi   r2,0xf000
   0x40800000,  -- il      r0,0
   0x01a00e81,  -- rdch    r1,rch29
   0x78008083,  -- ceq     r3,r1,r2
   0x20000103,  -- brz     r3,0x18
   0x00001337,  -- stop    0x1337
   0x78000083,  -- ceq     r3,r1,r0
   0x1c004000,  -- ai      r0,r0,1
   0x217ffd03,  -- brnz    r3,0xc
   0x00000000]  -- stop

/-- `spe_program` of the test. -/
def Test.speProgram : Test → List Word
  | .mboxMultiple => SpufsMboxReceiver.speProgram
  | .mboxMultipleSched => speProgramSched

/-- The two tests run the same words. -/
theorem Test.speProgram_eq (test : Test) : test.speProgram = SpufsMboxReceiver.speProgram := by
  cases test with
  | mboxMultiple => rfl
  | mboxMultipleSched => rfl

/-- A context with the program of the test, about to start at its entry 0. -/
def start (test : Test) (s : State Unit) : State Unit := s.boot test.speProgram 0

/-- On the words the program comes to a `stop` with the code. -/
def Stops (test : Test) (s : State Unit) (ws : List Word) (code : BitVec 14) : Prop :=
  ∃ t rest, Fed 29 (start test s) ws t rest ∧ t.exec = .stop code

/-- The program comes to the `rdch` when no word is left. -/
def Blocks (test : Test) (s : State Unit) (ws : List Word) : Prop :=
  ∃ t, Fed 29 (start test s) ws t [] ∧ t.pc = 2 ∧ decode (t.ls t.pc) = some (.rdch 1 29)

/-! ## The run -/

/-- A state that the program gets to is at the end that `receive` tells. -/
theorem fed_receive {test : Test} {s t : State Unit} {ws rest : List Word} (r : Halt)
    (h : Fed 29 (start test s) ws t rest) (hr : r.At 29 t rest) : r = receive 0 ws := by
  obtain ⟨fuel, hf⟩ := h.feed hr
  obtain ⟨fuel', hf'⟩ := feed_receive s ws
  rw [start, test.speProgram_eq] at hf
  exact feed_unique hf hf'

/-- The program gets to that end. -/
theorem receive_fed (test : Test) (s : State Unit) (ws : List Word) :
    ∃ t rest, Fed 29 (start test s) ws t rest ∧ (receive 0 ws).At 29 t rest := by
  obtain ⟨fuel, hf⟩ := feed_receive s ws
  rw [start, test.speProgram_eq]
  exact feed_fed hf

/-- The program is inside its words wherever it gets to. -/
theorem start_inside {test : Test} {s t : State Unit} {ws rest : List Word}
    (h : Fed 29 (start test s) ws t rest) : Inside test.speProgram t := by
  rw [start, test.speProgram_eq] at h
  rw [test.speProgram_eq]
  exact h.inside speProgram_decode (by decide) (boot_inside (by decide) (by decide) s)

theorem stops_iff {test : Test} {s : State Unit} {ws : List Word} {code : BitVec 14} :
    Stops test s ws code ↔ ∃ rest, receive 0 ws = .stopped code rest := by
  constructor
  · rintro ⟨t, rest, hrun, hstop⟩
    exact ⟨rest, (fed_receive (.stopped code rest) hrun ⟨hstop, rfl⟩).symm⟩
  · rintro ⟨rest, hr⟩
    obtain ⟨t, rest', hrun, hend⟩ := receive_fed test s ws
    rw [hr] at hend
    exact ⟨t, rest', hrun, hend.1⟩

/-- The one read of the program is its third word. -/
theorem read_at {k : Nat} {i : Instr} (hi : speCode[k]? = some i) {s : State Unit}
    {f : Word → State Unit} (hread : i.exec s = .read 29 f) : k = 2 ∧ i = .rdch 1 29 := by
  obtain ⟨rt, rfl⟩ : ∃ rt, i = .rdch rt 29 := by
    cases i with
    | rdch rt ca => exact ⟨rt, by rw [(Effect.read.inj hread).1]⟩
    | _ => exact nomatch hread
  match k, hi with
  | 2, hi => exact ⟨rfl, (Option.some.inj hi).symm⟩
  | 0, hi | 1, hi | 3, hi | 4, hi | 5, hi | 6, hi | 7, hi | 8, hi | 9, hi => exact nomatch hi

theorem blocks_iff {test : Test} {s : State Unit} {ws : List Word} :
    Blocks test s ws ↔ receive 0 ws = .blocked := by
  constructor
  · rintro ⟨t, hrun, -, hfetch⟩
    exact (fed_receive .blocked hrun ⟨⟨_, State.exec_at hfetch⟩, rfl⟩).symm
  · intro hr
    obtain ⟨t, rest, hrun, hend⟩ := receive_fed test s ws
    rw [hr] at hend
    obtain ⟨⟨f, hread⟩, rfl⟩ := hend
    have hin : Inside SpufsMboxReceiver.speProgram t := test.speProgram_eq ▸ start_inside hrun
    obtain ⟨i, hi, hfetch⟩ := hin.fetch speProgram_decode
    rw [State.exec_at hfetch] at hread
    obtain ⟨hpc, rfl⟩ := read_at hi hread
    exact ⟨t, hrun, BitVec.eq_of_toNat_eq hpc, hfetch⟩

/-! ## The language -/

/-- Words whose `k`th is `v`, by what is in front of it. -/
theorem counting_at {k : Nat} {v : Word} {ws : List Word} :
    (∃ rest, ws = counting 0 k ++ v :: rest) ↔ ws.take k = counting 0 k ∧ ws[k]? = some v := by
  constructor
  · rintro ⟨rest, rfl⟩
    have hlen := length_counting 0 k
    refine ⟨List.take_left' hlen, ?_⟩
    rw [List.getElem?_append_right (Nat.le_of_eq hlen), hlen, Nat.sub_self]
    rfl
  · rintro ⟨htake, hat⟩
    obtain ⟨hlt, rfl⟩ := List.getElem?_eq_some_iff.mp hat
    refine ⟨ws.drop (k + 1), ?_⟩
    rw [← htake, ← List.drop_eq_getElem_cons hlt, List.take_append_drop]

/-- **The language of the receiver.**  It stops with `0x1337` on the sequences that
    count up from 0 and then have the stop message, with 0 on those with another
    word there, and on all others it has read every word and waits at the `rdch`;
    what it executes on the way is its own ten words. -/
theorem speProgram_language (test : Test) (s : State Unit) (w : List Word) :
    (Stops test s w 0x1337 ↔ ∃ k, k < 2 ^ 32 ∧ counting 0 k ++ [stopMsg] <+: w)
      ∧ (Stops test s w 0 ↔ ∃ k v, k < 2 ^ 32 ∧ w[k]? = some v ∧ v ≠ BitVec.ofNat 32 k
          ∧ v ≠ stopMsg ∧ w.take k = counting 0 k)
      ∧ (Blocks test s w ↔ ¬ Stops test s w 0x1337 ∧ ¬ Stops test s w 0)
      ∧ ∀ t rest, Fed 29 (start test s) w t rest →
          test.speProgram[t.pc.toNat]? = some (t.ls t.pc) := by
  have h0 : (0 : Nat) < 2 ^ 32 := by decide
  refine ⟨?_, ?_, ?_, fun t rest hrun => (start_inside hrun).word⟩
  · rw [stops_iff]
    constructor
    · rintro ⟨rest, hr⟩
      obtain ⟨k, hk, rfl⟩ := (receive_stops h0 w rest).mp hr
      exact ⟨k, by omega, rest, by rw [List.append_assoc]; rfl⟩
    · rintro ⟨k, hk, rest, rfl⟩
      exact ⟨rest, (receive_stops h0 _ rest).mpr ⟨k, by omega, by rw [List.append_assoc]; rfl⟩⟩
  · rw [stops_iff]
    constructor
    · rintro ⟨rest, hr⟩
      obtain ⟨k, v, hk, hvk, hv, hw⟩ := (receive_stops_wrong h0 w rest).mp hr
      obtain ⟨htake, hat⟩ := counting_at.mp ⟨rest, hw⟩
      rw [Nat.zero_add] at hk hvk
      exact ⟨k, v, hk, hat, hvk, hv, htake⟩
    · rintro ⟨k, v, hk, hat, hvk, hv, htake⟩
      obtain ⟨rest, hw⟩ := counting_at.mpr ⟨htake, hat⟩
      refine ⟨rest, (receive_stops_wrong h0 w rest).mpr ⟨k, v, ?_, ?_, hv, hw⟩⟩
      · rwa [Nat.zero_add]
      · rwa [Nat.zero_add]
  · rw [blocks_iff, stops_iff, stops_iff]
    constructor
    · intro hr
      rw [hr]
      exact ⟨fun ⟨_, h⟩ => (nomatch h), fun ⟨_, h⟩ => (nomatch h)⟩
    · rintro ⟨hstop, hwrong⟩
      obtain ⟨-, -, ⟨-, hr⟩ | ⟨rest, -, hr⟩ | ⟨-, rest, -, -, -, hr⟩⟩ := receive_spec h0 w
      · exact hr
      · exact absurd ⟨rest, hr⟩ hstop
      · exact absurd ⟨rest, hr⟩ hwrong

end SpufsMboxLanguage
