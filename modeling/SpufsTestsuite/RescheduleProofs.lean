import SpufsTestsuite.SharedStoreProofs

/-! # 02-reschedule — a register read from a running SPE

    The SPE stores its register 0 to the first quadword and goes round as long as
    what it loads from there is the same.  `main` waits for the word to change,
    reads register 0 of the context, which takes the SPE off the processor for a
    moment, and sets the word back to zero.  Its calls, this `read` among them, are
    taken to succeed.

    `thread_abort` is set some time after `spu_run` has returned, and may be seen
    from then on. -/

namespace Reschedule

open Spu SharedStore
open Fair (Reached Final Run Enabled)

/-- `spe_program`, behind the quadword that is used for signalling. -/
def speProgram : List Word :=
  [0x00000000, 0x00000000, 0x00000000, 0x00000000,
   0x40800080,  -- il      r0,1
   0x20800000,  -- stqa    r0,0
   0x30800001,  -- lqa     r1,0
   0x78000082,  -- ceq     r2,r1,r0
   0x217fff02,  -- brnz    r2,18 <load>
   0x00001337]  -- stop

def speCode : List Instr :=
  [.il 0 1, .stqa 0 0, .lqa 1 0, .ceq 2 1 0, .brnz 2 0xfffe, .stop 0x1337]

theorem speProgram_decode : (speProgram.drop 4).map decode = speCode.map some := by decide

/-- Where `main` is, from its loop on: it reads `thread_abort`, then the word. -/
inductive Main
  | flag
  | word
  | regs
  | clear
  | join
  | exit (status : Int)

/-- One access of `main`. -/
inductive MainThread (s : Sys Main) : Main → (Addr → Word) → Prop
  | goesOn (h : s.ppe = .flag) : MainThread s .word s.cpu.ls
  | abort (h : s.ppe = .flag) (hrc : s.runRc ≠ none) : MainThread s .regs s.cpu.ls
  | look (h : s.ppe = .word) :
      MainThread s (if s.cpu.ls (place 0) = 0 then .flag else .regs) s.cpu.ls
  | read (h : s.ppe = .regs) :
      MainThread s (if (s.cpu.reg 0).w0 = 1 then .clear else .exit 1) s.cpu.ls
  | write (h : s.ppe = .clear) : MainThread s .join (Function.update s.cpu.ls (place 0) 0)
  | join {rc : Int} (h : s.ppe = .join) (hrc : s.runRc = some rc) :
      MainThread s (.exit (if rc ≠ 0x13370002 then 1 else 0)) s.cpu.ls

abbrev Next : Party → Sys Main → Sys Main → Prop := Step MainThread

/-- The word has been set back. -/
def Main.Cleared : Main → Prop
  | .flag | .word | .regs | .clear => False
  | .join | .exit _ => True

/-- Nothing has been stored yet, and `main` goes round. -/
structure Before (s : Sys Main) : Prop where
  code : Listing s.cpu.ls 4 speCode
  pc   : s.cpu.pc = 4 ∨ (s.cpu.pc = 5 ∧ s.cpu.reg 0 = .splat 1)
  runs : s.runRc = none
  zero : s.cpu.ls (place 0) = 0
  main : s.ppe = .flag ∨ s.ppe = .word

/-- Where the SPE is once it has stored the register: what it has loaded, or
    compared, tells whether the word has been set back. -/
inductive Loops (s : Sys Main) : Prop
  | load (pc : s.cpu.pc = 6) (runs : s.runRc = none)
  | same (pc : s.cpu.pc = 7) (runs : s.runRc = none) (w : (s.cpu.reg 1).w0 = 1)
  | other (pc : s.cpu.pc = 7) (runs : s.runRc = none) (w : (s.cpu.reg 1).w0 = 0)
      (h : s.ppe.Cleared)
  | again (pc : s.cpu.pc = 8) (runs : s.runRc = none) (w : (s.cpu.reg 2).w0 = 0xffffffff)
  | leave (pc : s.cpu.pc = 8) (runs : s.runRc = none) (w : (s.cpu.reg 2).w0 = 0)
      (h : s.ppe.Cleared)
  | stop (pc : s.cpu.pc = 9) (runs : s.runRc = none) (h : s.ppe.Cleared)
  | stopped (pc : s.cpu.pc = 9) (rc : s.runRc = some 0x13370002) (h : s.ppe.Cleared)

structure After (s : Sys Main) : Prop where
  code  : Listing s.cpu.ls 4 speCode
  loops : Loops s
  reg   : (s.cpu.reg 0).w0 = 1
  full  : ¬ s.ppe.Cleared → s.cpu.ls (place 0) = 1
  zero  : s.ppe.Cleared → s.cpu.ls (place 0) = 0
  exit  : ∀ status, s.ppe = .exit status → status = 0 ∧ s.runRc = some 0x13370002

section Steps

variable {s t : Sys Main}

theorem Before.spe_cases (h : Before s) (hst : Next .spe s t) :
    (s.cpu.pc = 4 ∧ t = { s with cpu := (s.cpu.put 0 (.splat 1)).next }) ∨
      (s.cpu.pc = 5 ∧ s.cpu.reg 0 = .splat 1 ∧
        t = { s with cpu := (s.cpu.store 0 (.splat 1)).next }) := by
  rcases h.pc with hpc | ⟨hpc, hreg⟩
  · obtain ⟨-, ⟨c, hc, rfl⟩ | ⟨code, hc, -⟩⟩ := hst.spe_at (fetch h.code 0 hpc rfl)
    · exact .inl ⟨hpc, by rw [← Effect.next.inj hc]; rfl⟩
    · cases hc
  · obtain ⟨-, ⟨c, hc, rfl⟩ | ⟨code, hc, -⟩⟩ := hst.spe_at (fetch h.code 1 hpc rfl)
    · exact .inr ⟨hpc, hreg, by rw [← Effect.next.inj hc, hreg]⟩
    · cases hc

/-- The register is stored while `main` is still waiting. -/
theorem Before.spe (h : Before s) (hst : Next .spe s t) : Before t ∨ After t := by
  rcases h.spe_cases hst with ⟨hpc, rfl⟩ | ⟨hpc, hreg, rfl⟩
  · refine .inl ⟨h.code, .inr ⟨?_, rfl⟩, h.runs, h.zero, h.main⟩
    show s.cpu.pc + 1 = 5
    rw [hpc]
    rfl
  · have hnot : ¬ s.ppe.Cleared := by
      rcases h.main with hm | hm <;> rw [hm] <;> exact id
    refine .inr ⟨listing_behind h.code (by decide) (fun a ha => store_other _ _ ha),
      .load ?_ h.runs, ?_, fun _ => ?_, fun hcl => absurd hcl hnot, fun status hexit => ?_⟩
    · show s.cpu.pc + 1 = 6
      rw [hpc]
      rfl
    · show (s.cpu.reg 0).w0 = 1
      rw [hreg]
      rfl
    · show (s.cpu.store 0 (.splat 1)).ls (place 0) = 1
      rw [store_place, splat_word]
    · rcases h.main with hm | hm <;> cases hm.symm.trans hexit

theorem Before.ppe (h : Before s) (hst : Next .ppe s t) : Before t := by
  cases hst with
  | access ha =>
      cases ha with
      | goesOn hm => exact ⟨h.code, h.pc, h.runs, h.zero, .inr rfl⟩
      | abort hm hrc => exact absurd h.runs hrc
      | look hm => exact ⟨h.code, h.pc, h.runs, h.zero, .inl (if_pos h.zero)⟩
      | read hm => rcases h.main with hm' | hm' <;> cases hm.symm.trans hm'
      | write hm => rcases h.main with hm' | hm' <;> cases hm.symm.trans hm'
      | join hm hrc => rcases h.main with hm' | hm' <;> cases hm.symm.trans hm'

/-- What the SPE does once it has stored: it loads, compares, goes back, leaves or
    stops. -/
theorem After.spe_cases (h : After s) (hst : Next .spe s t) : s.runRc = none ∧
    ((s.cpu.pc = 6 ∧ t = { s with cpu := (s.cpu.put 1 (s.cpu.load 0)).next }) ∨
      (s.cpu.pc = 7 ∧ ((s.cpu.reg 1).w0 = 1 ∨ ((s.cpu.reg 1).w0 = 0 ∧ s.ppe.Cleared)) ∧
        t = { s with cpu := (s.cpu.put 2 ((s.cpu.reg 1).ceq (s.cpu.reg 0))).next }) ∨
      (s.cpu.pc = 8 ∧ (s.cpu.reg 2).w0 = 0xffffffff ∧
        ∃ c, c.pc = 6 ∧ c.ls = s.cpu.ls ∧ c.reg = s.cpu.reg ∧ t = { s with cpu := c }) ∨
      (s.cpu.pc = 8 ∧ (s.cpu.reg 2).w0 = 0 ∧ s.ppe.Cleared ∧ t = { s with cpu := s.cpu.next }) ∨
      (s.cpu.pc = 9 ∧ s.ppe.Cleared ∧ t = { s with runRc := some 0x13370002 })) := by
  have compare (hpc : s.cpu.pc = 7) :
      t = { s with cpu := (s.cpu.put 2 ((s.cpu.reg 1).ceq (s.cpu.reg 0))).next } := by
    obtain ⟨-, ⟨c, hc, rfl⟩ | ⟨code, hc, -⟩⟩ := hst.spe_at (fetch h.code 3 hpc rfl)
    · rw [← Effect.next.inj hc]
    · cases hc
  cases h.loops with
  | load hpc hrun =>
      obtain ⟨-, ⟨c, hc, rfl⟩ | ⟨code, hc, -⟩⟩ := hst.spe_at (fetch h.code 2 hpc rfl)
      · exact ⟨hrun, .inl ⟨hpc, by rw [← Effect.next.inj hc]⟩⟩
      · cases hc
  | same hpc hrun hw => exact ⟨hrun, .inr (.inl ⟨hpc, .inl hw, compare hpc⟩)⟩
  | other hpc hrun hw hcl => exact ⟨hrun, .inr (.inl ⟨hpc, .inr ⟨hw, hcl⟩, compare hpc⟩)⟩
  | again hpc hrun hw =>
      obtain ⟨-, ⟨c, hc, rfl⟩ | ⟨code, hc, -⟩⟩ := hst.spe_at (fetch h.code 4 hpc rfl)
      · have hne : (s.cpu.reg 2).w0 ≠ 0 := by
          rw [hw]
          decide
        obtain rfl : s.cpu.jump 0xfffe = c := (if_neg hne).symm.trans (Effect.next.inj hc)
        have hpc' : (s.cpu.jump 0xfffe).pc = 6 := by
          rw [State.jump_pc, hpc]
          decide
        exact ⟨hrun, .inr (.inr (.inl ⟨hpc, hw, _, hpc', State.jump_ls 0xfffe s.cpu,
          jump_reg 0xfffe s.cpu, rfl⟩))⟩
      · cases hc
  | leave hpc hrun hw hcl =>
      obtain ⟨-, ⟨c, hc, rfl⟩ | ⟨code, hc, -⟩⟩ := hst.spe_at (fetch h.code 4 hpc rfl)
      · have hnext : s.cpu.next = c := (if_pos hw).symm.trans (Effect.next.inj hc)
        exact ⟨hrun, .inr (.inr (.inr (.inl ⟨hpc, hw, hcl, by rw [hnext]⟩)))⟩
      · cases hc
  | stop hpc hrun hcl =>
      obtain ⟨-, ⟨c, hc, -⟩ | ⟨code, hc, rfl⟩⟩ := hst.spe_at (fetch h.code 5 hpc rfl)
      · cases hc
      · cases hc
        exact ⟨hrun, .inr (.inr (.inr (.inr ⟨hpc, hcl, rfl⟩)))⟩
  | stopped hpc hrc hcl =>
      cases hst with
      | exec hrun _ => cases hrc.symm.trans hrun
      | stop hrun _ => cases hrc.symm.trans hrun

/-- `ceq`, in the preferred slot. -/
theorem ceq_w0 (q r : Quad) : (q.ceq r).w0 = if q.w0 = r.w0 then 0xffffffff else 0 := rfl

/-- The SPE goes round, until it has loaded the zero. -/
theorem After.spe (h : After s) (hst : Next .spe s t) : After t := by
  obtain ⟨hrun, ⟨hpc, rfl⟩ | ⟨hpc, hw, rfl⟩ | ⟨hpc, hw, c, hpc', hls, hreg, rfl⟩ |
    ⟨hpc, hw, hcl, rfl⟩ | ⟨hpc, hcl, rfl⟩⟩ := h.spe_cases hst
  · have hpc' : s.cpu.pc + 1 = 7 := by
      rw [hpc]
      rfl
    have hexit : ∀ status, s.ppe = .exit status → status = 0 ∧ s.runRc = some 0x13370002 := h.exit
    refine ⟨h.code, ?_, h.reg, h.full, h.zero, hexit⟩
    by_cases hcl : s.ppe.Cleared
    · exact .other hpc' hrun (h.zero hcl) hcl
    · exact .same hpc' hrun (h.full hcl)
  · have hpc' : s.cpu.pc + 1 = 8 := by
      rw [hpc]
      rfl
    refine ⟨h.code, ?_, h.reg, h.full, h.zero, h.exit⟩
    rcases hw with hw | ⟨hw, hcl⟩
    · refine .again hpc' hrun ?_
      show ((s.cpu.reg 1).ceq (s.cpu.reg 0)).w0 = _
      rw [ceq_w0, hw, h.reg, if_pos rfl]
    · refine .leave hpc' hrun ?_ hcl
      show ((s.cpu.reg 1).ceq (s.cpu.reg 0)).w0 = _
      rw [ceq_w0, hw, h.reg, if_neg (by decide)]
  · exact ⟨hls ▸ h.code, .load hpc' hrun, hreg ▸ h.reg, fun hcl => hls ▸ h.full hcl,
      fun hcl => hls ▸ h.zero hcl, h.exit⟩
  · have hpc' : s.cpu.pc + 1 = 9 := by
      rw [hpc]
      rfl
    exact ⟨h.code, .stop hpc' hrun hcl, h.reg, h.full, h.zero, h.exit⟩
  · refine ⟨h.code, .stopped hpc rfl hcl, h.reg, h.full, h.zero, fun status hexit => ?_⟩
    exact ⟨(h.exit status hexit).1, rfl⟩

/-- The SPE does not see what has not been set back. -/
theorem Loops.mono {p : Main} {ls : Addr → Word} (h : Loops s) (hcl : s.ppe.Cleared → p.Cleared) :
    Loops { s with ppe := p, cpu := { s.cpu with ls := ls } } := by
  cases h with
  | load hpc hrun => exact .load hpc hrun
  | same hpc hrun hw => exact .same hpc hrun hw
  | other hpc hrun hw h => exact .other hpc hrun hw (hcl h)
  | again hpc hrun hw => exact .again hpc hrun hw
  | leave hpc hrun hw h => exact .leave hpc hrun hw (hcl h)
  | stop hpc hrun h => exact .stop hpc hrun (hcl h)
  | stopped hpc hrc h => exact .stopped hpc hrc (hcl h)

/-- `spu_run` returns one value only. -/
theorem After.rc_eq (h : After s) {rc : Int} (hrc : s.runRc = some rc) : rc = 0x13370002 := by
  cases h.loops with
  | stopped _ hrc' _ => exact Option.some.inj (hrc.symm.trans hrc')
  | load _ hrun | same _ hrun _ | other _ hrun _ _ | again _ hrun _ | leave _ hrun _ _
  | stop _ hrun _ => cases hrun.symm.trans hrc

/-- `spu_run` does not return before the word is set back. -/
theorem After.runs (h : After s) (hcl : ¬ s.ppe.Cleared) : s.runRc = none := by
  cases h.loops with
  | load _ hrun | same _ hrun _ | again _ hrun _ => exact hrun
  | other _ _ _ h | leave _ _ _ h | stop _ _ h | stopped _ _ h => exact absurd h hcl

/-- `main` finds the register as it was stored. -/
theorem After.ppe (h : After s) (hst : Next .ppe s t) : After t := by
  have hfull := h.full
  have hzero := h.zero
  cases hst with
  | access ha =>
      cases ha with
      | goesOn hm =>
          rw [hm] at hfull hzero
          exact ⟨h.code, h.loops.mono (by rw [hm]; exact id), h.reg, hfull, hzero,
            fun status hexit => by cases hexit⟩
      | abort hm hrc =>
          -- the word is not set back yet, so that `spu_run` has not returned
          exact absurd (h.runs (by rw [hm]; exact id)) hrc
      | look hm =>
          rw [hm] at hfull hzero
          have hone : s.cpu.ls (place 0) ≠ 0 := by
            rw [hfull id]
            decide
          rw [if_neg hone]
          exact ⟨h.code, h.loops.mono (by rw [hm]; exact id), h.reg, hfull, hzero,
            fun status hexit => by cases hexit⟩
      | read hm =>
          rw [hm] at hfull hzero
          rw [if_pos h.reg]
          exact ⟨h.code, h.loops.mono (by rw [hm]; exact id), h.reg, hfull, hzero,
            fun status hexit => by cases hexit⟩
      | write hm =>
          refine ⟨listing_behind h.code (by decide) (fun a ha => update_other ha),
            h.loops.mono (fun _ => trivial), h.reg, fun hcl => absurd trivial hcl,
            fun _ => ?_, fun status hexit => by cases hexit⟩
          show Function.update s.cpu.ls (place 0) 0 (place 0) = 0
          rw [update_place, if_pos rfl]
      | join hm hrc =>
          rw [hm] at hzero
          have hok := h.rc_eq hrc
          refine ⟨h.code, h.loops.mono (fun _ => trivial), h.reg, fun hcl => absurd trivial hcl,
            fun _ => hzero trivial, ?_⟩
          rintro status ⟨rfl⟩
          exact ⟨if_neg (not_not.mpr hok), hok ▸ hrc⟩

end Steps

/-! ## Every fair run ends -/

/-- How far it is to the end once the register is stored: first for `main`, and
    then for the SPE, which may have loaded the word before it was set back. -/
def rest (s : Sys Main) : Nat :=
  match s.ppe with
  | .flag => 25
  | .word => 24
  | .regs => 23
  | .clear => 22
  | .exit _ => 0
  | .join =>
      if s.runRc ≠ none then 1
      else if s.cpu.pc = 9 then 2
      else if s.cpu.pc = 6 then 5
      else if s.cpu.pc = 8 then if (s.cpu.reg 2).w0 = 0 then 3 else 6
      else if (s.cpu.reg 1).w0 = 0 then 4 else 7

def rank (s : Sys Main) : Nat :=
  if s.cpu.pc = 4 then 102 else if s.cpu.pc = 5 then 101 else rest s

/-- `main` does not wait for the SPE's thread. -/
def Busy (s : Sys Main) : Prop :=
  (∀ status, s.ppe ≠ .exit status) ∧ (s.ppe = .join → s.runRc ≠ none)

/-- `main` has returned. -/
def Ended (s : Sys Main) : Prop := ∃ status, s.ppe = .exit status ∧ s.runRc ≠ none

section Measure

variable {s t : Sys Main}

theorem Before.spe_down (h : Before s) (hst : Next .spe s t) : rank t < rank s := by
  rcases h.spe_cases hst with ⟨hpc, rfl⟩ | ⟨hpc, -, rfl⟩
  · simp [rank, hpc]
  · have hrest : ∀ u : Sys Main, u.ppe = s.ppe → rest u < 101 := by
      intro u hu
      rw [rest, hu]
      rcases h.main with hm | hm <;> simp [hm]
    have hrank := hrest { s with cpu := (s.cpu.store 0 (.splat 1)).next } rfl
    simp only [rank, State.next_pc]
    show (if s.cpu.pc + 1 = 4 then _ else if s.cpu.pc + 1 = 5 then _ else _) < _
    rw [hpc]
    simpa using hrank

theorem Before.ppe_stays (h : Before s) (hst : Next .ppe s t) : rank t = rank s := by
  cases hst with
  | access ha =>
      rcases h.pc with hpc | ⟨hpc, -⟩
      · simp [rank, hpc]
      · simp [rank, hpc]

theorem After.pc_ne (h : After s) : s.cpu.pc ≠ 4 ∧ s.cpu.pc ≠ 5 := by
  have hpc : s.cpu.pc = 6 ∨ s.cpu.pc = 7 ∨ s.cpu.pc = 8 ∨ s.cpu.pc = 9 := by
    cases h.loops with
    | load hpc _ => exact .inl hpc
    | same hpc _ _ | other hpc _ _ _ => exact .inr (.inl hpc)
    | again hpc _ _ | leave hpc _ _ _ => exact .inr (.inr (.inl hpc))
    | stop hpc _ _ | stopped hpc _ _ => exact .inr (.inr (.inr hpc))
  rcases hpc with hpc | hpc | hpc | hpc <;> rw [hpc] <;> decide

theorem After.rank_eq (h : After s) : rank s = rest s := by
  rw [rank, if_neg h.pc_ne.1, if_neg h.pc_ne.2]

/-- Every access of `main` brings it nearer to its end. -/
theorem After.ppe_down (hs : After s) (hst : Next .ppe s t) : rank t < rank s := by
  rw [hs.rank_eq, (hs.ppe hst).rank_eq]
  cases hst with
  | access ha =>
      cases ha with
      | goesOn hm => simp [rest, hm]
      | abort hm hrc => simp [rest, hm]
      | look hm =>
          have hone : s.cpu.ls (place 0) ≠ 0 := by
            rw [hs.full (by rw [hm]; exact id)]
            decide
          rw [if_neg hone]
          simp [rest, hm]
      | read hm =>
          rw [if_pos hs.reg]
          simp [rest, hm]
      | write hm =>
          simp only [rest, hm]
          split_ifs <;> omega
      | join hm hrc => simp [rest, hm, hrc]

/-- While `main` is at work it does not matter how often the SPE goes round. -/
theorem After.spe_stays (hs : After s) (hst : Next .spe s t) (hbusy : Busy s) :
    Busy t ∧ rank t = rank s := by
  have hrun : s.runRc = none := (hs.spe_cases hst).1
  have hjoin : s.ppe ≠ .join := fun hm => hbusy.2 hm hrun
  refine ⟨⟨fun status => hst.spe_ppe ▸ hbusy.1 status, fun hm => ?_⟩, ?_⟩
  · exact absurd (hst.spe_ppe.symm.trans hm) hjoin
  · rw [hs.rank_eq, (hs.spe hst).rank_eq, rest, rest, hst.spe_ppe]
    cases h : s.ppe with
    | join => exact absurd h hjoin
    | flag | word | regs | clear | exit _ => rfl

/-- `main` waits for the SPE's thread, with the word set back. -/
theorem not_busy (h : ¬ Busy s) : (∃ status, s.ppe = .exit status) ∨
    (s.ppe = .join ∧ s.runRc = none) := by
  by_cases hexit : ∃ status, s.ppe = .exit status
  · exact .inl hexit
  · refine .inr (by_contra fun hno => h ⟨fun status hm => hexit ⟨status, hm⟩, fun hm hrun => ?_⟩)
    exact hno ⟨hm, hrun⟩

/-- Once the word is set back the SPE goes round at most once more. -/
theorem After.spe_down (hs : After s) (hst : Next .spe s t) (hidle : ¬ Busy s) :
    rank t < rank s := by
  rw [hs.rank_eq, (hs.spe hst).rank_eq]
  have hrun' : s.runRc = none := (hs.spe_cases hst).1
  have hjoin : s.ppe = .join := by
    rcases not_busy hidle with ⟨status, hexit⟩ | ⟨hm, -⟩
    · cases hrun'.symm.trans (hs.exit status hexit).2
    · exact hm
  have hzero : s.cpu.ls (place 0) = 0 := hs.zero (by rw [hjoin]; trivial)
  obtain ⟨hrun, ⟨hpc, rfl⟩ | ⟨hpc, hw, rfl⟩ | ⟨hpc, hw, c, hpc', hls, hreg, rfl⟩ |
    ⟨hpc, hw, hcl, rfl⟩ | ⟨hpc, hcl, rfl⟩⟩ := hs.spe_cases hst
  · have hw : ((s.cpu.put 1#7 (s.cpu.load 0#16)).next.reg 1#7).w0 = 0#32 := hzero
    simp [rest, hjoin, hrun, hpc, hw]
  · have hceq : ((s.cpu.put 2#7 ((s.cpu.reg 1#7).ceq (s.cpu.reg 0#7))).next.reg 2#7).w0
        = if (s.cpu.reg 1#7).w0 = 1#32 then 0xffffffff else 0 := by
      show ((s.cpu.reg 1).ceq (s.cpu.reg 0)).w0 = _
      rw [ceq_w0, hs.reg]
      rfl
    rcases hw with hw | ⟨hw, -⟩
    · have hw' : (s.cpu.reg 1#7).w0 = 1#32 := hw
      simp [rest, hjoin, hrun, hpc, hceq, hw']
    · have hw' : (s.cpu.reg 1#7).w0 = 0#32 := hw
      simp [rest, hjoin, hrun, hpc, hceq, hw']
  · have hne : (s.cpu.reg 2#7).w0 ≠ 0#32 := by
      have hw' : (s.cpu.reg 2#7).w0 = 0xffffffff := hw
      rw [hw']
      decide
    simp [rest, hjoin, hrun, hpc, hpc', hne]
  · have hw' : (s.cpu.reg 2#7).w0 = 0#32 := hw
    simp [rest, hjoin, hrun, hpc, hw']
  · simp [rest, hjoin, hrun, hpc]

/-- Nobody has a step once `main` has returned. -/
theorem Ended.final (h : Ended s) : Final Next s := by
  obtain ⟨status, hm, hrc⟩ := h
  rintro i ⟨t, ht⟩
  cases ht with
  | exec hrun _ => exact hrc hrun
  | stop hrun _ => exact hrc hrun
  | access ha =>
      cases ha with
      | goesOn hp | abort hp _ | look hp | read hp | write hp | join hp _ =>
          cases hm.symm.trans hp

theorem Before.spe_enabled (h : Before s) : Enabled Next .spe s := by
  rcases h.pc with hpc | ⟨hpc, -⟩
  · exact ⟨_, .exec h.runs (State.exec_at (fetch h.code 0 hpc rfl))⟩
  · exact ⟨_, .exec h.runs (State.exec_at (fetch h.code 1 hpc rfl))⟩

theorem After.spe_enabled (h : After s) (hrun : s.runRc = none) : Enabled Next .spe s := by
  cases h.loops with
  | load hpc _ => exact ⟨_, .exec hrun (State.exec_at (fetch h.code 2 hpc rfl))⟩
  | same hpc _ _ => exact ⟨_, .exec hrun (State.exec_at (fetch h.code 3 hpc rfl))⟩
  | other hpc _ _ _ => exact ⟨_, .exec hrun (State.exec_at (fetch h.code 3 hpc rfl))⟩
  | again hpc _ _ => exact ⟨_, .exec hrun (State.exec_at (fetch h.code 4 hpc rfl))⟩
  | leave hpc _ _ _ => exact ⟨_, .exec hrun (State.exec_at (fetch h.code 4 hpc rfl))⟩
  | stop hpc _ _ => exact ⟨_, .stop hrun (State.exec_at (fetch h.code 5 hpc rfl))⟩
  | stopped _ hrc _ => cases hrun.symm.trans hrc

theorem main_enabled (h : Busy s) : Enabled Next .ppe s := by
  cases hm : s.ppe with
  | flag => exact ⟨_, .access (.goesOn hm)⟩
  | word => exact ⟨_, .access (.look hm)⟩
  | regs => exact ⟨_, .access (.read hm)⟩
  | clear => exact ⟨_, .access (.write hm)⟩
  | join =>
      obtain ⟨rc, hrc⟩ := Option.ne_none_iff_exists'.mp (h.2 hm)
      exact ⟨_, .access (.join hm hrc)⟩
  | exit status => exact absurd hm (h.1 status)

theorem After.last (h : After s) (hidle : ¬ Busy s) : Ended s ∨ Enabled Next .spe s := by
  rcases not_busy hidle with ⟨status, hm⟩ | ⟨-, hrun⟩
  · refine .inl ⟨status, hm, ?_⟩
    rw [(h.exit status hm).2]
    exact Option.some_ne_none _
  · exact .inr (h.spe_enabled hrun)

/-- The SPE stores, `main` sees the word and sets it back, and the SPE stops. -/
theorem relay : Relay MainThread Before After Busy Ended rank where
  first := fun _ h => h.spe_enabled
  spe := fun _ _ h hst => ⟨h.spe hst, h.spe_down hst⟩
  waits := fun _ _ h hst => ⟨h.ppe hst, h.ppe_stays hst⟩
  second := fun _ _ hbusy => main_enabled hbusy
  ppe := fun _ _ h hst => ⟨h.ppe hst, h.ppe_down hst⟩
  goesOn := fun _ _ h hbusy hst => ⟨h.spe hst, h.spe_stays hst hbusy⟩
  last := fun _ h hidle => h.last hidle
  comesIn := fun _ _ h hidle hst => ⟨h.spe hst, h.spe_down hst hidle⟩
  final := fun _ h => h.final

end Measure

/-- The program is loaded, its thread started, and `main` comes to its loop. -/
def start (s : State Unit) : Sys Main := ⟨s.boot speProgram 16, none, .flag⟩

theorem start_before (s : State Unit) : Before (start s) := by
  have hlen : speProgram.length ≤ 2 ^ 16 := by decide
  exact ⟨(boot_loaded hlen 16 s).listing speProgram_decode, .inl rfl, rfl, rfl, .inl rfl⟩

/-- **Reading a register of a running SPE**: in whatever order the two take their
    steps, the register is read as 1 and the SPE does not stop before the word is
    set back; no fair run goes on for ever, and where one ends `main` has
    succeeded. -/
theorem reschedule_passes (s : State Unit) :
    (∀ r : Run Next, r.state 0 = start s → ¬ r.IsFair) ∧
      ∀ t, Reached Next (start s) t →
        (t.ppe = .regs → (t.cpu.reg 0).w0 = 1 ∧ t.runRc = none) ∧
        (∀ rc, t.runRc = some rc → rc = 0x13370002 ∧ t.cpu.ls (place 0) = 0) ∧
        (∀ status, t.ppe = .exit status → status = 0) ∧
        (Final Next t → t.ppe = .exit 0) := by
  have hstart := start_before s
  refine ⟨fun r hr => relay.measure.not_fair r (hr ▸ .inl hstart), fun t ht => ?_⟩
  obtain hb | ha := relay.measure.reached (.inl hstart) ht
  · have hmain : t.ppe = .flag ∨ t.ppe = .word := hb.main
    refine ⟨fun hm => ?_, fun rc hrc => ?_, fun status hm => ?_, fun hfin => ?_⟩
    · rcases hmain with hm' | hm' <;> cases hm'.symm.trans hm
    · cases hb.runs.symm.trans hrc
    · rcases hmain with hm' | hm' <;> cases hm'.symm.trans hm
    · exact absurd hb.spe_enabled (hfin .spe)
  · refine ⟨fun hm => ⟨ha.reg, ha.runs (by rw [hm]; exact id)⟩, fun rc hrc => ?_,
      fun status hm => (ha.exit status hm).1, fun hfin => ?_⟩
    · have hcl : t.ppe.Cleared := by_contra fun hno => by cases (ha.runs hno).symm.trans hrc
      exact ⟨ha.rc_eq hrc, ha.zero hcl⟩
    · have hidle : ¬ Busy t := fun hbusy => hfin .ppe (main_enabled hbusy)
      obtain ⟨status, hm, -⟩ := (ha.last hidle).resolve_right (hfin .spe)
      rw [hm, (ha.exit status hm).1]

end Reschedule
