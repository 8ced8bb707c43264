import SpufsTestsuite.SharedStoreProofs

/-! # 04-ppe-running — reading and writing the local store of a running SPE

    The SPE fills the first quadword with ones and goes round until its first word
    is zero.  The thread of the PPE waits until it has seen ones in all four
    words, and then clears them one by one.

    Whatever the order of the steps, the SPE does not stop before the word has
    been cleared, and every fair run ends with the test passed. -/

namespace PpeRunning

open Spu SharedStore
open Fair (Reached Final Run Enabled)

/-- `spe_app` -/
def speApp : List Word :=
  [0x40ffff83,  -- il      $3,-1
   0x20800003,  -- stqa    $3,0
   0x30800003,  -- lqa     $3,0
   0x217fff83,  -- brnz    $3,(. - 4)
   0x00001337]  -- stop    0x1337

def speCode : List Instr :=
  [.il 3 0xffff, .stqa 3 0, .lqa 3 0, .brnz 3 0xffff, .stop 0x1337]

theorem speApp_decode : speApp.map decode = speCode.map some := by decide

/-- What the local store holds before the threads start: zeros, and `spe_app`. -/
def image : List Word := [0, 0, 0, 0] ++ speApp

/-- All four words. -/
def allWords : List (Fin 4) := [0, 1, 2, 3]

/-- `ppe_thread`: it reads the words of its condition, which are and-ed, or writes
    zeros.  Neither order is fixed by the language. -/
inductive Ppe
  | scan (todo : List (Fin 4)) (acc : Word)
  | clear (todo : List (Fin 4))
  | done

def ones : Word := 0xffffffff

/-- One access of `ppe_thread`. -/
inductive PpeThread (s : Sys Ppe) : Ppe → (Addr → Word) → Prop
  | look {i : Fin 4} {todo : List (Fin 4)} {acc : Word} (h : s.ppe = .scan (i :: todo) acc) :
      PpeThread s (.scan todo (acc &&& s.cpu.ls (place i))) s.cpu.ls
  | again {todo : List (Fin 4)} {acc : Word} (h : s.ppe = .scan [] acc) (hacc : acc ≠ ones)
      (hall : todo.Perm allWords) : PpeThread s (.scan todo ones) s.cpu.ls
  | seen {todo : List (Fin 4)} (h : s.ppe = .scan [] ones) (hall : todo.Perm allWords) :
      PpeThread s (.clear todo) s.cpu.ls
  | write {i : Fin 4} {todo : List (Fin 4)} (h : s.ppe = .clear (i :: todo)) :
      PpeThread s (.clear todo) (Function.update s.cpu.ls (place i) 0)
  | finish (h : s.ppe = .clear []) : PpeThread s .done s.cpu.ls

abbrev Next : Party → Sys Ppe → Sys Ppe → Prop := Step PpeThread

/-- The checks of `main` on what `spu_run` returns. -/
def exitStatus (rc : Int32) : Int :=
  if rc < 0 then 1
  else if rc &&& 0x2 = 0 then 1
  else if rc >>> 16 ≠ 0x1337 then 1
  else 0

/-- The word has been cleared. -/
def Ppe.Cleared (i : Fin 4) : Ppe → Prop
  | .scan _ _ => False
  | .clear todo => i ∉ todo
  | .done => True

/-- Nothing has been stored yet, and a scan that has begun cannot succeed. -/
structure Before (s : Sys Ppe) : Prop where
  code  : Listing s.cpu.ls 4 speCode
  pc    : s.cpu.pc = 4 ∨ (s.cpu.pc = 5 ∧ s.cpu.reg 3 = .splat ones)
  runs  : s.runRc = none
  zero  : ∀ i, s.cpu.ls (place i) = 0
  scans : ∃ todo acc, s.ppe = .scan todo acc ∧ todo.length ≤ 4 ∧ (acc = ones → todo.length = 4)

/-- Where the SPE is once it has stored the ones. -/
inductive Loops (s : Sys Ppe) : Prop
  | load (pc : s.cpu.pc = 6) (runs : s.runRc = none)
  | again (pc : s.cpu.pc = 7) (runs : s.runRc = none) (w : (s.cpu.reg 3).w0 = ones)
  | leave (pc : s.cpu.pc = 7) (runs : s.runRc = none) (w : (s.cpu.reg 3).w0 = 0)
      (h : s.ppe.Cleared 0)
  | stop (pc : s.cpu.pc = 8) (runs : s.runRc = none) (h : s.ppe.Cleared 0)
  | stopped (pc : s.cpu.pc = 8) (rc : s.runRc = some 0x13370002) (h : s.ppe.Cleared 0)

structure After (s : Sys Ppe) : Prop where
  code  : Listing s.cpu.ls 4 speCode
  loops : Loops s
  full  : ∀ i, ¬ s.ppe.Cleared i → s.cpu.ls (place i) = ones
  zero  : ∀ i, s.ppe.Cleared i → s.cpu.ls (place i) = 0
  order : ∀ todo, s.ppe = .clear todo → todo.Nodup

section Steps

variable {s t : Sys Ppe}

/-- What the SPE does first: it loads the constant, and stores it. -/
theorem Before.spe_cases (h : Before s) (hst : Next .spe s t) :
    (s.cpu.pc = 4 ∧ t = { s with cpu := (s.cpu.put 3 (.splat ones)).next }) ∨
      (s.cpu.pc = 5 ∧ t = { s with cpu := (s.cpu.store 0 (.splat ones)).next }) := by
  rcases h.pc with hpc | ⟨hpc, hreg⟩
  · obtain ⟨-, ⟨c, hc, rfl⟩ | ⟨code, hc, -⟩⟩ := hst.spe_at (fetch h.code 0 hpc rfl)
    · exact .inl ⟨hpc, by rw [← Effect.next.inj hc]; rfl⟩
    · cases hc
  · obtain ⟨-, ⟨c, hc, rfl⟩ | ⟨code, hc, -⟩⟩ := hst.spe_at (fetch h.code 1 hpc rfl)
    · exact .inr ⟨hpc, by rw [← Effect.next.inj hc, hreg]⟩
    · cases hc

/-- The ones are stored while the PPE is still looking. -/
theorem Before.spe (h : Before s) (hst : Next .spe s t) : Before t ∨ After t := by
  obtain ⟨todo, acc, hppe, hlen, hacc⟩ := h.scans
  rcases h.spe_cases hst with ⟨hpc, rfl⟩ | ⟨hpc, rfl⟩
  · refine .inl ⟨h.code, .inr ⟨?_, rfl⟩, h.runs, h.zero, h.scans⟩
    show s.cpu.pc + 1 = 5
    rw [hpc]
    rfl
  · have hnot (i : Fin 4) : ¬ s.ppe.Cleared i := by
      rw [hppe]
      exact id
    refine .inr ⟨listing_behind h.code (by decide) (fun a ha => store_other _ _ ha),
      .load ?_ h.runs, fun i _ => ?_, fun i hi => absurd hi (hnot i), ?_⟩
    · show s.cpu.pc + 1 = 6
      rw [hpc]
      rfl
    · show (s.cpu.store 0 (.splat ones)).ls (place i) = ones
      rw [store_place, splat_word]
    · intro todo' htodo
      rw [hppe] at htodo
      cases htodo

/-- A look at a word that is zero spoils the scan. -/
theorem Before.ppe (h : Before s) (hst : Next .ppe s t) : Before t := by
  obtain ⟨todo, acc, hppe, hlen, hacc⟩ := h.scans
  cases hst with
  | access ha =>
      cases ha with
      | look hlook =>
          rw [hppe] at hlook
          cases hlook
          refine ⟨h.code, h.pc, h.runs, h.zero, _, _, rfl, (Nat.le_succ _).trans hlen, ?_⟩
          intro hones
          rw [h.zero] at hones
          simp [ones] at hones
      | again hagain hne hall =>
          have hlen' : _ = 4 := hall.length_eq
          exact ⟨h.code, h.pc, h.runs, h.zero, _, _, rfl, hlen'.le, fun _ => hlen'⟩
      | seen hseen hall =>
          rw [hppe] at hseen
          cases hseen
          cases hacc rfl
      | write hwrite =>
          rw [hppe] at hwrite
          cases hwrite
      | finish hfinish =>
          rw [hppe] at hfinish
          cases hfinish

/-- What the SPE does once it has stored: it loads, goes back, leaves or stops. -/
theorem After.spe_cases (h : After s) (hst : Next .spe s t) : s.runRc = none ∧
      ((s.cpu.pc = 6 ∧ t = { s with cpu := (s.cpu.put 3 (s.cpu.load 0)).next }) ∨
        (s.cpu.pc = 7 ∧ (s.cpu.reg 3).w0 = ones ∧
          ∃ c, c.pc = 6 ∧ c.ls = s.cpu.ls ∧ t = { s with cpu := c }) ∨
        (s.cpu.pc = 7 ∧ (s.cpu.reg 3).w0 = 0 ∧ s.ppe.Cleared 0 ∧
          t = { s with cpu := s.cpu.next }) ∨
        (s.cpu.pc = 8 ∧ s.ppe.Cleared 0 ∧ t = { s with runRc := some 0x13370002 })) := by
  cases h.loops with
  | load hpc hrun =>
      obtain ⟨-, ⟨c, hc, rfl⟩ | ⟨code, hc, -⟩⟩ := hst.spe_at (fetch h.code 2 hpc rfl)
      · exact ⟨hrun, .inl ⟨hpc, by rw [← Effect.next.inj hc]⟩⟩
      · cases hc
  | again hpc hrun hw =>
      obtain ⟨-, ⟨c, hc, rfl⟩ | ⟨code, hc, -⟩⟩ := hst.spe_at (fetch h.code 3 hpc rfl)
      · have hne : (s.cpu.reg 3).w0 ≠ 0 := by
          rw [hw]
          decide
        obtain rfl : s.cpu.jump 0xffff = c := (if_neg hne).symm.trans (Effect.next.inj hc)
        have hpc' : (s.cpu.jump 0xffff).pc = 6 := by
          rw [State.jump_pc, hpc]
          decide
        exact ⟨hrun, .inr (.inl ⟨hpc, hw, _, hpc', State.jump_ls 0xffff s.cpu, rfl⟩)⟩
      · cases hc
  | leave hpc hrun hw hcl =>
      obtain ⟨-, ⟨c, hc, rfl⟩ | ⟨code, hc, -⟩⟩ := hst.spe_at (fetch h.code 3 hpc rfl)
      · have hnext : s.cpu.next = c := (if_pos hw).symm.trans (Effect.next.inj hc)
        exact ⟨hrun, .inr (.inr (.inl ⟨hpc, hw, hcl, by rw [hnext]⟩))⟩
      · cases hc
  | stop hpc hrun hcl =>
      obtain ⟨-, ⟨c, hc, -⟩ | ⟨code, hc, rfl⟩⟩ := hst.spe_at (fetch h.code 4 hpc rfl)
      · cases hc
      · cases hc
        exact ⟨hrun, .inr (.inr (.inr ⟨hpc, hcl, rfl⟩))⟩
  | stopped hpc hrc hcl =>
      cases hst with
      | exec hrun _ => cases hrc.symm.trans hrun
      | stop hrun _ => cases hrc.symm.trans hrun

/-- The SPE goes round, until it has loaded the zero. -/
theorem After.spe (h : After s) (hst : Next .spe s t) : After t := by
  obtain ⟨hrun, ⟨hpc, rfl⟩ | ⟨hpc, hw, c, hpc', hls, rfl⟩ | ⟨hpc, hw, hcl, rfl⟩ |
    ⟨hpc, hcl, rfl⟩⟩ := h.spe_cases hst
  · have hpc' : s.cpu.pc + 1 = 7 := by
      rw [hpc]
      rfl
    refine ⟨h.code, ?_, h.full, h.zero, h.order⟩
    by_cases hcl : s.ppe.Cleared 0
    · exact .leave hpc' hrun (h.zero 0 hcl) hcl
    · exact .again hpc' hrun (h.full 0 hcl)
  · exact ⟨hls ▸ h.code, .load hpc' hrun, fun i hi => hls ▸ h.full i hi,
      fun i hi => hls ▸ h.zero i hi, h.order⟩
  · have hpc' : s.cpu.pc + 1 = 8 := by
      rw [hpc]
      rfl
    exact ⟨h.code, .stop hpc' hrun hcl, h.full, h.zero, h.order⟩
  · exact ⟨h.code, .stopped hpc rfl hcl, h.full, h.zero, h.order⟩

/-- The SPE does not see what has not been cleared. -/
theorem Loops.mono {p : Ppe} {ls : Addr → Word} (h : Loops s)
    (hcl : s.ppe.Cleared 0 → p.Cleared 0) :
    Loops { s with ppe := p, cpu := { s.cpu with ls := ls } } := by
  cases h with
  | load hpc hrun => exact .load hpc hrun
  | again hpc hrun hw => exact .again hpc hrun hw
  | leave hpc hrun hw h => exact .leave hpc hrun hw (hcl h)
  | stop hpc hrun h => exact .stop hpc hrun (hcl h)
  | stopped hpc hrc h => exact .stopped hpc hrc (hcl h)

/-- The words are cleared one after the other. -/
theorem After.ppe (h : After s) (hst : Next .ppe s t) : After t := by
  have hfull := h.full
  have hzero := h.zero
  cases hst with
  | access ha =>
      cases ha with
      | look hlook =>
          rw [hlook] at hfull hzero
          exact ⟨h.code, h.loops.mono (by rw [hlook]; exact id), hfull, hzero,
            fun todo h => by cases h⟩
      | again hagain hne hall =>
          rw [hagain] at hfull hzero
          exact ⟨h.code, h.loops.mono (by rw [hagain]; exact id), hfull, hzero,
            fun todo h => by cases h⟩
      | @seen todo hseen hall =>
          rw [hseen] at hfull hzero
          have hin (i : Fin 4) : i ∈ todo := hall.mem_iff.mpr (by revert i; decide)
          refine ⟨h.code, h.loops.mono (by rw [hseen]; exact False.elim),
            fun i _ => hfull i id, fun i hi => absurd (hin i) hi, ?_⟩
          rintro todo' ⟨rfl⟩
          exact hall.nodup_iff.mpr (by decide)
      | @write i todo hwrite =>
          have hnd := List.nodup_cons.mp (h.order _ hwrite)
          rw [hwrite] at hfull hzero
          refine ⟨listing_behind h.code (by decide) (fun a ha => update_other ha),
            h.loops.mono ?_, ?_, ?_, ?_⟩
          · rw [hwrite]
            exact fun hno hin => hno (List.mem_cons_of_mem _ hin)
          · intro j hj
            have hj : j ∈ todo := not_not.mp hj
            have hji : j ≠ i := fun heq => hnd.1 (heq ▸ hj)
            refine update_place.trans ((if_neg hji).trans (hfull j ?_))
            exact not_not.mpr (List.mem_cons_of_mem i hj)
          · intro j hj
            refine update_place.trans ?_
            by_cases hji : j = i
            · exact if_pos hji
            · rw [if_neg hji]
              refine hzero j (fun hin => ?_)
              exact (List.mem_cons.mp hin).elim hji hj
          · rintro todo' ⟨rfl⟩
            exact hnd.2
      | finish hfinish =>
          rw [hfinish] at hfull hzero
          exact ⟨h.code, h.loops.mono (fun _ => trivial), fun i hi => absurd trivial hi,
            fun i _ => hzero i List.not_mem_nil, fun todo h => by cases h⟩

end Steps

/-! ## Every fair run ends -/

/-- How far it is to the end once the ones are stored: first for the PPE, and then
    for the SPE. -/
def rest (s : Sys Ppe) : Nat :=
  match s.ppe with
  | .scan todo acc => if acc = ones then 20 + todo.length else 26 + todo.length
  | .clear todo => 10 + todo.length
  | .done =>
      if s.runRc ≠ none then 0
      else if s.cpu.pc = 8 then 1
      else if s.cpu.pc = 6 then 3
      else if (s.cpu.reg 3).w0 = 0 then 2 else 4

def rank (s : Sys Ppe) : Nat :=
  if s.cpu.pc = 4 then 102 else if s.cpu.pc = 5 then 101 else rest s

/-- Both threads are through. -/
structure Ended (s : Sys Ppe) : Prop where
  ppe   : s.ppe = .done
  runRc : s.runRc = some 0x13370002

section Measure

variable {s t : Sys Ppe}

/-- The ones are stored two steps from the start. -/
theorem Before.spe_down (h : Before s) (hst : Next .spe s t) : rank t < rank s := by
  obtain ⟨todo, acc, hppe, hlen, -⟩ := h.scans
  rcases h.spe_cases hst with ⟨hpc, rfl⟩ | ⟨hpc, rfl⟩
  · have hpc' : s.cpu.pc + 1 = 5 := by
      rw [hpc]
      rfl
    simp [rank, hpc]
  · simp only [rank, rest, State.next_pc, hppe]
    show (if s.cpu.pc + 1 = 4 then _ else if s.cpu.pc + 1 = 5 then _ else _) < _
    rw [hpc]
    simp
    split <;> omega

/-- Nothing depends on the PPE before that. -/
theorem Before.ppe_stays (h : Before s) (hst : Next .ppe s t) : rank t = rank s := by
  cases hst with
  | access ha =>
      rcases h.pc with hpc | ⟨hpc, -⟩
      · simp [rank, hpc]
      · simp [rank, hpc]

theorem After.pc_ne (h : After s) : s.cpu.pc ≠ 4 ∧ s.cpu.pc ≠ 5 := by
  have hpc : s.cpu.pc = 6 ∨ s.cpu.pc = 7 ∨ s.cpu.pc = 8 := by
    cases h.loops with
    | load hpc _ => exact .inl hpc
    | again hpc _ _ => exact .inr (.inl hpc)
    | leave hpc _ _ _ => exact .inr (.inl hpc)
    | stop hpc _ _ => exact .inr (.inr hpc)
    | stopped hpc _ _ => exact .inr (.inr hpc)
  rcases hpc with hpc | hpc | hpc <;> rw [hpc] <;> decide

theorem After.rank_eq (h : After s) : rank s = rest s := by
  rw [rank, if_neg h.pc_ne.1, if_neg h.pc_ne.2]

/-- While the PPE is at work it does not matter how often the SPE goes round. -/
theorem After.spe_stays (hs : After s) (hst : Next .spe s t) (hppe : s.ppe ≠ .done) :
    rank t = rank s := by
  rw [hs.rank_eq, (hs.spe hst).rank_eq, rest, rest, hst.spe_ppe]
  cases h : s.ppe with
  | done => exact absurd h hppe
  | scan todo acc => rfl
  | clear todo => rfl

/-- And then the SPE loads the zero, at its next turn. -/
theorem After.spe_down (hs : After s) (hst : Next .spe s t) (hppe : s.ppe = .done) :
    rank t < rank s := by
  rw [hs.rank_eq, (hs.spe hst).rank_eq]
  have hzero : s.cpu.ls (place 0) = 0 := hs.zero 0 (by rw [hppe]; trivial)
  obtain ⟨hrun, ⟨hpc, rfl⟩ | ⟨hpc, hw, c, hpc', hls, rfl⟩ | ⟨hpc, hw, hcl, rfl⟩ |
    ⟨hpc, hcl, rfl⟩⟩ := hs.spe_cases hst
  · have hw : ((s.cpu.put 3#7 (s.cpu.load 0#16)).next.reg 3#7).w0 = 0#32 := hzero
    simp [rest, hppe, hrun, hpc, hw]
  · have hne : (s.cpu.reg 3#7).w0 ≠ 0#32 := by
      have hw' : (s.cpu.reg 3#7).w0 = ones := hw
      rw [hw']
      decide
    simp [rest, hppe, hrun, hpc, hpc', hne]
  · have hw' : (s.cpu.reg 3#7).w0 = 0#32 := hw
    simp [rest, hppe, hrun, hpc, hw']
  · simp [rest, hppe, hrun, hpc]

/-- Every access of the PPE brings it nearer to its end. -/
theorem After.ppe_down (hs : After s) (hst : Next .ppe s t) : rank t < rank s := by
  rw [hs.rank_eq, (hs.ppe hst).rank_eq]
  cases hst with
  | access ha =>
      cases ha with
      | @look i todo acc hlook =>
          have hword : s.cpu.ls (place i) = ones := hs.full i (by rw [hlook]; exact id)
          have hacc : acc &&& s.cpu.ls (place i) = acc := by
            rw [hword]
            exact BitVec.and_allOnes
          simp only [rest, hlook, hacc, List.length_cons]
          split <;> omega
      | again hagain hne hall =>
          have hlen := hall.length_eq
          simp [rest, hagain, hne, hlen, allWords]
      | seen hseen hall =>
          have hlen := hall.length_eq
          simp [rest, hseen, hlen, allWords]
      | write hwrite => simp [rest, hwrite]
      | finish hfinish =>
          simp only [rest, hfinish, List.length_nil]
          split_ifs <;> omega

/-- Nobody has a step then. -/
theorem Ended.final (h : Ended s) : Final Next s := by
  rintro i ⟨t, ht⟩
  cases ht with
  | exec hrun _ => cases h.runRc.symm.trans hrun
  | stop hrun _ => cases h.runRc.symm.trans hrun
  | access ha =>
      cases ha with
      | look hp => cases h.ppe.symm.trans hp
      | again hp _ _ => cases h.ppe.symm.trans hp
      | seen hp _ => cases h.ppe.symm.trans hp
      | write hp => cases h.ppe.symm.trans hp
      | finish hp => cases h.ppe.symm.trans hp

theorem Before.spe_enabled (h : Before s) : Enabled Next .spe s := by
  rcases h.pc with hpc | ⟨hpc, -⟩
  · exact ⟨_, .exec h.runs (State.exec_at (fetch h.code 0 hpc rfl))⟩
  · exact ⟨_, .exec h.runs (State.exec_at (fetch h.code 1 hpc rfl))⟩

theorem After.spe_enabled (h : After s) (hrc : s.runRc ≠ some 0x13370002) :
    Enabled Next .spe s := by
  cases h.loops with
  | load hpc hrun => exact ⟨_, .exec hrun (State.exec_at (fetch h.code 2 hpc rfl))⟩
  | again hpc hrun _ => exact ⟨_, .exec hrun (State.exec_at (fetch h.code 3 hpc rfl))⟩
  | leave hpc hrun _ _ => exact ⟨_, .exec hrun (State.exec_at (fetch h.code 3 hpc rfl))⟩
  | stop hpc hrun _ => exact ⟨_, .stop hrun (State.exec_at (fetch h.code 4 hpc rfl))⟩
  | stopped _ hrc' _ => exact absurd hrc' hrc

theorem ppe_enabled (h : s.ppe ≠ .done) : Enabled Next .ppe s := by
  cases hp : s.ppe with
  | scan todo acc =>
      cases todo with
      | nil =>
          by_cases hacc : acc = ones
          · exact ⟨_, .access (.seen (hacc ▸ hp) (.refl allWords))⟩
          · exact ⟨_, .access (.again hp hacc (.refl allWords))⟩
      | cons i todo => exact ⟨_, .access (.look hp)⟩
  | clear todo =>
      cases todo with
      | nil => exact ⟨_, .access (.finish hp)⟩
      | cons i todo => exact ⟨_, .access (.write hp)⟩
  | done => exact absurd hp h

/-- The SPE stores the ones, the PPE clears them, and the SPE stops. -/
theorem relay : Relay PpeThread Before After (fun s => s.ppe ≠ .done) Ended rank where
  first := fun _ h => h.spe_enabled
  spe := fun _ _ h hst => ⟨h.spe hst, h.spe_down hst⟩
  waits := fun _ _ h hst => ⟨h.ppe hst, h.ppe_stays hst⟩
  second := fun _ _ hppe => ppe_enabled hppe
  ppe := fun _ _ h hst => ⟨h.ppe hst, h.ppe_down hst⟩
  goesOn := fun _ _ h hppe hst => ⟨h.spe hst, hst.spe_ppe ▸ hppe, h.spe_stays hst hppe⟩
  last := by
    intro s h hppe
    by_cases hrc : s.runRc = some 0x13370002
    · exact .inl ⟨not_not.mp hppe, hrc⟩
    · exact .inr (h.spe_enabled hrc)
  comesIn := fun _ _ h hppe hst => ⟨h.spe hst, h.spe_down hst (not_not.mp hppe)⟩
  final := fun _ h => h.final

end Measure

/-- The threads start: the SPE's with the program loaded, behind a quadword of
    zeros, and the PPE's with its first scan. -/
def start (s : State Unit) (todo : List (Fin 4)) : Sys Ppe :=
  ⟨s.boot image 16, none, .scan todo ones⟩

theorem start_before (s : State Unit) {todo : List (Fin 4)} (hall : todo.Perm allWords) :
    Before (start s todo) := by
  have hlen : todo.length = 4 := hall.length_eq
  refine ⟨(boot_loaded (by decide) 16 s).listing speApp_decode, .inl rfl, rfl, fun i => ?_, todo,
    ones, rfl, hlen.le, fun _ => hlen⟩
  have hword : image[(place i).toNat]? = some 0 := by
    revert i
    decide
  show image.getD (place i).toNat _ = 0
  rw [List.getD_eq_getElem?_getD, hword]
  rfl

/-- **Writing to a running SPE**: in whatever order the two take their steps, the
    SPE stops with `0x1337`, not before the first word is cleared; no fair run
    goes on for ever, and where one ends the quadword is clear and `main`
    succeeds. -/
theorem ppeRunning_passes (s : State Unit) {todo : List (Fin 4)} (hall : todo.Perm allWords) :
    (∀ r : Run Next, r.state 0 = start s todo → ¬ r.IsFair) ∧
      ∀ t, Reached Next (start s todo) t →
        (∀ rc, t.runRc = some rc → rc = 0x13370002 ∧ t.cpu.ls 0 = 0) ∧
        (Final Next t → t.ppe = .done ∧ (∀ i, t.cpu.ls (place i) = 0) ∧
          ∃ rc, t.runRc = some rc ∧ exitStatus (Int32.ofInt rc) = 0) := by
  have hstart := start_before s hall
  refine ⟨fun r hr => relay.measure.not_fair r (hr ▸ .inl hstart), fun t ht => ?_⟩
  have hphase := relay.measure.reached (.inl hstart) ht
  have hstop : ∀ rc, t.runRc = some rc → After t ∧ rc = 0x13370002 ∧ t.ppe.Cleared 0 := by
    intro rc hrc
    obtain hb | ha := hphase
    · cases hb.runs.symm.trans hrc
    · cases ha.loops with
      | stopped _ hrc' hcl => exact ⟨ha, Option.some.inj (hrc.symm.trans hrc'), hcl⟩
      | load _ hrun | again _ hrun _ | leave _ hrun _ _ | stop _ hrun _ =>
          cases hrun.symm.trans hrc
  refine ⟨fun rc hrc => ?_, fun hfin => ?_⟩
  · obtain ⟨ha, hrc', hcl⟩ := hstop rc hrc
    exact ⟨hrc', ha.zero 0 hcl⟩
  · have hppe : t.ppe = .done := by
      by_contra hne
      exact hfin .ppe (ppe_enabled hne)
    obtain hb | ha := hphase
    · exact absurd (hb.spe_enabled) (hfin .spe)
    · have hrc : t.runRc = some 0x13370002 := by
        by_contra hne
        exact hfin .spe (ha.spe_enabled hne)
      refine ⟨hppe, fun i => ha.zero i ?_, _, hrc, by decide⟩
      rw [hppe]
      trivial

/-- With the words taken in their order, on a context that holds nothing yet. -/
theorem ppeRunning_passes_sample :
    [0, 1, 2, 3].Perm allWords ∧
      ((∀ r : Run Next, r.state 0 = start ⟨0, fun _ => .splat 0, fun _ => 0, ()⟩ [0, 1, 2, 3] →
          ¬ r.IsFair) ∧
        ∀ t, Reached Next (start ⟨0, fun _ => .splat 0, fun _ => 0, ()⟩ [0, 1, 2, 3]) t →
          (∀ rc, t.runRc = some rc → rc = 0x13370002 ∧ t.cpu.ls 0 = 0) ∧
          (Final Next t → t.ppe = .done ∧ (∀ i, t.cpu.ls (place i) = 0) ∧
            ∃ rc, t.runRc = some rc ∧ exitStatus (Int32.ofInt rc) = 0)) :=
  ⟨.refl _, ppeRunning_passes ⟨0, fun _ => .splat 0, fun _ => 0, ()⟩ (.refl _)⟩

end PpeRunning
