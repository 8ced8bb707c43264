import SpufsTestsuite.FairProofs
import SpufsTestsuite.SpuProofs

/-! # One local store for two — an SPE and a thread of the PPE

    Some tests map the local store and look at it while the SPE runs.  The SPE's
    thread is in `spu_run` until the program stops; the other thread reads and
    writes single words.  A step is an instruction of the SPE or one access of
    the PPE, so that quadwords are loaded and stored as a whole. -/

namespace SharedStore

open Spu

/-- The context, what `spu_run` has returned, and where the PPE's code is. -/
structure Sys (π : Type) where
  cpu   : State Unit
  runRc : Option Int
  ppe   : π

inductive Party
  | spe
  | ppe
  deriving DecidableEq

variable {π : Type}

/-- A step of one of the two; `access` says what the PPE may do next, and the
    local store behind it. -/
inductive Step (access : Sys π → π → (Addr → Word) → Prop) : Party → Sys π → Sys π → Prop
  | exec {s : Sys π} {c : State Unit} (hrun : s.runRc = none) (h : s.cpu.exec = .next c) :
      Step access .spe s { s with cpu := c }
  | stop {s : Sys π} {code : BitVec 14} (hrun : s.runRc = none) (h : s.cpu.exec = .stop code) :
      Step access .spe s { s with runRc := some (runStatus code) }
  | access {s : Sys π} {p : π} {ls : Addr → Word} (h : access s p ls) :
      Step access .ppe s { s with ppe := p, cpu := { s.cpu with ls := ls } }

variable {access : Sys π → π → (Addr → Word) → Prop}

/-- The SPE's step is fixed by the instruction it is at. -/
theorem Step.spe_at {s t : Sys π} {i : Instr} (h : Step access .spe s t)
    (hi : decode (s.cpu.ls s.cpu.pc) = some i) :
    s.runRc = none ∧ ((∃ c, i.exec s.cpu = .next c ∧ t = { s with cpu := c }) ∨
      ∃ code, i.exec s.cpu = .stop code ∧ t = { s with runRc := some (runStatus code) }) := by
  cases h with
  | exec hrun h =>
      rw [State.exec_at hi] at h
      exact ⟨hrun, .inl ⟨_, h, rfl⟩⟩
  | stop hrun h =>
      rw [State.exec_at hi] at h
      exact ⟨hrun, .inr ⟨_, h, rfl⟩⟩

/-- The SPE does not see where the PPE's code is. -/
theorem Step.spe_ppe {s t : Sys π} (h : Step access .spe s t) : t.ppe = s.ppe := by
  cases h with
  | exec _ _ => rfl
  | stop _ _ => rfl

/-! ## A relay

    The SPE is on its own at first, whatever the PPE does meanwhile.  Then the PPE
    is busy, whatever the SPE does, and when it is not the SPE goes on to its
    end. -/

open Fair (Enabled Final Measure)

structure Relay (access : Sys π → π → (Addr → Word) → Prop) (Before After busy Ended : Sys π → Prop)
    (rank : Sys π → Nat) : Prop where
  first    : ∀ s, Before s → Enabled (Step access) .spe s
  spe      : ∀ s t, Before s → Step access .spe s t → (Before t ∨ After t) ∧ rank t < rank s
  waits    : ∀ s t, Before s → Step access .ppe s t → Before t ∧ rank t = rank s
  second   : ∀ s, After s → busy s → Enabled (Step access) .ppe s
  ppe      : ∀ s t, After s → Step access .ppe s t → After t ∧ rank t < rank s
  goesOn   : ∀ s t, After s → busy s → Step access .spe s t → After t ∧ busy t ∧ rank t = rank s
  last     : ∀ s, After s → ¬ busy s → Ended s ∨ Enabled (Step access) .spe s
  comesIn  : ∀ s t, After s → ¬ busy s → Step access .spe s t → After t ∧ rank t < rank s
  final    : ∀ s, Ended s → Final (Step access) s

variable {Before After busy Ended : Sys π → Prop} {rank : Sys π → Nat}

/-- The party that is waited for. -/
def Helps (Before After busy Ended : Sys π → Prop) (s : Sys π) : Party → Prop
  | .spe => Before s ∨ (After s ∧ ¬ busy s ∧ ¬ Ended s)
  | .ppe => After s ∧ busy s

/-- **A relay comes to its end in every fair run.** -/
theorem Relay.measure (h : Relay access Before After busy Ended rank) :
    Measure (Step access) (fun s => Before s ∨ After s) rank (Helps Before After busy Ended) where
  inv := by
    rintro i s t (hb | ha) hst
    · cases i with
      | spe => exact (h.spe s t hb hst).1
      | ppe => exact .inl (h.waits s t hb hst).1
    · cases i with
      | spe =>
          by_cases hbusy : busy s
          · exact .inr (h.goesOn s t ha hbusy hst).1
          · exact .inr (h.comesIn s t ha hbusy hst).1
      | ppe => exact .inr (h.ppe s t ha hst).1
  helped := by
    rintro s (hb | ha)
    · exact .inr ⟨.spe, .inl hb⟩
    · by_cases hbusy : busy s
      · exact .inr ⟨.ppe, ha, hbusy⟩
      · by_cases hend : Ended s
        · exact .inl (h.final s hend)
        · exact .inr ⟨.spe, .inr ⟨ha, hbusy, hend⟩⟩
  enabled := by
    rintro i s - hi
    cases i with
    | spe =>
        rcases hi with hb | ⟨ha, hbusy, hend⟩
        · exact h.first s hb
        · exact (h.last s ha hbusy).resolve_left hend
    | ppe => exact h.second s hi.1 hi.2
  down := by
    rintro i s t - hi hst
    cases i with
    | spe =>
        rcases hi with hb | ⟨ha, hbusy, -⟩
        · exact (h.spe s t hb hst).2
        · exact (h.comesIn s t ha hbusy hst).2
    | ppe => exact (h.ppe s t hi.1 hst).2
  stays := by
    intro j s t hinv hst
    cases j with
    | spe =>
        rcases hinv with hb | ha
        · exact .inl (h.spe s t hb hst).2
        · by_cases hbusy : busy s
          · obtain ⟨ha', hbusy', hrank⟩ := h.goesOn s t ha hbusy hst
            by_cases hb : Before s
            · exact .inl (h.spe s t hb hst).2
            · refine .inr ⟨hrank, fun i hi => ?_⟩
              cases i with
              | spe => exact (hi.resolve_left hb).2.1.elim hbusy
              | ppe => exact ⟨ha', hbusy'⟩
          · exact .inl (h.comesIn s t ha hbusy hst).2
    | ppe =>
        by_cases ha : After s
        · exact .inl (h.ppe s t ha hst).2
        · obtain ⟨hb', hrank⟩ := h.waits s t (hinv.resolve_right ha) hst
          refine .inr ⟨hrank, fun i hi => ?_⟩
          cases i with
          | spe => exact .inl hb'
          | ppe => exact absurd hi.1 ha

/-! ## The first quadword -/

theorem jump_reg (imm : BitVec 16) (s : State Unit) : (s.jump imm).reg = s.reg := rfl

/-- The place of a word of the first quadword. -/
def place (i : Fin 4) : Addr := BitVec.ofNat 16 i

theorem place_injective : Function.Injective place := by decide

theorem quadOf_place (i : Fin 4) : quadOf (place i) = quadOf 0 := by
  revert i
  decide

/-- What is stored at 0 is in the four places. -/
theorem store_place (s : State Unit) (q : Quad) (i : Fin 4) :
    (s.store 0 q).ls (place i) = q.word i := by
  have hto : (place i).toNat = i := by
    revert i
    decide
  show (if quadOf (place i) = quadOf 0 then q.word (place i).toNat else _) = _
  rw [if_pos (quadOf_place i), hto]

theorem splat_word (w : Word) (i : Nat) : (Quad.splat w).word i = w := by
  unfold Quad.word
  split <;> rfl

/-- And nowhere else. -/
theorem store_other (s : State Unit) (q : Quad) {a : Addr} (ha : quadOf a ≠ quadOf 0) :
    (s.store 0 q).ls a = s.ls a := if_neg ha

/-- The instruction of a program behind the first quadword. -/
theorem fetch {s : State Unit} {is : List Instr} {i : Instr} (h : Listing s.ls 4 is) (k : Nat)
    (hpc : s.pc = 4 + BitVec.ofNat 16 k) (hi : is[k]? = some i) :
    decode (s.ls s.pc) = some i := by
  rw [hpc]
  exact h k i hi

/-- Such a program is not touched by what is done to the quadword. -/
theorem listing_behind {ls ls' : Addr → Word} {is : List Instr} (h : Listing ls 4 is)
    (hlen : is.length ≤ 8) (hls : ∀ a, quadOf a ≠ quadOf 0 → ls' a = ls a) :
    Listing ls' 4 is := by
  have hquad : ∀ k < 8, quadOf (4 + BitVec.ofNat 16 k) ≠ quadOf 0 := by decide
  exact h.congr (fun k hk => hls _ (hquad k (by omega)))

theorem update_other {ls : Addr → Word} {i : Fin 4} {w : Word} {a : Addr}
    (ha : quadOf a ≠ quadOf 0) : Function.update ls (place i) w a = ls a := by
  refine Function.update_of_ne (fun heq => ha ?_) ..
  rw [heq, quadOf_place]

theorem update_place {ls : Addr → Word} {i j : Fin 4} {w : Word} :
    Function.update ls (place i) w (place j) = if j = i then w else ls (place j) := by
  by_cases hj : j = i
  · rw [hj, if_pos rfl, Function.update_self]
  · rw [if_neg hj, Function.update_of_ne (fun heq => hj (place_injective heq))]

end SharedStore
