import SpufsTestsuite.RingNodeProofs

/-! # 01-dual-ring — one token goes round

    `create_gang` points every SPE at the signal register of the next one, and
    `run_gang` writes a zero to the first.  From then on the word goes round,
    one up at every hop, until every SPE has done its iterations.

    All that there is to know of a reached state is how many receives there
    have been and where the word is (`At`).  Every step keeps that, in any
    order of the steps, and takes the ring nearer to its end (`step_ranked`). -/

namespace SpufsDualRing

open Spu SpufsRingSpe SpufsRingNode
open Relation (ReflTransGen)
open Transition (Ends Final Ranked sum_update forall_update forall_update_rank)

variable {n : Nat}

/-! ## The gang -/

/-- Where `mmap` has put the problem-state areas: at the start of pages, and no
    two of them at one place. -/
structure PsMaps (n : Nat) where
  psmap   : Fin n → BitVec 64
  aligned : ∀ i, (psmap i).toNat % 4096 = 0
  apart   : Function.Injective psmap

/-- The address of an SPE's first signal register. -/
def PsMaps.signal1 (m : PsMaps n) (i : Fin n) : BitVec 64 := m.psmap i + 0x1400c

/-- The next SPE of the ring. -/
def next (i : Fin n) : Fin n := ⟨(i + 1) % n, Nat.mod_lt _ i.pos⟩

/-- The halves of `next_psmap`. -/
def high (ea : BitVec 64) : Word := (ea >>> 32).setWidth 32

def low (ea : BitVec 64) : Word := (ea &&& 0xffffffff).setWidth 32

/-- `spe_program` with an SPE's parameters. -/
def setUp (nextPsmap : BitVec 64) (iterations : Word) : List Word :=
  ((speProgram.set 0 (high nextPsmap)).set 1 (low nextPsmap)).set 4 iterations

/-- The parameters leave the instructions as they are. -/
theorem setUp_decode (nextPsmap : BitVec 64) (iterations : Word) :
    ((setUp nextPsmap iterations).drop 12).map decode = speCode.map some := by
  rw [setUp, List.drop_set, if_pos (by decide), List.drop_set, if_pos (by decide),
    List.drop_set, if_pos (by decide)]
  exact speProgram_decode

/-- The nodes, and whether `run_gang` has written its zero. -/
structure Sys (n : Nat) where
  started : Bool
  node    : Fin n → Node

/-- `create_gang`, with the iterations as a parameter: every SPE is at its entry. -/
def createGang (m : PsMaps n) (iterations : Word) (ctx : Fin n → State Mfc) : Sys n :=
  { started := false
    node := fun i =>
      { spe := (ctx i).boot (setUp (m.signal1 (next i)) iterations) speProgramEntry
        signal := none, queue := [], got := [], stopped := none } }

/-- `run_gang`. -/
def Sys.runGang (s : Sys n) : Option (Sys n) :=
  if h : 0 < n then
    if s.started then none
    else some { started := true
                node := Function.update s.node ⟨0, h⟩ { s.node ⟨0, h⟩ with signal := some 0 } }
  else none

/-- An SPE takes its next step. -/
def Sys.nodeStep (i : Fin n) (s : Sys n) : Option (Sys n) :=
  (s.node i).step.map fun nd => { s with node := Function.update s.node i nd }

/-- The flow controller of an SPE performs command `k` of its queue: a `sndsig`
    of a word to the signal register that lies at the address. -/
def Sys.perform (m : PsMaps n) (i : Fin n) (k : Nat) (s : Sys n) : Option (Sys n) :=
  match (s.node i).queue[k]? with
  | none => none
  | some c =>
      if c.cmd = 0xa0 ∧ c.size = 4 ∧ c.lsa.extractLsb' 0 4 = c.ea.extractLsb' 0 4 then
        match (List.finRange n).find? (fun j => m.signal1 j = c.ea) with
        | none => none
        | some j => some { s with
            node := fun x => { s.node x with
              queue := if x = i then (s.node x).queue.eraseIdx k else (s.node x).queue
              signal := if x = j then some (c.payload (s.node i).spe.ls)
                        else (s.node x).signal } }
      else none

/-- The steps of the ring. -/
inductive Step (m : PsMaps n) : Sys n → Sys n → Prop where
  | start {s s' : Sys n} (h : s.runGang = some s') : Step m s s'
  | node {s s' : Sys n} (i : Fin n) (h : s.nodeStep i = some s') : Step m s s'
  | perform {s s' : Sys n} (i : Fin n) (k : Nat) (h : s.perform m i k = some s') : Step m s s'

/-! ## Addresses -/

theorem high_low (ea : BitVec 64) : high ea ++ low ea = ea := by
  have hhigh : high ea = ea.extractLsb' 32 32 := by
    apply BitVec.eq_of_toNat_eq
    rw [high, BitVec.toNat_setWidth, BitVec.toNat_ushiftRight, BitVec.extractLsb'_toNat]
  have hlow : low ea = ea.extractLsb' 0 32 := by
    apply BitVec.eq_of_toNat_eq
    rw [low, BitVec.toNat_setWidth, BitVec.toNat_and, BitVec.extractLsb'_toNat, Nat.shiftRight_zero]
    show (ea.toNat &&& 2 ^ 32 - 1) % 2 ^ 32 = _
    rw [Nat.and_two_pow_sub_one_eq_mod, Nat.mod_mod]
  rw [hhigh, hlow, BitVec.extractLsb'_append_extractLsb'_eq_extractLsb' (by rfl)]
  exact BitVec.extractLsb'_eq_self

/-- The signal word lies at the offset in its quadword that the buffer has. -/
theorem signal1_offset (m : PsMaps n) (i : Fin n) :
    (44 : Word).extractLsb' 0 4 = (m.signal1 i).extractLsb' 0 4 := by
  apply BitVec.eq_of_toNat_eq
  have hal := m.aligned i
  rw [PsMaps.signal1, BitVec.extractLsb'_toNat, BitVec.extractLsb'_toNat, BitVec.toNat_add,
    Nat.shiftRight_zero, Nat.shiftRight_zero]
  show 44 % 16 = ((m.psmap i).toNat + 0x1400c) % 2 ^ 64 % 16
  omega

theorem signal1_injective (m : PsMaps n) : Function.Injective m.signal1 := by
  intro i j h
  exact m.apart ((BitVec.add_left_inj _).mp h)

/-- The address of an SPE's signal register is that of no other. -/
theorem find_signal1 (m : PsMaps n) (i : Fin n) :
    (List.finRange n).find? (fun j => m.signal1 j = m.signal1 i) = some i := by
  cases hf : (List.finRange n).find? (fun j => m.signal1 j = m.signal1 i) with
  | none =>
      have := List.find?_eq_none.mp hf i (List.mem_finRange i)
      exact absurd (decide_eq_true rfl) this
  | some j =>
      have := List.find?_some hf
      rw [signal1_injective m (of_decide_eq_true this)]

/-- The halves of the address that a node sends to. -/
abbrev PsMaps.nextHigh (m : PsMaps n) (i : Fin n) : Word := high (m.signal1 (next i))

abbrev PsMaps.nextLow (m : PsMaps n) (i : Fin n) : Word := low (m.signal1 (next i))

/-! ## Turns -/

/-- How many of the first `t` receives are those of SPE `i`. -/
def turns (n i t : Nat) : Nat := Nat.count (fun k => k % n = i) t

theorem turns_succ (n i t : Nat) :
    turns n i (t + 1) = turns n i t + if t % n = i then 1 else 0 := Nat.count_succ ..

theorem turns_eq (i : Fin n) (t : Nat) :
    turns n i t = t / n + if (i : Nat) < t % n then 1 else 0 := by
  have hcount := Nat.count_modEq_card t i.pos i
  rw [Nat.mod_eq_of_lt i.isLt] at hcount
  rw [← hcount, turns]
  congr 1
  funext k
  rw [Nat.ModEq, Nat.mod_eq_of_lt i.isLt]

/-- The receive after `t` others is one of the SPE whose turn it is. -/
theorem turns_self {i : Fin n} {t : Nat} (hi : (i : Nat) = t % n) :
    turns n i t * n + i = t := by
  rw [turns_eq, if_neg (by omega), Nat.add_zero, hi, Nat.mul_comm]
  exact Nat.div_add_mod t n

/-- After all rounds every SPE has had all its turns. -/
theorem turns_all (i : Fin n) (K : Nat) : turns n i (n * K) = K := by
  rw [turns_eq, Nat.mul_div_cancel_left K i.pos, Nat.mul_mod_right, if_neg (Nat.not_lt_zero _),
    Nat.add_zero]

/-! ## Where the word is -/

/-- Before `run_gang`, unread in a signal register, or held by an SPE. -/
inductive Token (n : Nat) where
  | unsent
  | unread
  | sending (h : Fin n)
  | flight (h : Fin n)
  deriving DecidableEq, Repr

/-- The mode of a node after `t` receives. -/
def NodeAt (m : PsMaps n) (K t : Nat) (i : Fin n) (nd : Node) (r : Nat) : Token n → Prop
  | .unsent | .unread => Passive (m.nextHigh i) (m.nextLow i) K (turns n i t) nd r
  | .sending h =>
      if i = h then
        Sending (m.nextHigh i) (m.nextLow i) K (turns n i t) (BitVec.ofNat 32 t) nd r
      else Passive (m.nextHigh i) (m.nextLow i) K (turns n i t) nd r
  | .flight h =>
      if i = h then
        Flight (m.nextHigh i) (m.nextLow i) K (turns n i t) (BitVec.ofNat 32 t) nd r
      else Passive (m.nextHigh i) (m.nextLow i) K (turns n i t) nd r

/-- The unread word of a node after `t` receives. -/
def signalAt (t : Nat) (i : Fin n) : Token n → Option Word
  | .unread => if (i : Nat) = t % n then some (BitVec.ofNat 32 t) else none
  | _ => none

/-- The word is where it should be after `t` receives. -/
def Located (t : Nat) (started : Bool) : Token n → Prop
  | .unsent => started = false ∧ t = 0
  | .unread => started = true
  | .sending h => started = true ∧ (next h : Nat) = t % n
  | .flight h => started = true ∧ (next h : Nat) = t % n

/-- The words that an SPE has read after `c` receives. -/
def received (i : Fin n) (c : Nat) : List Word :=
  (List.range c).map fun j => BitVec.ofNat 32 (j * n + i)

/-- **The ring after `t` receives.** -/
structure At (m : PsMaps n) (K t : Nat) (tok : Token n) (rank : Fin n → Nat) (s : Sys n) :
    Prop where
  bound   : t ≤ n * K
  located : Located t s.started tok
  node    : ∀ i, NodeAt m K t i (s.node i) (rank i) tok
  signal  : ∀ i, (s.node i).signal = signalAt t i tok
  got     : ∀ i, (s.node i).got = received i (turns n i t)

/-- `run_gang` is one step that is left. -/
def Token.rank : Token n → Nat
  | .unsent => 1
  | _ => 0

/-- The invariant, with its rank. -/
def Invariant (m : PsMaps n) (K : Nat) (s : Sys n) (r : Nat) : Prop :=
  ∃ t tok rank, At m K t tok rank s ∧ r = tok.rank + ∑ i, rank i

section StepLemmas

variable {m : PsMaps n} {K t : Nat} {tok : Token n} {rank : Fin n → Nat} {s s' : Sys n}

/-- A node changes, and the word stays where it is. -/
theorem At.update {tok' : Token n} (h : At m K t tok rank s) {i : Fin n} {nd : Node} {r' : Nat}
    (hloc : Located t s.started tok')
    (hnode : NodeAt m K t i nd r' tok')
    (hother : ∀ j, j ≠ i → ∀ nd r, NodeAt m K t j nd r tok → NodeAt m K t j nd r tok')
    (hsig : nd.signal = (s.node i).signal) (hsame : ∀ j, signalAt t j tok' = signalAt t j tok)
    (hgot : nd.got = (s.node i).got) :
    At m K t tok' (Function.update rank i r')
      { s with node := Function.update s.node i nd } := by
  refine ⟨h.bound, hloc, ?_, ?_, ?_⟩
  · refine forall_update_rank (fun j nd r => NodeAt m K t j nd r tok') hnode ?_
    intro j hj
    exact hother j hj _ _ (h.node j)
  · refine forall_update (fun j (nd : Node) => nd.signal = signalAt t j tok') ?_ ?_
    · rw [hsame i, hsig, h.signal i]
    · intro j _
      rw [hsame j, h.signal j]
  · refine forall_update (fun j (nd : Node) => nd.got = received j (turns n j t)) ?_ ?_
    · rw [hgot, h.got i]
    · intro j _
      exact h.got j

/-- A step of one node lowers the sum of the ranks. -/
theorem lower {tok' : Token n} {i : Fin n} {r' : Nat} (hlt : r' < rank i)
    (htok : tok'.rank = tok.rank) :
    tok'.rank + ∑ j, Function.update rank i r' j < tok.rank + ∑ j, rank j := by
  have := sum_update rank i r'
  omega

/-- The SPE whose turn it is reads the word. -/
theorem At.read (h : At m K t .unread rank s) {i : Fin n} {nd : Node} {r' : Nat}
    (hi : (i : Nat) = t % n) (hlt : t < n * K)
    (hnode : Sending (m.nextHigh i) (m.nextLow i) K
      (turns n i t + 1) (BitVec.ofNat 32 t + 1) nd r')
    (hsig : nd.signal = none)
    (hgot : nd.got = (s.node i).got ++ [BitVec.ofNat 32 t]) :
    At m K (t + 1) (.sending i) (Function.update rank i r')
      { s with node := Function.update s.node i nd } := by
  have hturns : turns n i (t + 1) = turns n i t + 1 := by rw [turns_succ, if_pos hi.symm]
  have hother : ∀ j : Fin n, j ≠ i → turns n j (t + 1) = turns n j t := by
    intro j hj
    rw [turns_succ, if_neg (fun h => hj (Fin.ext (h.symm.trans hi.symm))), Nat.add_zero]
  have hword : BitVec.ofNat 32 (t + 1) = BitVec.ofNat 32 t + 1 := BitVec.ofNat_add ..
  refine ⟨hlt, ⟨h.located, ?_⟩, ?_, ?_, ?_⟩
  · show ((i : Nat) + 1) % n = (t + 1) % n
    rw [hi, Nat.mod_add_mod]
  · refine forall_update_rank (fun j nd r => NodeAt m K (t + 1) j nd r (.sending i)) ?_ ?_
    · rw [NodeAt, if_pos rfl, hturns, hword]
      exact hnode
    · intro j hj
      rw [NodeAt, if_neg hj, hother j hj]
      exact h.node j
  · refine forall_update (fun j (nd : Node) => nd.signal = none) hsig ?_
    intro j hj
    rw [h.signal j]
    exact if_neg (fun h => hj (Fin.ext (h.trans hi.symm)))
  · refine forall_update (fun j (nd : Node) => nd.got = received j (turns n j (t + 1))) ?_ ?_
    · rw [hgot, h.got i, hturns, received, received, List.range_succ, List.map_append,
        List.map_singleton, turns_self hi]
    · intro j hj
      rw [h.got j, hother j hj]

/-- A step of a node that holds no word. -/
theorem At.passive (hK : K < 2 ^ 32) (h : At m K t tok rank s) {i : Fin n} {nd : Node}
    (hmode : ∀ nd r, NodeAt m K t i nd r tok
      ↔ Passive (m.nextHigh i) (m.nextLow i) K (turns n i t) nd r)
    (hs : (s.node i).step = some nd) :
    ∃ t' tok' r', r' < rank i ∧ tok'.rank = tok.rank
      ∧ At m K t' tok' (Function.update rank i r')
          { s with node := Function.update s.node i nd } := by
  have hp := (hmode _ _).mp (h.node i)
  rcases hp.step hK hs with ⟨r', hlt, hp', hsig, hgot⟩ | ⟨v, hv, hc, hsig, hgot, r', hlt, hsend⟩
  · exact ⟨t, tok, r', hlt, rfl, h.update h.located ((hmode _ _).mpr hp')
      (fun _ _ _ _ h => h) hsig (fun _ => rfl) hgot⟩
  · -- there is a signal to read, so that the word is unread and it is this SPE's turn
    have hat := h.signal i
    rw [hv] at hat
    cases tok with
    | unread =>
        rw [signalAt] at hat
        split_ifs at hat with hi
        cases hat
        have hself := turns_self hi
        have hbound : t < n * K := by
          have hmul : (turns n i t + 1) * n ≤ K * n := Nat.mul_le_mul_right n hc
          have hilt := i.isLt
          rw [Nat.add_mul, Nat.mul_comm K n] at hmul
          omega
        exact ⟨t + 1, .sending i, r', hlt, rfl, h.read hi hbound hsend hsig hgot⟩
    | unsent => exact nomatch hat
    | sending k => exact nomatch hat
    | flight k => exact nomatch hat

/-- **A step of a node** leaves the word where it is, or moves it on. -/
theorem At.nodeStep (hK : K < 2 ^ 32) (h : At m K t tok rank s) {i : Fin n} {nd : Node}
    (hs : (s.node i).step = some nd) :
    ∃ t' tok' r', r' < rank i ∧ tok'.rank = tok.rank
      ∧ At m K t' tok' (Function.update rank i r')
          { s with node := Function.update s.node i nd } := by
  have hnode := h.node i
  cases tok with
  | unsent => exact h.passive hK (fun _ _ => Iff.rfl) hs
  | unread => exact h.passive hK (fun _ _ => Iff.rfl) hs
  | sending k =>
      by_cases hik : i = k
      · subst hik
        rw [NodeAt, if_pos rfl] at hnode
        obtain ⟨nd', hnd, hsig, hgot, r', hlt, hmode⟩ := hnode.step
        rw [hs] at hnd
        cases hnd
        rcases hmode with hmode | hmode
        · exact ⟨t, .sending i, r', hlt, rfl, h.update h.located
            (by rw [NodeAt, if_pos rfl]; exact hmode) (fun _ _ _ _ h => h) hsig
            (fun _ => rfl) hgot⟩
        · refine ⟨t, .flight i, r', hlt, rfl, h.update h.located
            (by rw [NodeAt, if_pos rfl]; exact hmode) ?_ hsig (fun _ => rfl) hgot⟩
          intro j hj nd r hat
          rw [NodeAt, if_neg hj] at hat
          rw [NodeAt, if_neg hj]
          exact hat
      · refine h.passive hK ?_ hs
        intro nd r
        rw [NodeAt, if_neg hik]
  | flight k =>
      by_cases hik : i = k
      · subst hik
        rw [NodeAt, if_pos rfl] at hnode
        obtain ⟨hsig, hgot, r', hlt, hmode⟩ := hnode.step hs
        exact ⟨t, .flight i, r', hlt, rfl, h.update h.located
          (by rw [NodeAt, if_pos rfl]; exact hmode) (fun _ _ _ _ h => h) hsig
          (fun _ => rfl) hgot⟩
      · refine h.passive hK ?_ hs
        intro nd r
        rw [NodeAt, if_neg hik]

/-- Only a node in flight has a command to perform. -/
theorem At.flying (h : At m K t tok rank s) {i : Fin n} (hq : (s.node i).queue ≠ []) :
    tok = .flight i := by
  have hnode := h.node i
  cases tok with
  | unsent => exact absurd hnode.1 hq
  | unread => exact absurd hnode.1 hq
  | sending k =>
      rw [NodeAt] at hnode
      split_ifs at hnode with hik
      · exact absurd hnode.1 hq
      · exact absurd hnode.1 hq
  | flight k =>
      rw [NodeAt] at hnode
      split_ifs at hnode with hik
      · rw [hik]
      · exact absurd hnode.1 hq

/-- What it is to perform the command of the node in flight. -/
theorem At.perform_eq {i : Fin n} (h : At m K t (.flight i) rank s) :
    s.perform m i 0 = some { s with
      node := fun x => { s.node x with
        queue := if x = i then [] else (s.node x).queue
        signal := if x = next i then some (BitVec.ofNat 32 t) else (s.node x).signal } } := by
  have hnode := h.node i
  rw [NodeAt, if_pos rfl] at hnode
  obtain ⟨hq, -, -, hbuf, -⟩ := hnode
  have hpay : (sndsig (m.nextHigh i) (m.nextLow i)).payload
      (s.node i).spe.ls = BitVec.ofNat 32 t := by
    show (s.node i).spe.ls ((44 : Word).extractLsb' 2 16) = _
    rw [show (44 : Word).extractLsb' 2 16 = 11 from by decide]
    exact hbuf
  have hea : (sndsig (m.nextHigh i) (m.nextLow i)).ea
      = m.signal1 (next i) := high_low _
  have hok : (sndsig (m.nextHigh i) (m.nextLow i)).lsa.extractLsb' 0 4
      = (m.signal1 (next i)).extractLsb' 0 4 := signal1_offset m (next i)
  have hhead : (s.node i).queue[0]?
      = some (sndsig (m.nextHigh i) (m.nextLow i)) := by
    rw [hq]
    rfl
  rw [Sys.perform, hhead]
  simp only [hea, find_signal1, hpay]
  rw [if_pos ⟨rfl, rfl, hok⟩]
  congr 2
  funext x
  by_cases hx : x = i
  · rw [if_pos hx, if_pos hx, hx, hq]
    rfl
  · rw [if_neg hx, if_neg hx]

/-- **The command is performed**, and the word is unread in the next register. -/
theorem At.perform (h : At m K t tok rank s) {i : Fin n} {k : Nat}
    (hs : s.perform m i k = some s') :
    tok = .flight i ∧ ∃ r', r' < rank i ∧ At m K t .unread (Function.update rank i r') s' := by
  have hq : (s.node i).queue ≠ [] := by
    intro hq
    rw [Sys.perform, hq] at hs
    exact nomatch hs
  have htok := h.flying hq
  subst htok
  have hnode := h.node i
  rw [NodeAt, if_pos rfl] at hnode
  have hk : k = 0 := by
    by_contra hk
    rw [Sys.perform, hnode.1, List.getElem?_eq_none (by simp; omega)] at hs
    exact nomatch hs
  subst hk
  rw [h.perform_eq] at hs
  cases hs
  obtain ⟨r', hlt, hp⟩ := hnode.performed
  refine ⟨rfl, r', hlt, h.bound, h.located.1, ?_, ?_, h.got⟩
  · intro j
    have hj := h.node j
    rw [NodeAt]
    by_cases hji : j = i
    · subst hji
      simp only [Function.update_self, if_true]
      exact hp
    · rw [NodeAt, if_neg hji] at hj
      simp only [Function.update_of_ne hji, if_neg hji]
      exact hj
  · intro j
    have hturn : j = next i ↔ (j : Nat) = t % n := by
      rw [← h.located.2]
      exact Fin.ext_iff
    simp only [signalAt, hturn, h.signal j]

/-- **The start**: the zero is unread in the first register. -/
theorem At.start (h : At m K t tok rank s) (hs : s.runGang = some s') :
    tok = .unsent ∧ At m K t .unread rank s' := by
  rw [Sys.runGang] at hs
  split_ifs at hs with hn hst
  cases hs
  have htok : tok = .unsent := by
    have hloc := h.located
    cases tok with
    | unsent => rfl
    | unread => exact absurd hloc hst
    | sending k => exact absurd hloc.1 hst
    | flight k => exact absurd hloc.1 hst
  subst htok
  obtain ⟨-, rfl⟩ := h.located
  refine ⟨rfl, h.bound, rfl, ?_, ?_, ?_⟩
  · exact forall_update (fun j (nd : Node) => NodeAt m K 0 j nd (rank j) .unread) (h.node _)
      (fun j _ => h.node j)
  · refine forall_update (fun j (nd : Node) => nd.signal = signalAt 0 j .unread) ?_ ?_
    · rw [signalAt, if_pos (Nat.zero_mod n).symm]
      rfl
    · intro j hj
      rw [signalAt, if_neg (fun h => hj (Fin.ext (h.trans (Nat.zero_mod n))))]
      exact h.signal j
  · exact forall_update (fun j (nd : Node) => nd.got = received j (turns n j 0)) (h.got _)
      (fun j _ => h.got j)

/-- **Every step keeps the invariant and lowers its rank.** -/
theorem step_ranked (m : PsMaps n) (hK : K < 2 ^ 32) :
    Ranked (Step m) (Invariant m K) := by
  rintro s s' r ⟨t, tok, rank, h, rfl⟩ hstep
  cases hstep with
  | start hs =>
      obtain ⟨rfl, hat⟩ := h.start hs
      exact ⟨0 + ∑ i, rank i, by rw [Token.rank]; omega, t, .unread, rank, hat, rfl⟩
  | node i hs =>
      obtain ⟨nd, hnd, rfl⟩ := Option.map_eq_some_iff.mp hs
      obtain ⟨t', tok', r', hlt, htok, hat⟩ := h.nodeStep hK hnd
      exact ⟨_, lower hlt htok, t', tok', _, hat, rfl⟩
  | perform i k hs =>
      obtain ⟨rfl, r', hlt, hat⟩ := h.perform hs
      exact ⟨_, lower hlt rfl, t, .unread, _, hat, rfl⟩

/-- The invariant holds of the gang that has been created. -/
theorem createGang_invariant (m : PsMaps n) (hK : 0 < K) (ctx : Fin n → State Mfc) :
    ∃ r, Invariant m K (createGang m (BitVec.ofNat 32 K) ctx) r := by
  refine ⟨_, 0, .unsent, fun _ => 100 * (K - 0) + 10 + 2,
    ⟨Nat.zero_le _, ⟨rfl, rfl⟩, ?_, fun _ => rfl, fun _ => rfl⟩, rfl⟩
  intro i
  have hlen : (setUp (m.signal1 (next i)) (BitVec.ofNat 32 K)).length ≤ 2 ^ 16 := by
    rw [setUp, List.length_set, List.length_set, List.length_set]
    decide
  have hcode := (boot_loaded hlen speProgramEntry (ctx i)).listing
    (setUp_decode (m.signal1 (next i)) (BitVec.ofNat 32 K))
  obtain ⟨c, hc, hread⟩ := boot_settles (ctx i) hcode rfl rfl rfl
  exact ⟨rfl, .idle hK (le_refl 10) hc hread⟩

/-! ## What the invariant says -/

/-- At most one node has a word, unread or in flight. -/
theorem At.one_word (h : At m K t tok rank s) (hn : 0 < n) :
    ∃ p, ∀ i, (s.node i).signal.toList.length + (s.node i).queue.length
      ≤ if i = p then 1 else 0 := by
  have hq : ∀ i, tok ≠ .flight i → (s.node i).queue = [] := by
    intro i hi
    by_contra hne
    exact hi (h.flying hne)
  have hsig := h.signal
  cases tok with
  | unsent =>
      refine ⟨⟨0, hn⟩, fun i => ?_⟩
      rw [hq i (fun h => nomatch h), hsig i]
      exact Nat.zero_le _
  | unread =>
      refine ⟨⟨t % n, Nat.mod_lt t hn⟩, fun i => ?_⟩
      rw [hq i (fun h => nomatch h), hsig i, signalAt]
      by_cases hi : (i : Nat) = t % n
      · rw [if_pos hi, if_pos (Fin.ext hi)]
        exact le_refl 1
      · rw [if_neg hi]
        exact Nat.zero_le _
  | sending k =>
      refine ⟨k, fun i => ?_⟩
      rw [hq i (fun h => nomatch h), hsig i]
      exact Nat.zero_le _
  | flight k =>
      refine ⟨k, fun i => ?_⟩
      rw [hsig i]
      by_cases hi : i = k
      · subst hi
        have hnode := h.node i
        rw [NodeAt, if_pos rfl] at hnode
        rw [hnode.1, if_pos rfl]
        exact le_refl 1
      · rw [hq i (fun h => hi (Token.flight.inj h).symm)]
        exact Nat.zero_le _

/-- An unread word stays until it is read. -/
theorem At.kept (hK : K < 2 ^ 32) (h : At m K t tok rank s) (hstep : Step m s s') {i : Fin n}
    {v : Word} (hv : (s.node i).signal = some v) :
    (s'.node i).signal = some v ∨ (s'.node i).got = (s.node i).got ++ [v] := by
  have htok : tok = .unread := by
    have hat := h.signal i
    rw [hv] at hat
    cases tok with
    | unread => rfl
    | unsent => exact nomatch hat
    | sending k => exact nomatch hat
    | flight k => exact nomatch hat
  subst htok
  cases hstep with
  | start hs => exact nomatch (h.start hs).1
  | perform j k hs => exact nomatch (h.perform hs).1
  | node j hs =>
      obtain ⟨nd, hnd, rfl⟩ := Option.map_eq_some_iff.mp hs
      by_cases hij : i = j
      · subst hij
        simp only [Function.update_self]
        rcases Passive.step hK (h.node i) hnd with ⟨-, -, -, hsig, -⟩ | ⟨w, hw, -, -, hgot, -⟩
        · exact .inl (hsig.trans hv)
        · rw [hv] at hw
          cases hw
          exact .inr hgot
      · simp only [Function.update_of_ne hij]
        exact .inl hv

/-- **In a final state** every SPE has stopped after its last receive. -/
theorem At.final (hn : 0 < n) (h : At m K t tok rank s) (hfin : Final (Step m) s) :
    ∀ i, (s.node i).stopped = some 0x1337 ∧ (s.node i).got.length = K := by
  have hstuck : ∀ i, (s.node i).step = none := by
    intro i
    cases hs : (s.node i).step with
    | none => rfl
    | some nd => exact absurd (.node i (by rw [Sys.nodeStep, hs]; rfl)) (hfin _)
  cases tok with
  | unsent =>
      have hrun : s.runGang ≠ none := by
        rw [Sys.runGang, dif_pos hn, if_neg (by rw [h.located.1]; exact Bool.false_ne_true)]
        exact fun h => nomatch h
      obtain ⟨s', hs'⟩ := Option.ne_none_iff_exists'.mp hrun
      exact absurd (.start hs') (hfin s')
  | sending k =>
      have hnode := h.node k
      rw [NodeAt, if_pos rfl] at hnode
      obtain ⟨nd', hnd, -⟩ := hnode.step
      rw [hstuck k] at hnd
      exact nomatch hnd
  | flight k => exact absurd (.perform k 0 h.perform_eq) (hfin _)
  | unread =>
      -- the SPE whose turn it is could read the word, if it had a turn left
      have hall : t = n * K := by
        obtain ⟨p, hp⟩ : ∃ p : Fin n, (p : Nat) = t % n := ⟨⟨t % n, Nat.mod_lt t hn⟩, rfl⟩
        rcases Passive.stuck (h.node p) (hstuck p) with ⟨-, hc⟩ | ⟨hnone, -⟩
        · have hself := turns_self hp
          have hbound := h.bound
          rw [hc, Nat.mul_comm] at hself
          omega
        · rw [h.signal p, signalAt, if_pos hp] at hnone
          exact nomatch hnone
      intro i
      have hgot := h.got i
      rw [hall, turns_all] at hgot
      rcases Passive.stuck (h.node i) (hstuck i) with ⟨hstop, -⟩ | ⟨-, hlt⟩
      · refine ⟨hstop, ?_⟩
        rw [hgot, received, List.length_map, List.length_range]
      · rw [hall, turns_all] at hlt
        exact absurd hlt (Nat.lt_irrefl K)

end StepLemmas

/-! ## The ring -/

/-- The unread words and the words in flight. -/
def inRing (s : Sys n) : Nat :=
  ∑ i, ((s.node i).signal.toList.length + (s.node i).queue.length)

/-- The ring is safe and completes, from a state on. -/
structure Correct (m : PsMaps n) (K : Nat) (start : Sys n) : Prop where
  single   : ∀ s, ReflTransGen (Step m) start s → inRing s ≤ 1
  kept     : ∀ s s', ReflTransGen (Step m) start s → Step m s s' → ∀ i v,
    (s.node i).signal = some v →
      (s'.node i).signal = some v ∨ (s'.node i).got = (s.node i).got ++ [v]
  words    : ∀ s, ReflTransGen (Step m) start s → ∀ i j w, (s.node i).got[j]? = some w →
    w.toNat = (j * n + i) % 2 ^ 32
  notStuck : ∀ s, ReflTransGen (Step m) start s → (∃ i, (s.node i).stopped = none) →
    ∃ s', Step m s s'
  ends     : Ends (Step m) start
  final    : ∀ s, ReflTransGen (Step m) start s → Final (Step m) s →
    ∀ i, (s.node i).stopped = some 0x1337 ∧ (s.node i).got.length = K

/-- **The token goes round**: for every size of the ring and every number of
    iterations, in every order of the steps. -/
theorem ring_correct (hn : 2 ≤ n) {K : Nat} (hK1 : 1 ≤ K) (hK : K < 2 ^ 32) (m : PsMaps n)
    (ctx : Fin n → State Mfc) : Correct m K (createGang m (BitVec.ofNat 32 K) ctx) := by
  have hpos : 0 < n := by omega
  obtain ⟨r, hstart⟩ := createGang_invariant m hK1 ctx
  have hranked := step_ranked m hK
  have hall : ∀ s, ReflTransGen (Step m) (createGang m (BitVec.ofNat 32 K) ctx) s →
      ∃ t tok rank, At m K t tok rank s := by
    intro s hs
    obtain ⟨-, t, tok, rank, h, -⟩ := hranked.reached hstart hs
    exact ⟨t, tok, rank, h⟩
  have hfinal : ∀ s, ReflTransGen (Step m) (createGang m (BitVec.ofNat 32 K) ctx) s →
      Final (Step m) s → ∀ i, (s.node i).stopped = some 0x1337 ∧ (s.node i).got.length = K := by
    intro s hs hfin
    obtain ⟨t, tok, rank, h⟩ := hall s hs
    exact h.final hpos hfin
  refine ⟨?_, ?_, ?_, ?_, hranked.ends hstart, hfinal⟩
  · intro s hs
    obtain ⟨t, tok, rank, h⟩ := hall s hs
    obtain ⟨p, hp⟩ := h.one_word hpos
    calc inRing s ≤ ∑ i, (if i = p then 1 else 0) := Finset.sum_le_sum (fun i _ => hp i)
      _ = 1 := by rw [Finset.sum_ite_eq' Finset.univ p, if_pos (Finset.mem_univ p)]
  · intro s s' hs hstep i v hv
    obtain ⟨t, tok, rank, h⟩ := hall s hs
    exact h.kept hK hstep hv
  · intro s hs i j w hw
    obtain ⟨t, tok, rank, h⟩ := hall s hs
    rw [h.got i, received, List.getElem?_map, Option.map_eq_some_iff] at hw
    obtain ⟨x, hx, rfl⟩ := hw
    obtain ⟨hlt, hget⟩ := List.getElem?_eq_some_iff.mp hx
    rw [List.getElem_range] at hget
    rw [← hget, BitVec.toNat_ofNat]
  · rintro s hs ⟨i, hi⟩
    by_contra hno
    have hfin : Final (Step m) s := fun s' hstep => hno ⟨s', hstep⟩
    rw [(hfinal s hs hfin i).1] at hi
    exact nomatch hi

/-- Two areas of the size of a problem-state area, one behind the other. -/
def pair : PsMaps 2 where
  psmap := fun i => 0x10000000 + 0x20000 * BitVec.ofNat 64 i
  aligned := by decide
  apart := by
    intro i j
    revert i j
    decide

/-- The ring of two SPEs, with the test's own number of iterations. -/
theorem ring_correct_pair :
    2 ≤ 2 ∧ Correct pair 0x1000000
      (createGang pair 0x1000000 fun _ =>
        ⟨0, fun _ => .splat 0, fun _ => 0, ⟨0, 0, 0, 0, 0, 0, 0⟩⟩) :=
  ⟨le_refl 2, ring_correct (le_refl 2) (by decide) (by decide) pair _⟩

end SpufsDualRing
