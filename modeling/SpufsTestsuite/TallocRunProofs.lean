import Mathlib
import SpufsTestsuite.TallocReallocProofs

/-! # talloc — runs of calls

    A program calls functions of talloc one after the other; `talloc_reference` and
    the tracking of `NULL` contexts are not among them.  It may do so with chunks
    that are allocated, and it must not move a chunk below itself; both are asked
    of the memory as it is at the time of the call (`Allowed`).

    Over this stands what the calls are for: a forest of chunks, each with a
    header (`Pool`).  Every call does to the memory what it does to the forest
    (`call_simulates`), so a run never gets to a fault, and its memory is always
    that of a forest. -/

namespace Talloc

open Fuel (Returns)

/-- A call, with what `malloc` or `realloc` returns if it is asked.  None of them
    takes a reference, and a destructor only returns `rc`. -/
inductive Call where
  | alloc (mem context : Option Ptr) (size : Nat) (name : Option String)
  | realloc (mem context ptr : Option Ptr) (size : Nat) (name : Option String)
  | steal (newCtx ptr : Option Ptr)
  | setDestructor (ptr : Ptr) (rc : Option Int)
  | freeChildren (ptr : Option Ptr)
  | free (ptr : Option Ptr)

inductive Answer where
  | ptr (p : Option Ptr)
  | rc (rc : Int)
  | void

def Call.run (n : Nat) : Call → Heap → Option (Answer × Heap)
  | .alloc mem context size name, h => do
      let (p, h) ← tallocNamedConst mem context size name h
      some (.ptr p, h)
  | .realloc mem context ptr size name, h => do
      let (p, h) ← tallocRealloc n mem context ptr size name h
      some (.ptr p, h)
  | .steal _ none, h => some (.ptr none, h)
  | .steal newCtx (some ptr), h => do
      let h ← tallocSteal newCtx ptr h
      some (.ptr (some ptr), h)
  | .setDestructor ptr rc, h => do
      let h ← tallocSetDestructor ptr (rc.map .fn) h
      some (.void, h)
  | .freeChildren ptr, h => do
      let h ← tallocFreeChildren n ptr h
      some (.void, h)
  | .free ptr, h => do
      let (rc, h) ← tallocFree n ptr h
      some (.rc rc, h)

/-- A pointer that may be passed: `NULL`, or one to a chunk. -/
def Live (q : Option Ptr) (h : Heap) : Prop := ∀ p, q = some p → (h p).isSome

def Allowed : Call → Heap → Prop
  | .alloc mem context _ _, h => Live context h ∧ ∀ b, mem = some b → h b = none
  | .realloc mem context ptr _ _, h =>
      Live context h ∧ Live ptr h ∧ ∀ b, mem = some b → h b = none ∨ ptr = some b
  | .steal newCtx ptr, h =>
      Live newCtx h ∧ Live ptr h ∧ ∀ p a, newCtx = some p → ptr = some a →
        Returns (fun n => tallocIsParent n (some p) a h) 0
  | .setDestructor ptr _, h => Live (some ptr) h
  | .freeChildren ptr, h => Live ptr h
  | .free ptr, h => Live ptr h

/-- The memory before the first call. -/
def noChunk : Heap := fun _ => none

/-- Calls one after the other, with what they return. -/
inductive Runs : List (Call × Answer) → Heap → Heap → Prop
  | nil (h : Heap) : Runs [] h h
  | cons {h h₁ h' : Heap} {c : Call} {r : Answer} {calls : List (Call × Answer)}
      (hc : Allowed c h) (hrun : Returns (fun n => c.run n h) (r, h₁)) (rest : Runs calls h₁ h') :
      Runs ((c, r) :: calls) h h'

/-! ## What the calls are for -/

/-- A forest of chunks with their headers, between two calls. -/
structure Pool where
  forest : Forest Ptr
  info : Ptr → Info
  unmarked : ∀ a, (info a).loop = false

namespace Pool

def heap (P : Pool) : Heap := shape P.forest tidy P.info

def empty : Pool where
  forest := Forest.empty
  info := fun _ => freshInfo 0
  unmarked := fun _ => rfl

/-- The chunk stays when it is to be freed. -/
def Refuses (P : Pool) (a : Ptr) : Prop := Vetoes (P.info a)

/-- The same forest with another header. -/
def setInfo (P : Pool) (F : Forest Ptr) (a : Ptr) (i : Info) (hi : i.loop = false) : Pool where
  forest := F
  info := Function.update P.info a i
  unmarked := by
    intro c
    by_cases hc : c = a
    · rw [hc, Function.update_self, hi]
    · rw [Function.update_of_ne hc, P.unmarked]

/-- Another forest with the same headers. -/
def setForest (P : Pool) (F : Forest Ptr) : Pool := { P with forest := F }

end Pool

/-- A new chunk in front of the children of another one. -/
def Pool.Allocates (P : Pool) (mem context : Option Ptr) (size : Nat) (name : Option String)
    (r : Answer) (P' : Pool) : Prop :=
  match mem with
  | none => r = .ptr none ∧ P' = P
  | some a =>
      if size < maxTallocSize then
        r = .ptr (some a) ∧ P' = P.setInfo ((P.forest.sprout a).steal context a) a
          { freshInfo size with name := name } rfl
      else r = .ptr none ∧ P' = P

def Pool.Frees (P : Pool) (ptr : Option Ptr) (rc : Int) (P' : Pool) : Prop :=
  match ptr with
  | none => rc = -1 ∧ P' = P
  | some a =>
      (P.Refuses a ∧ rc = -1 ∧ P' = P) ∨
      (¬ P.Refuses a ∧ rc = 0 ∧ ∃ F, P.forest.Freed P.Refuses a F ∧ P' = P.setForest F)

/-- A chunk with another size, and maybe at another address. -/
def Pool.Reallocates (P : Pool) (mem context ptr : Option Ptr) (size : Nat) (name : Option String)
    (r : Answer) (P' : Pool) : Prop :=
  if size = 0 then r = .ptr none ∧ ∃ rc, P.Frees ptr rc P'
  else if maxTallocSize ≤ size then r = .ptr none ∧ P' = P
  else
    match ptr with
    | none => P.Allocates mem context size name r P'
    | some a =>
        match mem with
        | none => r = .ptr none ∧ P' = P
        | some b =>
            r = .ptr (some b) ∧ P' = P.setInfo (P.forest.map (Equiv.swap a b)) b
              (resized size name (P.info a)) (P.unmarked a)

/-- What a call does to the forest and its headers. -/
def Pool.Does (P : Pool) : Call → Answer → Pool → Prop
  | .alloc mem context size name, r, P' => P.Allocates mem context size name r P'
  | .realloc mem context ptr size name, r, P' =>
      P.Reallocates mem context ptr size name r P'
  | .steal newCtx ptr, r, P' =>
      match ptr with
      | none => r = .ptr none ∧ P' = P
      | some a => r = .ptr (some a) ∧ P' = P.setForest (P.forest.steal newCtx a)
  | .setDestructor a rc, r, P' =>
      r = .void ∧ P' = P.setInfo P.forest a { P.info a with destructor := rc.map .fn }
        (P.unmarked a)
  | .freeChildren ptr, r, P' =>
      match ptr with
      | none => r = .void ∧ P' = P
      | some a => r = .void ∧ ∃ F, P.forest.Cleared P.Refuses (P.forest.parent a) a F ∧
          P' = P.setForest F
  | .free ptr, r, P' => ∃ rc, r = .rc rc ∧ P.Frees ptr rc P'

section Simulation

variable {P : Pool} {a : Ptr} {context mem ptr : Option Ptr}

theorem live_iff : Live ptr P.heap ↔ ∀ p, ptr = some p → p ∈ P.forest.nodes :=
  forall_congr' (fun _ => imp_congr_right (fun _ => shape_isSome))

theorem free_iff : P.heap a = none ↔ a ∉ P.forest.nodes := by
  rw [← Option.not_isSome_iff_eq_none]
  exact not_congr shape_isSome

theorem alloc_simulates (size : Nat) (name : Option String) (hctx : Live context P.heap)
    (hmem : ∀ b, mem = some b → P.heap b = none) :
    ∃ r P', P.Allocates mem context size name (.ptr r) P' ∧
      tallocNamedConst mem context size name P.heap = some (r, P'.heap) := by
  cases mem with
  | none =>
      refine ⟨none, P, ⟨rfl, rfl⟩, ?_⟩
      rw [tallocNamedConst, talloc]
      split
      · rfl
      · rfl
  | some b =>
      by_cases hsize : size < maxTallocSize
      · have hb : b ∉ P.forest.nodes := free_iff.mp (hmem b rfl)
        refine ⟨some b, _, by rw [Pool.Allocates, if_pos hsize]; exact ⟨rfl, rfl⟩, ?_⟩
        have hnode : b ∈ ((P.forest.sprout b).steal context b).nodes := by
          rw [Forest.steal_nodes]
          exact Finset.mem_insert_self b _
        rw [tallocNamedConst, Pool.heap,
          talloc_shape hb (settled_tidy _) rfl (live_iff.mp hctx) hsize]
        simp only [Option.bind_eq_bind, Option.bind_some]
        rw [edit_info (i := { freshInfo size with name := name }) hnode
          (fun _ _ => by rw [Function.update_self]), Function.update_idem]
        rfl
      · refine ⟨none, P, by rw [Pool.Allocates, if_neg hsize]; exact ⟨rfl, rfl⟩, ?_⟩
        unfold tallocNamedConst talloc
        rw [if_pos (by omega)]
        rfl

theorem free_simulates (hptr : Live ptr P.heap) :
    ∃ rc P', P.Frees ptr rc P' ∧ Returns (fun n => tallocFree n ptr P.heap) (rc, P'.heap) := by
  cases ptr with
  | none =>
      refine ⟨-1, P, ⟨rfl, rfl⟩, (Returns.pure _).congr (fun n => ?_)⟩
      cases n with
      | zero => rfl
      | succ n => rfl
  | some a =>
      have ha := live_iff.mp hptr a rfl
      by_cases hveto : P.Refuses a
      · exact ⟨-1, P, .inl ⟨hveto, rfl, rfl⟩, free_veto ha (P.unmarked a) hveto⟩
      · obtain ⟨F, hF, hret⟩ := tallocFree_shape ha P.unmarked hveto
        exact ⟨0, P.setForest F, .inr ⟨hveto, rfl, F, hF, rfl⟩, hret⟩

theorem steal_target (hctx : Live context P.heap)
    (hpar : ∀ p, context = some p → Returns (fun n => tallocIsParent n (some p) a P.heap) 0) :
    P.forest.Target context a := by
  intro p hp
  have hpn := live_iff.mp hctx p hp
  obtain ⟨r, -, hzero, hret⟩ := isParent_shape P.info a hpn
  exact ⟨hpn, hzero.mp (hret.unique (hpar p hp))⟩

theorem realloc_simulates (size : Nat) (name : Option String) (hctx : Live context P.heap)
    (hptr : Live ptr P.heap)
    (hmem : ∀ b, mem = some b → P.heap b = none ∨ ptr = some b) :
    ∃ r P', P.Reallocates mem context ptr size name (.ptr r) P' ∧
      Returns (fun n => tallocRealloc n mem context ptr size name P.heap) (r, P'.heap) := by
  by_cases hzero : size = 0
  · obtain ⟨rc, P', hfrees, hret⟩ := free_simulates hptr
    refine ⟨none, P', ?_, hret.out (fun r => (none, r.2)) (fun n => ?_)⟩
    · unfold Pool.Reallocates
      rw [if_pos hzero]
      exact ⟨rfl, rc, hfrees⟩
    · unfold tallocRealloc
      rw [if_pos hzero]
      rfl
  by_cases hsize : maxTallocSize ≤ size
  · refine ⟨none, P, ?_, (Returns.pure _).congr (fun n => ?_)⟩
    · unfold Pool.Reallocates
      rw [if_neg hzero, if_pos hsize]
      exact ⟨rfl, rfl⟩
    · unfold tallocRealloc
      rw [if_neg hzero, if_pos hsize]
  cases ptr with
  | none =>
      obtain ⟨r, P', halloc, hrun⟩ := alloc_simulates size name hctx
        (fun b hb => (hmem b hb).resolve_right (by simp))
      refine ⟨r, P', ?_, (Returns.pure _).congr (fun n => ?_)⟩
      · unfold Pool.Reallocates
        rw [if_neg hzero, if_neg hsize]
        exact halloc
      · unfold tallocRealloc
        rw [if_neg hzero, if_neg hsize]
        exact hrun
  | some a =>
      have ha := live_iff.mp hptr a rfl
      cases mem with
      | none =>
          refine ⟨none, P, ?_, (Returns.pure _).congr (fun n => ?_)⟩
          · unfold Pool.Reallocates
            rw [if_neg hzero, if_neg hsize]
            exact ⟨rfl, rfl⟩
          unfold tallocRealloc
          rw [if_neg hzero, if_neg hsize]
          show (shape P.forest tidy P.info a).bind _ = _
          rw [shape_tidy ha]
          rfl
      | some b =>
          have hb : Landing P.forest a b := by
            rcases hmem b rfl with h | h
            · exact .inr (free_iff.mp h)
            · exact .inl (Option.some.inj h).symm
          refine ⟨some b, P.setInfo (P.forest.map (Equiv.swap a b)) b (resized size name (P.info a))
            (P.unmarked a), ?_, (Returns.pure _).congr
            (fun n => realloc_shape n context size name ha hb hzero (by omega))⟩
          unfold Pool.Reallocates
          rw [if_neg hzero, if_neg hsize]
          exact ⟨rfl, rfl⟩

/-- **Every call** that is allowed returns, and does to the memory what it does
    to the forest. -/
theorem call_simulates (P : Pool) (c : Call) (h : Allowed c P.heap) :
    ∃ r P', P.Does c r P' ∧ Returns (fun n => c.run n P.heap) (r, P'.heap) := by
  cases c with
  | alloc mem context size name =>
      obtain ⟨r, P', hdoes, hrun⟩ := alloc_simulates size name h.1 h.2
      refine ⟨.ptr r, P', hdoes, (Returns.pure _).congr (fun n => ?_)⟩
      rw [Call.run, hrun]
      rfl
  | realloc mem context ptr size name =>
      obtain ⟨r, P', hdoes, hret⟩ := realloc_simulates size name h.1 h.2.1 h.2.2
      exact ⟨.ptr r, P', hdoes, hret.out (fun r => (Answer.ptr r.1, r.2)) (fun n => rfl)⟩
  | steal newCtx ptr =>
      cases ptr with
      | none => exact ⟨.ptr none, P, ⟨rfl, rfl⟩, Returns.pure _⟩
      | some a =>
          have ha := live_iff.mp h.2.1 a rfl
          have hP := steal_target h.1 (fun p hp => h.2.2 p a hp rfl)
          refine ⟨.ptr (some a), _, ⟨rfl, rfl⟩, (Returns.pure _).congr (fun n => ?_)⟩
          rw [Call.run, Pool.heap, steal_shape ha (settled_tidy _) rfl hP]
          rfl
  | setDestructor a rc =>
      have ha := live_iff.mp h a rfl
      refine ⟨.void, _, ⟨rfl, rfl⟩, (Returns.pure _).congr (fun n => ?_)⟩
      rw [Call.run, tallocSetDestructor, Pool.heap,
        edit_info (i := { P.info a with destructor := rc.map .fn }) ha (fun _ _ => rfl)]
      rfl
  | freeChildren ptr =>
      cases ptr with
      | none => exact ⟨.void, P, ⟨rfl, rfl⟩, Returns.pure _⟩
      | some a =>
          have ha := live_iff.mp h a rfl
          obtain ⟨F, hF, hret⟩ := tallocFreeChildren_shape ha P.unmarked
          exact ⟨.void, P.setForest F, ⟨rfl, F, hF, rfl⟩,
            hret.out (fun h => (Answer.void, h)) (fun n => rfl)⟩
  | free ptr =>
      obtain ⟨rc, P', hfrees, hret⟩ := free_simulates h
      exact ⟨.rc rc, P', ⟨rc, rfl, hfrees⟩,
        hret.out (fun r => (Answer.rc r.1, r.2)) (fun n => rfl)⟩

/-- The calls of a run, as what they do to a forest. -/
inductive Pool.Runs : List (Call × Answer) → Pool → Pool → Prop
  | nil (P : Pool) : Pool.Runs [] P P
  | cons {P P₁ P' : Pool} {c : Call} {r : Answer} {calls : List (Call × Answer)}
      (hdoes : P.Does c r P₁) (rest : Pool.Runs calls P₁ P') : Pool.Runs ((c, r) :: calls) P P'

/-- The memory after the run: a group with two tests.  One of them has the path of
    a third test, which did not go when that test was freed. -/
def sampleTable : List (Ptr × Chunk) :=
  [(1, { toLinks := ⟨none, none, none⟩, toInfo := ⟨none, some "tests", 8, false⟩,
         child := some 5 }),
   (5, { toLinks := ⟨some 3, none, some 1⟩, toInfo := ⟨none, some "test", 16, false⟩,
         child := some 6 }),
   (6, { toLinks := ⟨none, none, some 5⟩, toInfo := ⟨none, some "path", 4, false⟩,
         child := none }),
   (3, { toLinks := ⟨none, some 5, none⟩, toInfo := ⟨none, some "test", 16, false⟩,
         child := some 4 }),
   (4, { toLinks := ⟨none, none, some 3⟩,
         toInfo := ⟨some (.fn (-1)), some "path", 4, false⟩, child := none })]

def sample : Heap := fun a => sampleTable.lookup a

def sampleCalls : List (Call × Answer) :=
  [(.alloc (some 1) none 8 (some "tests"), .ptr (some 1)),
   (.alloc (some 2) (some 1) 16 (some "test"), .ptr (some 2)),
   (.alloc (some 3) (some 1) 16 (some "test"), .ptr (some 3)),
   (.alloc (some 4) (some 2) 4 (some "path"), .ptr (some 4)),
   (.alloc (some 5) (some 1) 16 (some "test"), .ptr (some 5)),
   (.alloc (some 6) (some 5) 4 (some "path"), .ptr (some 6)),
   (.setDestructor 4 (some (-1)), .void),
   (.free (some 4), .rc (-1)),
   (.free (some 2), .rc 0),
   (.steal (some 3) (some 4), .ptr (some 4))]

/-- The memory after so many of the calls. -/
def sampleHeap (k : Nat) : Heap :=
  (((sampleCalls.map Prod.fst).take k).foldlM
    (fun (h : Heap) (c : Call) => (c.run 9 h).map Prod.snd) noChunk).getD noChunk

theorem sampleHeap_last : sampleHeap 10 = sample := by
  ext1 a
  by_cases ha : a < 7
  · interval_cases a <;> rfl
  · obtain ⟨n, rfl⟩ := Nat.exists_eq_add_of_le' (not_lt.mp ha)
    rfl

theorem sample_runs : Runs sampleCalls noChunk sample := by
  have hlive {h : Heap} {p : Ptr} (hp : (h p).isSome) : Live (some p) h := by
    rintro q ⟨⟩
    exact hp
  have hmem {h : Heap} {p : Ptr} (hp : h p = none) : ∀ b, some p = some b → h b = none := by
    rintro b ⟨⟩
    exact hp
  have hstep (k : Nat) {c : Call} {r : Answer} {calls : List (Call × Answer)}
      (hc : Allowed c (sampleHeap k))
      (hrun : ∀ m, c.run (m + 9) (sampleHeap k) = some (r, sampleHeap (k + 1)))
      (rest : Runs calls (sampleHeap (k + 1)) sample) :
      Runs ((c, r) :: calls) (sampleHeap k) sample := by
    refine .cons hc ⟨9, fun n hn => ?_⟩ rest
    obtain ⟨m, rfl⟩ := Nat.exists_eq_add_of_le' hn
    exact hrun m
  refine hstep 0 ⟨by simp [Live], hmem rfl⟩ (fun _ => rfl) ?_
  refine hstep 1 ⟨hlive rfl, hmem rfl⟩ (fun _ => rfl) ?_
  refine hstep 2 ⟨hlive rfl, hmem rfl⟩ (fun _ => rfl) ?_
  refine hstep 3 ⟨hlive rfl, hmem rfl⟩ (fun _ => rfl) ?_
  refine hstep 4 ⟨hlive rfl, hmem rfl⟩ (fun _ => rfl) ?_
  refine hstep 5 ⟨hlive rfl, hmem rfl⟩ (fun _ => rfl) ?_
  refine hstep 6 (hlive rfl) (fun _ => rfl) ?_
  refine hstep 7 (hlive rfl) (fun _ => rfl) ?_
  refine hstep 8 (hlive rfl) (fun _ => rfl) ?_
  refine hstep 9 ⟨hlive rfl, hlive rfl, ?_⟩ (fun _ => rfl) ?_
  · -- the test that it is moved to is not below the path
    rintro p a ⟨⟩ ⟨⟩
    refine ⟨9, fun n hn => ?_⟩
    obtain ⟨m, rfl⟩ := Nat.exists_eq_add_of_le' hn
    rfl
  · rw [sampleHeap_last]
    exact .nil sample

theorem empty_heap : Pool.empty.heap = noChunk := by
  funext a
  show shape Forest.empty tidy (fun _ => freshInfo 0) a = none
  rw [shape]
  exact if_neg (Finset.notMem_empty a)

theorem Runs.simulates {calls : List (Call × Answer)} {h' : Heap} (hr : Runs calls P.heap h') :
    ∃ P', Pool.Runs calls P P' ∧ h' = P'.heap := by
  generalize hh : P.heap = h at hr
  induction hr generalizing P with
  | nil h => exact ⟨P, .nil P, hh.symm⟩
  | cons hc hrun _ ih =>
      subst hh
      obtain ⟨r, P₁, hdoes, hret⟩ := call_simulates P _ hc
      obtain ⟨rfl, rfl⟩ := Prod.mk.inj (hret.unique hrun)
      obtain ⟨P', hP', hh'⟩ := ih rfl
      exact ⟨P', .cons hdoes hP', hh'⟩

/-- **A run of calls** from an empty memory is a run of what they do to a forest,
    and its memory is that of the forest at the end. -/
theorem runs_refine {calls : List (Call × Answer)} {h : Heap} (hr : Runs calls noChunk h) :
    ∃ P, Pool.Runs calls Pool.empty P ∧ h = P.heap := by
  rw [← empty_heap] at hr
  exact hr.simulates

theorem runs_refine_sample :
    ∃ P, Pool.Runs sampleCalls Pool.empty P ∧ sample = P.heap :=
  runs_refine sample_runs

/-- The memory of a program is always that of a forest. -/
theorem runs_pool {calls : List (Call × Answer)} {h : Heap} (hr : Runs calls noChunk h) :
    ∃ P : Pool, h = P.heap := by
  rw [← empty_heap] at hr
  obtain ⟨P, -, hP⟩ := hr.simulates
  exact ⟨P, hP⟩

/-! ## Links that fit -/

/-- Each link of the chunk `t` at `a` leads to a chunk that points back. -/
structure Linked (h : Heap) (a : Ptr) (t : Chunk) : Prop where
  next     : ∀ b, t.next = some b → ∃ u, h b = some u ∧ u.prev = some a
  prev     : ∀ b, t.prev = some b → ∃ u, h b = some u ∧ u.next = some a
  child    : ∀ c, t.child = some c → ∃ u, h c = some u ∧ u.parent = some a ∧ u.prev = none
  parent   : ∀ p, t.parent = some p → ∃ u, h p = some u ∧ u.child = some a ∧ t.prev = none
  unmarked : t.loop = false

theorem Pool.linked {t : Chunk} (ha : P.heap a = some t) : Linked P.heap a t := by
  have hmem : a ∈ P.forest.nodes := shape_isSome.mp (by
    show (P.heap a).isSome
    rw [ha]
    rfl)
  obtain rfl : chunkOf P.forest P.info a = t :=
    Option.some.inj ((shape_tidy hmem).symm.trans ha)
  refine ⟨?_, ?_, ?_, ?_, P.unmarked a⟩
  · intro b hb
    exact ⟨_, shape_tidy (next_mem hb), Forest.next_iff_prev.mp hb⟩
  · intro b hb
    exact ⟨_, shape_tidy (prev_mem hb), Forest.next_iff_prev.mpr hb⟩
  · intro c hc
    exact ⟨_, shape_tidy (first_mem hc), rowLinks_parent.mpr hc, (Forest.first_iff.mp hc).2⟩
  · intro p hp
    have hfirst := rowLinks_parent.mp hp
    exact ⟨_, shape_tidy (parent_mem (Forest.first_child hfirst)), hfirst,
      (Forest.first_iff.mp hfirst).2⟩

/-- **No run** of allowed calls gets to a memory in which a link does not fit, or
    in which an allowed call is a fault or does not return. -/
theorem runs_linked {calls : List (Call × Answer)} {h : Heap} (hr : Runs calls noChunk h) :
    (∀ a t, h a = some t → Linked h a t) ∧
      ∀ c, Allowed c h → ∃ r h', Returns (fun n => c.run n h) (r, h') := by
  obtain ⟨P, rfl⟩ := runs_pool hr
  refine ⟨fun a t ha => Pool.linked ha, fun c hc => ?_⟩
  obtain ⟨r, P', -, hret⟩ := call_simulates P c hc
  exact ⟨r, P'.heap, hret⟩

theorem runs_linked_sample :
    (∀ a t, sample a = some t → Linked sample a t) ∧
      ∀ c, Allowed c sample → ∃ r h', Returns (fun n => c.run n sample) (r, h') :=
  runs_linked sample_runs

end Simulation

end Talloc
