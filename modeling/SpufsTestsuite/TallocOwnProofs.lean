import Mathlib
import SpufsTestsuite.TallocTreeProofs

/-! # talloc — rules for who owns what

    A program without destructors can be followed by the parents of its chunks
    alone.  For each function of talloc there is one rule: the call returns, and
    afterwards these are the chunks and these are their parents.

    The addresses come from `malloc()` and `realloc()`, which may return any that
    is not in use (`Allocator`). -/

namespace Talloc

open Fuel (Returns)

/-- `malloc()` and `realloc()`: an address that is not in use, if there is one, or
    for `realloc()` the old one.  They may answer every time in another way. -/
structure Allocator where
  malloc : Nat → Heap → Ptr
  realloc : Nat → Ptr → Heap → Ptr
  malloc_free : ∀ k (h : Heap), (∃ p, h p = none) → h (malloc k h) = none
  realloc_free : ∀ k p (h : Heap), realloc k p h = p ∨ h (realloc k p h) = none

/-- No destructor of the pool refuses. -/
def Pool.Calm (P : Pool) : Prop := ∀ c, ¬ P.Refuses c

/-- A chunk that belongs to nobody. -/
def Pool.Root (P : Pool) (c : Ptr) : Prop := c ∈ P.forest.nodes ∧ P.forest.parent c = none

/-- There is always an address that is not in use. -/
theorem Pool.exists_free (P : Pool) : ∃ p, P.heap p = none := by
  obtain ⟨p, hp⟩ := Infinite.exists_notMem_finset P.forest.nodes
  exact ⟨p, free_iff.mpr hp⟩

/-! ## What may happen to the chunks -/

variable {P P' : Pool} {a b c p : Ptr} {context : Option Ptr} {size : Nat}

/-- One chunk more. -/
structure Grown (P P' : Pool) (a : Ptr) (context : Option Ptr) : Prop where
  calm   : P'.Calm
  fresh  : a ∉ P.forest.nodes
  nodes  : ∀ c, c ∈ P'.forest.nodes ↔ c = a ∨ c ∈ P.forest.nodes
  owner  : P'.forest.parent a = context
  others : ∀ c, c ≠ a → P'.forest.parent c = P.forest.parent c

/-- A chunk has another parent. -/
structure Handed (P P' : Pool) (a : Ptr) (context : Option Ptr) : Prop where
  calm   : P'.Calm
  nodes  : ∀ c, c ∈ P'.forest.nodes ↔ c ∈ P.forest.nodes
  owner  : P'.forest.parent a = context
  others : ∀ c, c ≠ a → P'.forest.parent c = P.forest.parent c

/-- A chunk has another address, also as the parent of others. -/
structure Moved (P P' : Pool) (a b : Ptr) : Prop where
  calm   : P'.Calm
  land   : Landing P.forest a b
  nodes  : ∀ c, c ∈ P'.forest.nodes ↔ c = b ∨ (c ≠ a ∧ c ∈ P.forest.nodes)
  owner  : P'.forest.parent b = P.forest.parent a
  others : ∀ c ∈ P.forest.nodes, c ≠ a → P'.forest.parent c =
    if P.forest.parent c = some a then some b else P.forest.parent c

/-- A chunk and all below it are gone. -/
structure Cut (P P' : Pool) (a : Ptr) : Prop where
  calm   : P'.Calm
  nodes  : ∀ c, c ∈ P'.forest.nodes ↔ c ∈ P.forest.nodes ∧ ¬ P.forest.Below a c
  others : ∀ c ∈ P'.forest.nodes, P'.forest.parent c = P.forest.parent c

theorem Grown.root (h : Grown P P' a context) :
    P'.Root c ↔ (c = a ∧ context = none) ∨ P.Root c := by
  rw [Pool.Root, Pool.Root, h.nodes]
  by_cases hc : c = a
  · subst hc
    simp [h.owner, h.fresh]
  · simp [hc, h.others c hc]

theorem Handed.root (h : Handed P P' a context) (ha : a ∈ P.forest.nodes) :
    P'.Root c ↔ (c = a ∧ context = none) ∨ (c ≠ a ∧ P.Root c) := by
  rw [Pool.Root, Pool.Root, h.nodes]
  by_cases hc : c = a
  · subst hc
    simp [h.owner, ha]
  · simp [hc, h.others c hc]

/-- The new address is nobody else's. -/
theorem Moved.ne (h : Moved P P' a b) (hc : c ∈ P.forest.nodes) (hca : c ≠ a) : c ≠ b := by
  rintro rfl
  exact h.land.elim hca (fun h => h hc)

theorem Moved.root (h : Moved P P' a b) :
    P'.Root c ↔ (c = b ∧ P.forest.parent a = none) ∨ (c ≠ a ∧ P.Root c) := by
  rw [Pool.Root, Pool.Root, h.nodes]
  by_cases hcb : c = b
  · subst hcb
    have hother : ¬ (c ≠ a ∧ c ∈ P.forest.nodes) := fun hc => h.ne hc.2 hc.1 rfl
    constructor
    · rintro ⟨-, hroot⟩
      exact .inl ⟨rfl, h.owner ▸ hroot⟩
    · rintro (⟨-, hroot⟩ | ⟨hca, hc, -⟩)
      · exact ⟨.inl rfl, h.owner.trans hroot⟩
      · exact absurd ⟨hca, hc⟩ hother
  · constructor
    · rintro ⟨hc, hroot⟩
      obtain ⟨hca, hc⟩ := hc.resolve_left hcb
      rw [h.others c hc hca] at hroot
      refine .inr ⟨hca, hc, ?_⟩
      by_cases hpa : P.forest.parent c = some a
      · simp [hpa] at hroot
      · rwa [if_neg hpa] at hroot
    · rintro (⟨rfl, -⟩ | ⟨hca, hc, hroot⟩)
      · exact absurd rfl hcb
      · refine ⟨.inr ⟨hca, hc⟩, ?_⟩
        rw [h.others c hc hca, hroot, if_neg (by simp)]

/-- Nobody becomes a root when a root is freed. -/
theorem Cut.root (h : Cut P P' a) : P'.Root c ↔ c ≠ a ∧ P.Root c := by
  constructor
  · rintro ⟨hc, hroot⟩
    obtain ⟨hcP, hb⟩ := (h.nodes c).mp hc
    refine ⟨?_, hcP, (h.others c hc).symm.trans hroot⟩
    rintro rfl
    exact hb .refl
  · rintro ⟨hca, hc, hroot⟩
    have hc' : c ∈ P'.forest.nodes :=
      (h.nodes c).mpr ⟨hc, fun hb => hca (Forest.below_root hroot hb).symm⟩
    exact ⟨hc', (h.others c hc').trans hroot⟩

/-! ### Who is a child of whom then -/

theorem Grown.child_iff (h : Grown P P' a context) :
    P'.forest.Child p c ↔ (c = a ∧ context = some p) ∨ P.forest.Child p c := by
  by_cases hc : c = a
  · subst hc
    have hno : ¬ P.forest.Child p c := fun hp => h.fresh (P.forest.closed hp).1
    rw [Forest.Child, h.owner]
    exact ⟨fun hp => .inl ⟨rfl, hp⟩, fun hp => (hp.resolve_right hno).2⟩
  · rw [Forest.Child, Forest.Child, h.others c hc]
    exact ⟨.inr, fun hp => hp.resolve_left (fun h => hc h.1)⟩

/-- What was below a chunk still is. -/
theorem Grown.below (h : Grown P P' a context) (hb : P.forest.Below p c) : P'.forest.Below p c :=
  hb.lift id (fun _ _ hchild => h.child_iff.mpr (.inr hchild))

theorem Handed.child_iff (h : Handed P P' a context) :
    P'.forest.Child p c ↔ (c = a ∧ context = some p) ∨ (c ≠ a ∧ P.forest.Child p c) := by
  by_cases hc : c = a
  · subst hc
    rw [Forest.Child, h.owner]
    exact ⟨fun hp => .inl ⟨rfl, hp⟩, fun hp => (hp.resolve_right (fun h => h.1 rfl)).2⟩
  · rw [Forest.Child, Forest.Child, h.others c hc]
    exact ⟨fun hp => .inr ⟨hc, hp⟩, fun hp => (hp.resolve_left (fun h => hc h.1)).2⟩

/-- The children keep their parent, under its new address. -/
theorem Moved.child (h : Moved P P' a b) (hp : P.forest.Child p c) (hca : c ≠ a) :
    P'.forest.Child (if p = a then b else p) c := by
  rw [Forest.Child, h.others c (P.forest.closed hp).1 hca, hp]
  by_cases hpa : p = a
  · rw [if_pos (by rw [hpa]), if_pos hpa]
  · rw [if_neg (by simpa using hpa), if_neg hpa]

theorem Moved.of_child {q : Ptr} (h : Moved P P' a b) (hq : P'.forest.Child q c) :
    (c = b ∧ P.forest.Child q a) ∨
      (c ≠ a ∧ ∃ p, P.forest.Child p c ∧ q = if p = a then b else p) := by
  rcases (h.nodes c).mp (P'.forest.closed hq).1 with rfl | ⟨hca, hc⟩
  · exact .inl ⟨rfl, h.owner.symm.trans hq⟩
  · refine .inr ⟨hca, ?_⟩
    rw [Forest.Child, h.others c hc hca] at hq
    by_cases hpa : P.forest.parent c = some a
    · rw [if_pos hpa] at hq
      exact ⟨a, hpa, ((if_pos rfl).trans (Option.some.inj hq)).symm⟩
    · rw [if_neg hpa] at hq
      have hne : q ≠ a := fun heq => hpa (heq ▸ hq)
      exact ⟨q, hq, (if_neg hne).symm⟩

theorem Cut.child_iff (h : Cut P P' a) :
    P'.forest.Child p c ↔ P.forest.Child p c ∧ ¬ P.forest.Below a c := by
  constructor
  · intro hp
    have hc := (P'.forest.closed hp).1
    exact ⟨(h.others c hc).symm.trans hp, ((h.nodes c).mp hc).2⟩
  · rintro ⟨hp, hb⟩
    have hc := (h.nodes c).mpr ⟨(P.forest.closed hp).1, hb⟩
    exact (h.others c hc).trans hp

/-! ## The rules -/

/-- A new header does not refuse, and the others are as they were. -/
theorem Pool.Calm.setInfo {F : Forest Ptr} {i : Info} {hi : i.loop = false} (hP : P.Calm)
    (hd : ¬ Vetoes i) : (P.setInfo F a i hi).Calm := by
  intro c
  show ¬ Vetoes (Function.update P.info a i c)
  by_cases hc : c = a
  · rw [hc, Function.update_self]
    exact hd
  · rw [Function.update_of_ne hc]
    exact hP c

theorem alloc_rule (name : Option String) (hP : P.Calm) (ha : P.heap a = none)
    (hctx : ∀ p, context = some p → p ∈ P.forest.nodes) (hsize : size < maxTallocSize) :
    ∃ P', Grown P P' a context ∧
      tallocNamedConst (some a) context size name P.heap = some (some a, P'.heap) := by
  have hfree := free_iff.mp ha
  obtain ⟨r, P', halloc, hrun⟩ := alloc_simulates size name (live_iff.mpr hctx)
    (fun b (hb : some a = some b) => by rw [← Option.some.inj hb]; exact ha)
  rw [Pool.Allocates, if_pos hsize] at halloc
  obtain ⟨hr, rfl⟩ := halloc
  obtain rfl : r = some a := by
    injection hr
  refine ⟨_, ⟨hP.setInfo (by simp [Vetoes, freshInfo]), hfree, fun c => ?_, ?_, fun c hc => ?_⟩,
    hrun⟩
  · show c ∈ ((P.forest.sprout a).steal context a).nodes ↔ _
    rw [Forest.steal_nodes]
    exact Finset.mem_insert
  · exact Forest.steal_parent_self (Finset.mem_insert_self a _) (sprout_target hfree hctx)
  · exact Forest.steal_parent hc

theorem steal_rule (hP : P.Calm) (ha : a ∈ P.forest.nodes) (htarget : P.forest.Target context a) :
    ∃ P', Handed P P' a context ∧ tallocSteal context a P.heap = some P'.heap := by
  refine ⟨P.setForest (P.forest.steal context a), ⟨hP, fun c => ?_,
    Forest.steal_parent_self ha htarget, fun c hc => Forest.steal_parent hc⟩,
    steal_shape ha (settled_tidy _) rfl htarget⟩
  show c ∈ (P.forest.steal context a).nodes ↔ _
  rw [Forest.steal_nodes]

theorem realloc_rule (context : Option Ptr) (name : Option String) (hP : P.Calm)
    (ha : a ∈ P.forest.nodes) (hb : Landing P.forest a b) (hpos : size ≠ 0)
    (hsize : size < maxTallocSize) :
    ∃ P', Moved P P' a b ∧ ∀ n,
      tallocRealloc n (some b) context (some a) size name P.heap = some (some b, P'.heap) := by
  have hself : (Equiv.swap a b).symm b = a := by
    rw [Equiv.symm_swap, Equiv.swap_apply_right]
  have hnode {c : Ptr} (hca : c ≠ a) (hcb : c ≠ b) : (Equiv.swap a b).symm c = c := by
    rw [Equiv.symm_swap, Equiv.swap_apply_of_ne_of_ne hca hcb]
  refine ⟨P.setInfo (P.forest.map (Equiv.swap a b)) b (resized size name (P.info a)) (P.unmarked a),
    ⟨hP.setInfo (hP a), hb, fun c => ?_, ?_, ?_⟩,
    fun n => realloc_shape n context size name ha hb hpos hsize⟩
  · show c ∈ (P.forest.map (Equiv.swap a b)).nodes ↔ _
    rw [Forest.mem_map_nodes]
    by_cases hcb : c = b
    · rw [hcb, hself]
      exact iff_of_true ha (.inl rfl)
    · by_cases hca : c = a
      · rw [hca, Equiv.symm_swap, Equiv.swap_apply_left]
        have hba : b ∉ P.forest.nodes := hb.resolve_left (fun h => hcb (hca.trans h.symm))
        refine iff_of_false hba ?_
        rintro (h | h)
        · exact hcb (hca.trans h)
        · exact h.1 rfl
      · rw [hnode hca hcb]
        exact ⟨fun h => .inr ⟨hca, h⟩, fun h => (h.resolve_left hcb).2⟩
  · show (P.forest.map (Equiv.swap a b)).parent b = _
    rw [Forest.map_parent, hself]
    exact map_swap_other hb (fun d hd => parent_mem hd) (P.forest.parent_ne_self a)
  · intro c hc hca
    have hcb : c ≠ b := by
      rintro rfl
      exact hb.elim hca (fun h => h hc)
    show (P.forest.map (Equiv.swap a b)).parent c = _
    rw [Forest.map_parent, hnode hca hcb]
    exact map_swap hb (fun d hd => parent_mem hd)

theorem free_rule (hP : P.Calm) (ha : a ∈ P.forest.nodes) :
    ∃ P', Cut P P' a ∧ Returns (fun n => tallocFree n (some a) P.heap) (0, P'.heap) := by
  obtain ⟨F, hF, hret⟩ := tallocFree_shape ha P.unmarked (hP a)
  have hgone (c : Ptr) : P.forest.Gone P.Refuses a c ↔ P.forest.Below a c :=
    gone_iff_below (fun c _ => hP c)
  refine ⟨P.setForest F, ⟨hP, fun c => ?_, fun c hc => ?_⟩, hret⟩
  · rw [← hgone]
    exact hF.nodes c
  · exact hF.stays c hc (fun ⟨_, _, _, hkeep⟩ => hP c hkeep)

/-! ## Roots, and the children that are known -/

/-- The roots in `R` are in use, what is in `X` is kept apart from them, and `K`
    relates parents to children. -/
structure Owned (P : Pool) (R X : Finset Ptr) (K : Ptr → Ptr → Prop) : Prop where
  calm  : P.Calm
  root  : ∀ r ∈ R, P.Root r
  all   : ∀ c, P.Root c → c ∈ R ∨ c ∈ X
  aside : ∀ r ∈ R, r ∉ X
  live  : ∀ c ∈ X, c ∈ P.forest.nodes
  whole : ∀ p c, P.forest.Child p c → (p ∈ X ↔ c ∈ X)
  kids  : ∀ p c, K p c → P.forest.Child p c

variable {R X : Finset Ptr} {K K' : Ptr → Ptr → Prop} {r : Ptr}

theorem Owned.node (h : Owned P R X K) (hr : r ∈ R) : r ∈ P.forest.nodes := (h.root r hr).1

/-- A child is no root. -/
theorem Owned.kid_ne (h : Owned P R X K) (hr : r ∈ R) (hp : P.forest.Child p c) : c ≠ r := by
  rintro rfl
  rw [Forest.Child, (h.root c hr).2] at hp
  cases hp

theorem Owned.mono (h : Owned P R X K) (hK : ∀ p c, K' p c → K p c) : Owned P R X K' :=
  { h with kids := fun p c hc => h.kids p c (hK p c hc) }

/-- What is below one root is not below another one. -/
theorem Owned.apart (h : Owned P R X K) (ha : a ∈ R) (hr : r ∈ R) (hne : a ≠ r)
    (hc : P.forest.Below r c) : ¬ P.forest.Below a c := by
  intro hb
  rcases Forest.below_total hb hc with har | hra
  · exact hne (Forest.below_root (h.root r hr).2 har)
  · exact hne (Forest.below_root (h.root a ha).2 hra).symm

/-- What is kept apart is so with everything below. -/
theorem Owned.whole_below (h : Owned P R X K) (hb : P.forest.Below a c) : a ∈ X ↔ c ∈ X := by
  induction hb with
  | refl => exact Iff.rfl
  | tail _ hc ih => exact ih.trans (h.whole _ _ hc)

/-- Every chunk hangs from a root in use, or is kept apart. -/
theorem Owned.hangs (h : Owned P R X K) (hc : c ∈ P.forest.nodes) :
    (∃ r ∈ R, P.forest.Below r c) ∨ c ∈ X := by
  induction c using Forest.parent_induction (F := P.forest) with
  | step c ih =>
      cases hp : P.forest.parent c with
      | none =>
          rcases h.all c ⟨hc, hp⟩ with hr | hx
          · exact .inl ⟨c, hr, .refl⟩
          · exact .inr hx
      | some p =>
          rcases ih p hp (P.forest.closed hp).2 with ⟨r, hr, hb⟩ | hx
          · exact .inl ⟨r, hr, hb.tail hp⟩
          · exact .inr ((h.whole p c hp).mp hx)

theorem Owned.fresh (h : Owned P R X K) (hg : Grown P P' a context) : a ∉ R ∧ a ∉ X :=
  ⟨fun ha => hg.fresh (h.node ha), fun ha => hg.fresh (h.live a ha)⟩

/-- The new chunk is a root. -/
theorem Owned.grow (h : Owned P R X K) (hg : Grown P P' a none) : Owned P' (insert a R) X K := by
  refine ⟨hg.calm, ?_, ?_, ?_, ?_, ?_, ?_⟩
  · intro r hr
    rw [hg.root]
    exact (Finset.mem_insert.mp hr).imp (fun hra => ⟨hra, rfl⟩) (h.root r)
  · intro c hc
    rcases hg.root.mp hc with ⟨rfl, -⟩ | hc
    · exact .inl (Finset.mem_insert_self ..)
    · exact (h.all c hc).imp_left Finset.mem_insert_of_mem
  · intro r hr
    rcases Finset.mem_insert.mp hr with rfl | hr
    · exact (h.fresh hg).2
    · exact h.aside r hr
  · exact fun c hc => (hg.nodes c).mpr (.inr (h.live c hc))
  · intro p c hpc
    rcases hg.child_iff.mp hpc with ⟨-, hno⟩ | hpc
    · cases hno
    · exact h.whole p c hpc
  · exact fun p c hc => hg.child_iff.mpr (.inr (h.kids p c hc))

/-- The new chunk is a child, of one that is in use. -/
theorem Owned.grow_below (h : Owned P R X K) (hp : p ∉ X) (hg : Grown P P' a (some p)) :
    Owned P' R X (fun q c => K q c ∨ (q = p ∧ c = a)) := by
  refine ⟨hg.calm, fun r hr => hg.root.mpr (.inr (h.root r hr)), ?_, h.aside, ?_, ?_, ?_⟩
  · intro c hc
    rcases hg.root.mp hc with ⟨-, hno⟩ | hc
    · cases hno
    · exact h.all c hc
  · exact fun c hc => (hg.nodes c).mpr (.inr (h.live c hc))
  · intro q c hqc
    rcases hg.child_iff.mp hqc with ⟨rfl, hq⟩ | hqc
    · obtain rfl := Option.some.inj hq
      exact iff_of_false hp (h.fresh hg).2
    · exact h.whole q c hqc
  · rintro q c (hc | ⟨rfl, rfl⟩)
    · exact hg.child_iff.mpr (.inr (h.kids q c hc))
    · exact hg.owner

/-- The new chunk is kept apart. -/
theorem Owned.grow_aside (h : Owned P R X K) (hctx : ∀ p, context = some p → p ∈ X)
    (hg : Grown P P' a context) : Owned P' R (insert a X) K := by
  obtain ⟨haR, haX⟩ := h.fresh hg
  refine ⟨hg.calm, fun r hr => hg.root.mpr (.inr (h.root r hr)), ?_, ?_, ?_, ?_, ?_⟩
  · intro c hc
    rcases hg.root.mp hc with ⟨rfl, -⟩ | hc
    · exact .inr (Finset.mem_insert_self ..)
    · exact (h.all c hc).imp_right Finset.mem_insert_of_mem
  · intro r hr hrX
    rcases Finset.mem_insert.mp hrX with rfl | hrX
    · exact haR hr
    · exact h.aside r hr hrX
  · intro c hc
    exact (hg.nodes c).mpr ((Finset.mem_insert.mp hc).imp_right (h.live c))
  · intro p c hpc
    rw [Finset.mem_insert, Finset.mem_insert]
    rcases hg.child_iff.mp hpc with ⟨rfl, hp⟩ | hpc
    · exact iff_of_true (.inr (hctx p hp)) (.inl rfl)
    · obtain ⟨hc, hp⟩ := P.forest.closed hpc
      have hpa : p ≠ a := fun heq => hg.fresh (heq ▸ hp)
      have hca : c ≠ a := fun heq => hg.fresh (heq ▸ hc)
      exact (or_iff_right hpa).trans ((h.whole p c hpc).trans (or_iff_right hca).symm)
  · exact fun p c hc => hg.child_iff.mpr (.inr (h.kids p c hc))

/-- A root becomes a child, of one that is in use. -/
theorem Owned.hand (h : Owned P R X K) (ha : a ∈ R) (hp : p ∉ X) (hh : Handed P P' a (some p)) :
    Owned P' (R.erase a) X (fun q c => K q c ∨ (q = p ∧ c = a)) := by
  have hroot {c : Ptr} : P'.Root c ↔ c ≠ a ∧ P.Root c := by
    rw [hh.root (h.node ha)]
    simp
  refine ⟨hh.calm, ?_, ?_, fun r hr => h.aside r (Finset.mem_of_mem_erase hr), ?_, ?_, ?_⟩
  · intro r hr
    obtain ⟨hra, hr⟩ := Finset.mem_erase.mp hr
    exact hroot.mpr ⟨hra, h.root r hr⟩
  · intro c hc
    obtain ⟨hca, hc⟩ := hroot.mp hc
    exact (h.all c hc).imp_left (fun hr => Finset.mem_erase.mpr ⟨hca, hr⟩)
  · exact fun c hc => (hh.nodes c).mpr (h.live c hc)
  · intro q c hqc
    rcases hh.child_iff.mp hqc with ⟨rfl, hq⟩ | ⟨-, hqc⟩
    · obtain rfl := Option.some.inj hq
      exact iff_of_false hp (h.aside c ha)
    · exact h.whole q c hqc
  · rintro q c (hK | ⟨rfl, rfl⟩)
    · have hqc := h.kids q c hK
      exact hh.child_iff.mpr (.inr ⟨h.kid_ne ha hqc, hqc⟩)
    · exact hh.owner

theorem Owned.moved_live (h : Owned P R X K) (haX : a ∉ X) (hm : Moved P P' a b) :
    b ∉ X ∧ ∀ c ∈ X, c ∈ P'.forest.nodes := by
  have hne {c : Ptr} (hc : c ∈ X) : c ≠ a := fun heq => haX (heq ▸ hc)
  exact ⟨fun hb => hm.ne (h.live b hb) (hne hb) rfl,
    fun c hc => (hm.nodes c).mpr (.inr ⟨hne hc, h.live c hc⟩)⟩

/-- What moves and is not kept apart leaves what is as it was. -/
theorem Owned.moved_whole (h : Owned P R X K) (haX : a ∉ X) (hm : Moved P P' a b) :
    ∀ p c, P'.forest.Child p c → (p ∈ X ↔ c ∈ X) := by
  have hbX := (h.moved_live haX hm).1
  intro q c hqc
  rcases hm.of_child hqc with ⟨rfl, hqa⟩ | ⟨-, p, hpc, rfl⟩
  · exact iff_of_false (fun hq => haX ((h.whole q a hqa).mp hq)) hbX
  · have hwhole := h.whole p c hpc
    split
    · rename_i hpa
      exact iff_of_false hbX (fun hc => haX (hpa ▸ hwhole.mpr hc))
    · exact hwhole

/-- The children of a root that moves are those of the new address. -/
theorem Owned.move (h : Owned P R X K) (ha : a ∈ R) (hm : Moved P P' a b) :
    b ∉ R.erase a ∧
      Owned P' (insert b (R.erase a)) X (fun p c => ∃ q, K q c ∧ p = if q = a then b else q) := by
  have haX := h.aside a ha
  have hroot {c : Ptr} : P'.Root c ↔ c = b ∨ (c ≠ a ∧ P.Root c) := by
    rw [hm.root, (h.root a ha).2]
    simp
  refine ⟨?_, hm.calm, ?_, ?_, ?_, (h.moved_live haX hm).2, h.moved_whole haX hm, ?_⟩
  · intro hb
    obtain ⟨hba, hb⟩ := Finset.mem_erase.mp hb
    exact hm.ne (h.node hb) hba rfl
  · intro r hr
    refine hroot.mpr ((Finset.mem_insert.mp hr).imp_right (fun hr => ?_))
    obtain ⟨hra, hr⟩ := Finset.mem_erase.mp hr
    exact ⟨hra, h.root r hr⟩
  · intro c hc
    rcases hroot.mp hc with rfl | ⟨hca, hc⟩
    · exact .inl (Finset.mem_insert_self ..)
    · exact (h.all c hc).imp_left
        (fun hr => Finset.mem_insert_of_mem (Finset.mem_erase.mpr ⟨hca, hr⟩))
  · intro r hr
    rcases Finset.mem_insert.mp hr with rfl | hr
    · exact (h.moved_live haX hm).1
    · exact h.aside r (Finset.mem_of_mem_erase hr)
  · rintro p c ⟨q, hK, rfl⟩
    have hqc := h.kids q c hK
    exact hm.child hqc (h.kid_ne ha hqc)

/-- A child that moves is a child of the same parent. -/
theorem Owned.move_kid (h : Owned P R X K) (hr : r ∉ X) (ha : P.forest.Child r a)
    (hm : Moved P P' a b) :
    Owned P' R X (fun p c => (p = r ∧ c = b) ∨ (c ≠ a ∧ p ≠ a ∧ K p c)) := by
  have haX : a ∉ X := fun hx => hr ((h.whole r a ha).mpr hx)
  have hra : ¬ P.Root a := fun hroot => by cases ha.symm.trans hroot.2
  have hnone : P.forest.parent a ≠ none := fun hnone => by cases ha.symm.trans hnone
  have hroot {c : Ptr} : P'.Root c ↔ c ≠ a ∧ P.Root c := by
    rw [hm.root]
    exact or_iff_right (fun hno => hnone hno.2)
  refine ⟨hm.calm, ?_, ?_, h.aside, (h.moved_live haX hm).2, h.moved_whole haX hm, ?_⟩
  · intro s hs
    exact hroot.mpr ⟨fun heq => hra (heq ▸ h.root s hs), h.root s hs⟩
  · exact fun c hc => h.all c (hroot.mp hc).2
  · rintro p c (⟨rfl, rfl⟩ | ⟨hca, hpa, hK⟩)
    · exact hm.owner.trans ha
    · have hpc := hm.child (h.kids p c hK) hca
      rwa [if_neg hpa] at hpc

/-- What is kept apart may move as well. -/
theorem Owned.move_aside (h : Owned P R X K) (ha : a ∈ X) (hK : ∀ p c, K p c → p ∉ X)
    (hm : Moved P P' a b) : b ∉ X.erase a ∧ Owned P' R (insert b (X.erase a)) K := by
  have hne {c : Ptr} (hc : c ∉ X) : c ≠ a := fun heq => hc (heq ▸ ha)
  have hmem {c : Ptr} (hc : c ∈ P.forest.nodes) (hca : c ≠ a) :
      c ∈ insert b (X.erase a) ↔ c ∈ X := by
    simp [hm.ne hc hca, hca]
  refine ⟨?_, hm.calm, ?_, ?_, ?_, ?_, ?_, ?_⟩
  · intro hb
    obtain ⟨hba, hb⟩ := Finset.mem_erase.mp hb
    exact hm.ne (h.live b hb) hba rfl
  · intro r hr
    exact hm.root.mpr (.inr ⟨hne (h.aside r hr), h.root r hr⟩)
  · intro c hc
    rcases hm.root.mp hc with ⟨rfl, -⟩ | ⟨hca, hc⟩
    · exact .inr (Finset.mem_insert_self ..)
    · exact (h.all c hc).imp_right (hmem hc.1 hca).mpr
  · intro r hr hx
    exact h.aside r hr ((hmem (h.node hr) (hne (h.aside r hr))).mp hx)
  · intro c hc
    refine (hm.nodes c).mpr ((Finset.mem_insert.mp hc).imp_right (fun hc => ?_))
    obtain ⟨hca, hc⟩ := Finset.mem_erase.mp hc
    exact ⟨hca, h.live c hc⟩
  · intro q c hqc
    rcases hm.of_child hqc with ⟨rfl, hqa⟩ | ⟨hca, p, hpc, rfl⟩
    · have hqa' : q ≠ a := fun heq => P.forest.parent_ne_self a (heq ▸ hqa)
      rw [hmem (P.forest.closed hqa).2 hqa']
      exact iff_of_true ((h.whole q a hqa).mpr ha) (Finset.mem_insert_self ..)
    · obtain ⟨hc, hp⟩ := P.forest.closed hpc
      rw [hmem hc hca]
      split
      · rename_i hpa
        exact iff_of_true (Finset.mem_insert_self ..) ((h.whole p c hpc).mp (hpa ▸ ha))
      · rename_i hpa
        rw [hmem hp hpa]
        exact h.whole p c hpc
  · intro p c hpK
    have hpc := h.kids p c hpK
    have hpX := hK p c hpK
    have hcX : c ∉ X := fun hc => hpX ((h.whole p c hpc).mpr hc)
    have hpc' := hm.child hpc (hne hcX)
    rwa [if_neg (hne hpX)] at hpc'

/-- A root is freed, and all below it. -/
theorem Owned.cut (h : Owned P R X K) (ha : a ∈ R) (hc : Cut P P' a)
    (hK : ∀ p c, K p c → ∃ r ∈ R, a ≠ r ∧ P.forest.Below r c) : Owned P' (R.erase a) X K := by
  have haX := h.aside a ha
  refine ⟨hc.calm, ?_, ?_, fun r hr => h.aside r (Finset.mem_of_mem_erase hr), ?_, ?_, ?_⟩
  · intro r hr
    obtain ⟨hra, hr⟩ := Finset.mem_erase.mp hr
    exact hc.root.mpr ⟨hra, h.root r hr⟩
  · intro c hcr
    obtain ⟨hca, hcr⟩ := hc.root.mp hcr
    exact (h.all c hcr).imp_left (fun hr => Finset.mem_erase.mpr ⟨hca, hr⟩)
  · exact fun c hx => (hc.nodes c).mpr ⟨h.live c hx, fun hb => haX ((h.whole_below hb).mpr hx)⟩
  · exact fun p c hpc => h.whole p c (hc.child_iff.mp hpc).1
  · intro p c hpK
    obtain ⟨r, hr, hne, hb⟩ := hK p c hpK
    exact hc.child_iff.mpr ⟨h.kids p c hpK, h.apart ha hr hne hb⟩

/-- A root that moves or grows below is below no other root. -/
theorem Owned.target (h : Owned P R X K) (ha : a ∈ R) (hr : r ∈ R) (hne : a ≠ r)
    (hp : P.forest.Below r p) (hpn : p ∈ P.forest.nodes) : P.forest.Target (some p) a := by
  intro q hq
  obtain rfl := Option.some.inj hq
  exact ⟨hpn, h.apart ha hr hne hp⟩

/-- Before the first call. -/
theorem empty_owned : Owned Pool.empty ∅ ∅ (fun _ _ => False) where
  calm := fun _ => by simp [Pool.Refuses, Pool.empty, Vetoes, freshInfo]
  root := by simp
  all := fun c hc => absurd hc.1 (Finset.notMem_empty c)
  aside := by simp
  live := by simp
  whole := by simp
  kids := fun _ _ hno => hno.elim

/-- When no root is in use, the chunks are those kept apart. -/
theorem Owned.only_aside (h : Owned P ∅ X K) : P.forest.nodes = X := by
  ext c
  constructor
  · intro hc
    rcases h.hangs hc with ⟨r, hr, -⟩ | hx
    · cases hr
    · exact hx
  · exact h.live c

/-! ## All that is there -/

/-- The chunks that are not kept apart are those of the list, each of them once. -/
structure Listed (P : Pool) (X : Finset Ptr) (l : List Ptr) : Prop where
  nodup : l.Nodup
  aside : ∀ c ∈ l, c ∉ X
  nodes : ∀ c, c ∈ P.forest.nodes ↔ c ∈ X ∨ c ∈ l

section Listed

variable {l l' : List Ptr}

/-- When no root is in use, all chunks are kept apart. -/
theorem Owned.listed (h : Owned P ∅ X K) : Listed P X [] where
  nodup := List.nodup_nil
  aside := by simp
  nodes := fun c => by rw [h.only_aside]; simp

theorem Listed.perm (h : Listed P X l) (hl : l.Perm l') : Listed P X l' where
  nodup := hl.nodup_iff.mp h.nodup
  aside := fun c hc => h.aside c (hl.mem_iff.mpr hc)
  nodes := fun c => (h.nodes c).trans (or_congr_right hl.mem_iff)

theorem Listed.grow (h : Listed P X l) (hg : Grown P P' a context) : Listed P' X (a :: l) where
  nodup := List.nodup_cons.mpr ⟨fun ha => hg.fresh ((h.nodes a).mpr (.inr ha)), h.nodup⟩
  aside := by
    intro c hc
    rcases List.mem_cons.mp hc with rfl | hc
    · exact fun hx => hg.fresh ((h.nodes c).mpr (.inl hx))
    · exact h.aside c hc
  nodes := fun c => by rw [hg.nodes, h.nodes, List.mem_cons, or_left_comm]

theorem Listed.hand (h : Listed P X l) (hh : Handed P P' a context) : Listed P' X l :=
  { h with nodes := fun c => (hh.nodes c).trans (h.nodes c) }

/-- The one that moves is listed under its new address. -/
theorem Listed.move (h : Listed P X (a :: l)) (hm : Moved P P' a b) : Listed P' X (b :: l) := by
  obtain ⟨hal, hl⟩ := List.nodup_cons.mp h.nodup
  have haX := h.aside a List.mem_cons_self
  have hne {c : Ptr} (hc : c ∈ X ∨ c ∈ l) : c ≠ a := by
    rintro rfl
    exact hc.elim haX hal
  have hnode {c : Ptr} (hc : c ∈ X ∨ c ∈ l) : c ∈ P.forest.nodes :=
    (h.nodes c).mpr (hc.imp_right (List.mem_cons_of_mem _))
  refine ⟨List.nodup_cons.mpr ⟨fun hb => ?_, hl⟩, ?_, fun c => ?_⟩
  · exact hm.ne (hnode (.inr hb)) (hne (.inr hb)) rfl
  · intro c hc hx
    rcases List.mem_cons.mp hc with rfl | hc
    · exact hm.ne (hnode (.inl hx)) (hne (.inl hx)) rfl
    · exact h.aside c (List.mem_cons_of_mem _ hc) hx
  · rw [hm.nodes, List.mem_cons]
    constructor
    · rintro (rfl | ⟨hca, hc⟩)
      · exact .inr (.inl rfl)
      · rcases (h.nodes c).mp hc with hx | hc
        · exact .inl hx
        · exact .inr (.inr ((List.mem_cons.mp hc).resolve_left hca))
    · rintro (hx | rfl | hc)
      · exact .inr ⟨hne (.inl hx), hnode (.inl hx)⟩
      · exact .inl rfl
      · exact .inr ⟨hne (.inr hc), hnode (.inr hc)⟩

/-- What is made and freed at once leaves the chunks as they were. -/
theorem Listed.drop {P₁ : Pool} (h : Listed P X l) (hg : Grown P P₁ a none) (hcut : Cut P₁ P' a) :
    Listed P' X l := by
  have hleaf : ∀ c, P₁.forest.Below a c → c = a := by
    intro c hb
    induction hb with
    | refl => rfl
    | tail _ hchild ih =>
        subst ih
        rcases hg.child_iff.mp hchild with ⟨-, hno⟩ | hno
        · cases hno
        · exact absurd (P.forest.closed hno).2 hg.fresh
  refine ⟨h.nodup, h.aside, fun c => ?_⟩
  rw [← h.nodes, hcut.nodes, hg.nodes]
  constructor
  · rintro ⟨rfl | hc, hb⟩
    · exact absurd .refl hb
    · exact hc
  · intro hc
    exact ⟨.inr hc, fun hb => hg.fresh (hleaf c hb ▸ hc)⟩

end Listed

end Talloc
