import Mathlib
import SpufsTestsuite.TallocRunProofs

/-! # talloc — what a program sees of the tree

    The forest is not in the program.  What a program can ask is
    `talloc_parent`; the results here say in terms of it what the other functions
    do, in any memory that a run of calls gets to. -/

namespace Talloc

open Fuel (Returns)
open Relation (ReflTransGen)

/-- `talloc_parent_chunk` returns `p`. -/
def Parent (h : Heap) (a : Ptr) (p : Option Ptr) : Prop :=
  Returns (fun n => tallocParentChunk n (some a) h) p

/-- `a` is `c`, or its parent, or a parent of that, and so on. -/
def Above (h : Heap) (a c : Ptr) : Prop := ReflTransGen (fun p c => Parent h c (some p)) a c

/-- The chunks that go with `a` when it is freed: on from there, children whose
    destructor does not refuse. -/
inductive Falls (h : Heap) (a : Ptr) : Ptr → Prop
  | self : Falls h a a
  | child {p c : Ptr} {t : Chunk} (above : Falls h a p) (hp : Parent h c (some p))
      (ht : h c = some t) (hgo : ¬ Vetoes t.toInfo) : Falls h a c

section Seen

variable {P : Pool} {a b c p : Ptr} {q : Option Ptr} {h : Heap} {calls : List (Call × Answer)}

theorem heap_node (ha : a ∈ P.forest.nodes) :
    P.heap a = some (chunkOf P.forest P.info a) := shape_tidy ha

theorem heap_mem {t : Chunk} (ha : P.heap a = some t) :
    a ∈ P.forest.nodes ∧ t = chunkOf P.forest P.info a := by
  have hmem : a ∈ P.forest.nodes := by
    by_contra hno
    rw [free_iff.mpr hno] at ha
    cases ha
  exact ⟨hmem, Option.some.inj (ha.symm.trans (heap_node hmem))⟩

/-- No parent is found for what is not a chunk. -/
theorem parent_mem_nodes (h : Parent P.heap c q) : c ∈ P.forest.nodes := by
  by_contra hc
  obtain ⟨n, hn⟩ := h
  have hnone : tallocParentChunk (n + 1) (some c) P.heap = none := by
    show (firstSibling (n + 1) c P.heap).bind _ = none
    rw [firstSibling, free_iff.mpr hc]
    rfl
  exact absurd (hnone.symm.trans (hn (n + 1) (by omega))) (by simp)

theorem parent_iff (hc : c ∈ P.forest.nodes) : Parent P.heap c q ↔ P.forest.parent c = q := by
  have hret := parentChunk_shape P.info hc (settled_tidy _) (.row rfl rfl)
  constructor
  · exact fun h => hret.unique h
  · rintro rfl
    exact hret

theorem parent_some_iff : Parent P.heap c (some p) ↔ P.forest.Child p c :=
  ⟨fun h => (parent_iff (parent_mem_nodes h)).mp h,
    fun h => (parent_iff (P.forest.closed h).1).mpr h⟩

theorem above_iff : Above P.heap a c ↔ P.forest.Below a c := by
  have hrel : (fun p c => Parent P.heap c (some p)) = P.forest.Child := by
    funext p c
    exact propext parent_some_iff
  rw [Above, hrel]
  rfl

/-- `talloc_is_parent` says whether a chunk is above another one. -/
theorem isParent_above {t : Chunk} (hr : Runs calls noChunk h) (ha : h a = some t) (p : Ptr) :
    ∃ r, (r = 1 ↔ Above h p a) ∧ (r = 0 ↔ ¬ Above h p a) ∧
      Returns (fun n => tallocIsParent n (some a) p h) r := by
  obtain ⟨P, rfl⟩ := runs_pool hr
  rw [above_iff]
  exact isParent_shape P.info p (heap_mem ha).1

theorem falls_iff : Falls P.heap a c ↔ P.forest.Gone P.Refuses a c := by
  constructor
  · intro h
    induction h with
    | self => exact .refl
    | child _ hp ht hgo ih =>
        refine ih.tail ⟨parent_some_iff.mp hp, ?_⟩
        obtain ⟨-, rfl⟩ := heap_mem ht
        exact hgo
  · intro h
    induction h with
    | refl => exact .self
    | tail _ hbc ih =>
        exact .child ih (parent_some_iff.mpr hbc.1) (heap_node (P.forest.closed hbc.1).1) hbc.2

/-- **Free** releases what goes with the chunk and nothing else; what had a parent
    among that has the chunk's old parent now, and no header is changed. -/
theorem free_releases {t : Chunk} (hr : Runs calls noChunk h) (ha : h a = some t)
    (hgo : ¬ Vetoes t.toInfo) :
    ∃ h' q, Parent h a q ∧ Returns (fun n => tallocFree n (some a) h) (0, h') ∧
      (∀ c, h' c = none ↔ h c = none ∨ Falls h a c) ∧
      ∀ c t', h' c = some t' → ∃ t p, h c = some t ∧ t'.toInfo = t.toInfo ∧ Parent h c p ∧
        ((∃ b, p = some b ∧ Falls h a b) → Parent h' c q) ∧
        ((∀ b, p = some b → ¬ Falls h a b) → Parent h' c p) := by
  obtain ⟨P, rfl⟩ := runs_pool hr
  obtain ⟨hmem, rfl⟩ := heap_mem ha
  obtain ⟨F, hF, hret⟩ := tallocFree_shape hmem P.unmarked hgo
  refine ⟨(P.setForest F).heap, P.forest.parent a, (parent_iff hmem).mpr rfl, hret, ?_, ?_⟩
  · intro c
    rw [free_iff, free_iff, falls_iff]
    show c ∉ F.nodes ↔ _
    rw [hF.nodes, not_and_or, not_not]
    rfl
  · intro c t' ht'
    obtain ⟨hc, rfl⟩ := heap_mem ht'
    have hc' : c ∈ F.nodes := hc
    obtain ⟨hcP, hstays⟩ := (hF.nodes c).mp hc'
    refine ⟨_, P.forest.parent c, heap_node hcP, rfl, (parent_iff hcP).mpr rfl, ?_, ?_⟩
    · rintro ⟨b, hb, hfalls⟩
      have hgone := falls_iff.mp hfalls
      refine (parent_iff hc).mpr (hF.moved c ⟨b, hgone, hb, ?_⟩)
      by_contra hkeep
      exact hstays (hgone.tail ⟨hb, hkeep⟩)
    · intro hno
      refine (parent_iff hc).mpr (hF.stays c hc' ?_)
      rintro ⟨b, hgone, hb, -⟩
      exact hno b hb (falls_iff.mpr hgone)

theorem free_releases_sample :
    ∃ h' q, Parent sample 1 q ∧ Returns (fun n => tallocFree n (some 1) sample) (0, h') ∧
      (∀ c, h' c = none ↔ sample c = none ∨ Falls sample 1 c) ∧
      ∀ c t', h' c = some t' → ∃ t p, sample c = some t ∧ t'.toInfo = t.toInfo ∧
        Parent sample c p ∧ ((∃ b, p = some b ∧ Falls sample 1 b) → Parent h' c q) ∧
        ((∀ b, p = some b → ¬ Falls sample 1 b) → Parent h' c p) :=
  free_releases sample_runs rfl (by simp [Vetoes])

/-- The size of a chunk, as `talloc_get_size` has it. -/
def sizeAt (h : Heap) (c : Ptr) : Nat := ((h c).map (fun t => t.size)).getD 0

theorem total_sum {F : Forest Ptr} {info : Ptr → Info} (own : Chunk → Nat)
    (l : List (Ptr × Nat)) : total (sumWalk own) F info l =
      ((l.map Prod.fst).map (fun c => own (chunkOf F info c))).sum := by
  induction l with
  | nil => rfl
  | cons e l ih =>
      show own _ + total (sumWalk own) F info l = _
      rw [ih]
      rfl

open Classical in
theorem sum_shape (own : Chunk → Nat) (ha : a ∈ P.forest.nodes) :
    Returns (fun n => walk (sumWalk own) n a 0 P.heap)
      (∑ c ∈ P.forest.nodes.filter (P.forest.Below a), own (chunkOf P.forest P.info c),
        P.heap) := by
  obtain ⟨l, hl, hret⟩ :=
    walk_shape (sumWalk own) P.unmarked ha P.info 0 (fun c _ => rfl)
  rw [total_sum, Forest.Lists.sum_eq hl ha (fun c => own (chunkOf P.forest P.info c))] at hret
  exact hret

/-- If nobody below refuses, all that is below goes. -/
theorem gone_iff_below (hgo : ∀ c, P.forest.Below a c → ¬ P.Refuses c) :
    P.forest.Gone P.Refuses a c ↔ P.forest.Below a c := by
  constructor
  · exact fun h => h.below
  · intro h
    induction h with
    | refl => exact .refl
    | tail hab hbc ih => exact ih.tail ⟨hbc, hgo _ (hab.tail hbc)⟩

open Classical in
/-- **The totals** of a chunk are the number and the size of the chunks that a
    free of it releases, if none of them refuses. -/
theorem free_totals {t : Chunk} (hr : Runs calls noChunk h) (ha : h a = some t)
    (hgo : ∀ c t, Above h a c → h c = some t → ¬ Vetoes t.toInfo) :
    ∃ blocks size h', Returns (fun n => tallocTotalBlocks n a h) (blocks, h) ∧
      Returns (fun n => tallocTotalSize n (some a) h) (size, h) ∧
      Returns (fun n => tallocFree n (some a) h) (0, h') ∧
      ∀ chunks : Finset Ptr, (∀ c, c ∈ chunks ↔ h c ≠ none) →
        blocks = (chunks.filter (fun c => h' c = none)).card ∧
        size = ∑ c ∈ chunks.filter (fun c => h' c = none), sizeAt h c := by
  obtain ⟨P, rfl⟩ := runs_pool hr
  obtain ⟨hmem, rfl⟩ := heap_mem ha
  have hgo' : ∀ c, P.forest.Below a c → ¬ P.Refuses c :=
    fun c hc => hgo c _ (above_iff.mpr hc) (heap_node (hc.node' hmem))
  obtain ⟨F, hF, hret⟩ := tallocFree_shape hmem P.unmarked (hgo' a .refl)
  refine ⟨_, _, (P.setForest F).heap, sum_shape (fun _ => 1) hmem, sum_shape (fun t => t.size) hmem,
    hret, fun chunks hchunks => ?_⟩
  have hset : chunks.filter (fun c => (P.setForest F).heap c = none) =
      P.forest.nodes.filter (P.forest.Below a) := by
    ext c
    have hc : c ∈ chunks ↔ c ∈ P.forest.nodes := by
      rw [hchunks, Ne, free_iff, not_not]
    have hgone : (P.setForest F).heap c = none ↔ ¬ (c ∈ P.forest.nodes ∧ ¬ P.forest.Below a c) := by
      rw [free_iff]
      show c ∉ F.nodes ↔ _
      rw [hF.nodes, ← gone_iff_below hgo']
      rfl
    rw [Finset.mem_filter, Finset.mem_filter, hc, hgone]
    constructor
    · rintro ⟨hcP, hno⟩
      by_contra hb
      exact hno ⟨hcP, fun hbelow => hb ⟨hcP, hbelow⟩⟩
    · rintro ⟨hcP, hb⟩
      exact ⟨hcP, fun h => h.2 hb⟩
  rw [hset]
  refine ⟨by rw [Finset.sum_const, smul_eq_mul, mul_one], Finset.sum_congr rfl (fun c hc => ?_)⟩
  rw [sizeAt, heap_node (Finset.mem_filter.mp hc).1]
  rfl

open Classical in
theorem free_totals_sample :
    ∃ blocks size h', Returns (fun n => tallocTotalBlocks n 5 sample) (blocks, sample) ∧
      Returns (fun n => tallocTotalSize n (some 5) sample) (size, sample) ∧
      Returns (fun n => tallocFree n (some 5) sample) (0, h') ∧
      ∀ chunks : Finset Ptr, (∀ c, c ∈ chunks ↔ sample c ≠ none) →
        blocks = (chunks.filter (fun c => h' c = none)).card ∧
        size = ∑ c ∈ chunks.filter (fun c => h' c = none), sizeAt sample c := by
  refine free_totals sample_runs rfl ?_
  intro c t hc ht
  -- only 4 refuses, and 4 is not below 5
  obtain ⟨r, -, hr, hret⟩ := isParent_above sample_runs (show sample 4 = some _ from rfl) 5
  have h4 : c ≠ 4 := by
    rintro rfl
    have hzero : Returns (fun n => tallocIsParent n (some 4) 5 sample) 0 := by
      refine ⟨9, fun n hn => ?_⟩
      obtain ⟨m, rfl⟩ := Nat.exists_eq_add_of_le' hn
      rfl
    exact hr.mp (hret.unique hzero) hc
  have hrest : c < 7 := by
    by_contra hle
    obtain ⟨n, rfl⟩ := Nat.exists_eq_add_of_le' (not_lt.mp hle)
    cases ht
  interval_cases c <;> cases ht <;> simp_all [Vetoes]

/-! ## Reports -/

/-- `c` is `k` levels below `a`. -/
inductive Depth (h : Heap) (a : Ptr) : Ptr → Nat → Prop
  | self : Depth h a a 0
  | child {p c : Ptr} {k : Nat} (above : Depth h a p k) (hp : Parent h c (some p)) :
      Depth h a c (k + 1)

theorem depth_iff {k : Nat} : Depth P.heap a c k ↔ P.forest.Level k a c := by
  constructor
  · intro h
    induction h with
    | self => exact .self a
    | child _ hp ih => exact ih.tail (parent_some_iff.mp hp)
  · intro h
    induction k generalizing c with
    | zero =>
        cases h
        exact .self
    | succ k ih =>
        obtain ⟨b, hb, hbc⟩ := h.cases_tail
        exact .child (ih hb) (parent_some_iff.mpr hbc)

theorem total_report {F : Forest Ptr} {info : Ptr → Info} (maxDepth : Int) (l : List (Ptr × Nat)) :
    total (reportWalk maxDepth) F info l = l := by
  induction l with
  | nil => rfl
  | cons e l ih =>
      show [e] ++ total (reportWalk maxDepth) F info l = _
      rw [ih]
      rfl

/-- **A report** calls back once for each chunk down to the depth asked for, with
    its depth, and leaves the memory as it was. -/
theorem report_exact {t : Chunk} (maxDepth : Int) (hr : Runs calls noChunk h) (ha : h a = some t) :
    ∃ l, Returns (fun n => tallocReportDepthCb n (some a) 0 maxDepth h) (l, h) ∧
      (l.map Prod.fst).Nodup ∧
      ∀ c k, (c, k) ∈ l ↔ Depth h a c k ∧ (maxDepth < 0 ∨ k ≤ maxDepth) := by
  obtain ⟨P, rfl⟩ := runs_pool hr
  obtain ⟨hmem, rfl⟩ := heap_mem ha
  obtain ⟨l, hl, hret⟩ :=
    walk_shape (reportWalk maxDepth) P.unmarked hmem P.info 0 (fun c _ => rfl)
  rw [total_report] at hret
  refine ⟨l, hret, hl.nodup_single, fun c k => ?_⟩
  have hstop (k : Nat) : (∀ i, i < k → (reportWalk maxDepth).stop (0 + i) = false) ↔
      maxDepth < 0 ∨ (k : Int) ≤ maxDepth := by
    constructor
    · intro hall
      by_contra hno
      have hlast := hall maxDepth.toNat (by omega)
      simp only [reportWalk, decide_eq_false_iff_not] at hlast
      omega
    · intro hlim i hi
      simp only [reportWalk, decide_eq_false_iff_not]
      omega
  rw [hl.mem, depth_iff]
  constructor
  · rintro ⟨b, hb, j, hj, rfl, hall⟩
    rw [List.mem_singleton.mp hb] at hj
    rw [Nat.zero_add]
    exact ⟨hj, (hstop j).mp hall⟩
  · rintro ⟨hk, hlim⟩
    exact ⟨a, List.mem_singleton_self a, k, hk, (Nat.zero_add k).symm, (hstop k).mpr hlim⟩

theorem report_exact_sample :
    ∃ l, Returns (fun n => tallocReportDepthCb n (some 1) 0 1 sample) (l, sample) ∧
      (l.map Prod.fst).Nodup ∧
      ∀ c k, (c, k) ∈ l ↔ Depth sample 1 c k ∧ ((1 : Int) < 0 ∨ (k : Int) ≤ 1) :=
  report_exact 1 sample_runs rfl

/-! ## Looking up -/

/-- The name of a chunk. -/
def nameAt (h : Heap) (c : Ptr) : Option String := (h c).bind (fun t => t.name)

/-- **The parent by a name** is the nearest one above that has it; if there is
    none, `NULL` is returned. -/
theorem findParent_nearest {t : Chunk} (name : String) (hr : Runs calls noChunk h)
    (ha : h a = some t) :
    ∃ r, Returns (fun n => tallocFindParentByname n (some a) name h) r ∧
      (r = none → ∀ b, Above h b a → nameAt h b ≠ some name) ∧
      ∀ b, r = some b → Above h b a ∧ nameAt h b = some name ∧
        ∀ c, Above h c a → nameAt h c = some name → Above h c b := by
  obtain ⟨P, rfl⟩ := runs_pool hr
  obtain ⟨hmem, rfl⟩ := heap_mem ha
  obtain ⟨r, hnear, hret⟩ := lookUp_shape P.info (fun _ t => t.name == some name) hmem
  have hname {b : Ptr} (hb : P.forest.Below b a) :
      nameAt P.heap b = some name ↔ ((chunkOf P.forest P.info b).name == some name) = true := by
    rw [nameAt, heap_node (hb.node hmem), beq_iff_eq]
    rfl
  refine ⟨r, hret, ?_, ?_⟩
  · rintro rfl b hb hbn
    have hb := above_iff.mp hb
    exact hnear.none b hb ((hname hb).mp hbn)
  · rintro b rfl
    obtain ⟨hb, hsat, hfirst⟩ := hnear.some
    refine ⟨above_iff.mpr hb, (hname hb).mpr hsat, fun c hc hcn => ?_⟩
    have hc := above_iff.mp hc
    exact above_iff.mpr (hfirst c hc ((hname hc).mp hcn))

theorem findParent_nearest_sample :
    ∃ r, Returns (fun n => tallocFindParentByname n (some 4) "tests" sample) r ∧
      (r = none → ∀ b, Above sample b 4 → nameAt sample b ≠ some "tests") ∧
      ∀ b, r = some b → Above sample b 4 ∧ nameAt sample b = some "tests" ∧
        ∀ c, Above sample c 4 → nameAt sample c = some "tests" → Above sample c b :=
  findParent_nearest "tests" sample_runs rfl

/-! ## Moving -/

/-- A chunk with its links under other names. -/
def Chunk.rename (e : Ptr → Ptr) (t : Chunk) : Chunk :=
  { t with next := t.next.map e, prev := t.prev.map e, parent := t.parent.map e,
           child := t.child.map e }

theorem chunkOf_map {F : Forest Ptr} (info info' : Ptr → Info) (e : Equiv.Perm Ptr)
    (hinfo : info' (e c) = info c) :
    chunkOf (F.map e) info' (e c) = Chunk.rename e (chunkOf F info c) := by
  have hparent : (if (F.prev c).map e = none then (F.parent c).map e else none) =
      (if F.prev c = none then F.parent c else none).map e := by
    cases F.prev c with
    | none => rfl
    | some b => rfl
  rw [chunkOf, rowLinks, Forest.map_next, Forest.map_prev, Forest.map_parent, Forest.map_first,
    Equiv.symm_apply_apply, hinfo, hparent]
  rfl

/-- **A chunk that moves** takes its size and its name; else the memory is as it
    was, with the new address for the old one in every link. -/
theorem realloc_renames {t : Chunk} (context : Option Ptr) (size : Nat) (name : Option String)
    (hr : Runs calls noChunk h) (ha : h a = some t) (hb : b = a ∨ h b = none) (hpos : size ≠ 0)
    (hsize : size < maxTallocSize) :
    ∃ h', Returns (fun n => tallocRealloc n (some b) context (some a) size name h) (some b, h') ∧
      ∀ c, h' (Equiv.swap a b c) = (h c).map (fun u =>
        Chunk.rename (Equiv.swap a b)
          (if c = a then { u with size := size, name := name } else u)) := by
  obtain ⟨P, rfl⟩ := runs_pool hr
  obtain ⟨hmem, rfl⟩ := heap_mem ha
  have hland : Landing P.forest a b := hb.imp_right free_iff.mp
  refine ⟨_, (Returns.pure _).congr
    (fun n => realloc_shape n context size name hmem hland hpos hsize), fun c => ?_⟩
  by_cases hc : c ∈ P.forest.nodes
  · have hmap : Equiv.swap a b c ∈ (P.forest.map (Equiv.swap a b)).nodes := by
      rw [Forest.mem_map_nodes, Equiv.symm_apply_apply]
      exact hc
    rw [shape_tidy hmap, heap_node hc, Option.map_some]
    by_cases hca : c = a
    · rw [if_pos hca, chunkOf_map (Function.update P.info a (resized size name (P.info a)))]
      · rw [hca]
        simp only [chunkOf, Function.update_self]
        rfl
      · rw [hca, Equiv.swap_apply_left, Function.update_self, Function.update_self]
    · have hcb : c ≠ b := by
        rintro rfl
        exact hland.elim hca (fun h => h hc)
      rw [if_neg hca, chunkOf_map P.info]
      rw [Equiv.swap_apply_of_ne_of_ne hca hcb, Function.update_of_ne hcb]
  · have hmap : Equiv.swap a b c ∉ (P.forest.map (Equiv.swap a b)).nodes := by
      rw [Forest.mem_map_nodes, Equiv.symm_apply_apply]
      exact hc
    rw [shape, if_neg hmap, free_iff.mpr hc]
    rfl

theorem realloc_renames_sample :
    ∃ h', Returns (fun n => tallocRealloc n (some 7) none (some 3) 6 (some "char") sample)
        (some 7, h') ∧
      ∀ c, h' (Equiv.swap 3 7 c) = (sample c).map (fun u => Chunk.rename (Equiv.swap 3 7)
        (if c = 3 then { u with size := 6, name := some "char" } else u)) :=
  realloc_renames none 6 (some "char") sample_runs rfl (.inr rfl) (by simp)
    (by simp [maxTallocSize])

end Seen

end Talloc
