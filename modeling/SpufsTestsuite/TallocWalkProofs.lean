import Mathlib
import SpufsTestsuite.ForestOrderProofs
import SpufsTestsuite.TallocFreeProofs

/-! # talloc — walks up and down

    `talloc_is_parent` and `talloc_find_parent_byname` go up, from the first of a
    row of siblings to its parent, until they find what they look for.

    `talloc_total_size`, `talloc_total_blocks` and `talloc_report_depth_cb` go
    down.  They mark each chunk with `TALLOC_FLAG_LOOP` while they are below it,
    and leave a marked chunk out; `walk` is what the three have in common. -/

namespace Talloc

open Fuel (Returns)

/-! ## Up -/

/-- The loop of the functions that look for a chunk from `tc` upwards. -/
def lookUp (found : Ptr → Chunk → Bool) : Nat → Option Ptr → Heap → Option (Option Ptr)
  | _, none, _ => some none
  | 0, some _, _ => none
  | n + 1, some tc, h => do
      let t ← h tc
      if found tc t then some (some tc)
      else do
        let first ← firstSibling n tc h
        let t ← h first
        lookUp found n t.parent h

/-- `talloc_is_parent` -/
def tallocIsParent (n : Nat) (context : Option Ptr) (ptr : Ptr) (h : Heap) : Option Int := do
  let r ← lookUp (fun tc _ => tc == ptr) n context h
  some (if r.isSome then 1 else 0)

/-- `talloc_find_parent_byname` -/
def tallocFindParentByname (n : Nat) (context : Option Ptr) (name : String) (h : Heap) :
    Option (Option Ptr) :=
  lookUp (fun _ t => t.name == some name) n context h

/-! ## Down -/

/-- What a walk collects: how results are added up, what a chunk at some depth
    adds, and at which depths the children are left out. -/
structure Walk (M : Type) where
  zero : M
  add : M → M → M
  own : Ptr → Chunk → Nat → M
  stop : Nat → Bool
  add_assoc : ∀ a b c, add (add a b) c = add a (add b c)
  zero_add : ∀ a, add zero a = a
  add_zero : ∀ a, add a zero = a

/-- What each chunk of a subtree adds, summed up. -/
def sumWalk (own : Chunk → Nat) : Walk Nat where
  zero := 0
  add := (· + ·)
  own := fun _ tc _ => own tc
  stop := fun _ => false
  add_assoc := Nat.add_assoc
  zero_add := Nat.zero_add
  add_zero := Nat.add_zero

/-- The calls of a callback, one for each chunk down to a depth (no limit if it
    is negative). -/
def reportWalk (maxDepth : Int) : Walk (List (Ptr × Nat)) where
  zero := []
  add := (· ++ ·)
  own := fun ptr _ depth => [(ptr, depth)]
  stop := fun depth => 0 ≤ maxDepth ∧ maxDepth ≤ depth
  add_assoc := List.append_assoc
  zero_add := List.nil_append
  add_zero := List.append_nil

mutual

def walk {M : Type} (w : Walk M) : Nat → Ptr → Nat → Heap → Option (M × Heap)
  | 0, _, _, _ => none
  | n + 1, ptr, depth, h => do
      let tc ← h ptr
      if tc.loop then some (w.zero, h)
      else if w.stop depth then some (w.own ptr tc depth, h)
      else do
        let h ← edit (some ptr) (fun c => { c with loop := true }) h
        let (total, h) ← walkRow w n tc.child (depth + 1) h
        let h ← edit (some ptr) (fun c => { c with loop := false }) h
        some (w.add (w.own ptr tc depth) total, h)

/-- `for (c=tc->child;c;c=c->next)`, for a memory without references: no `c` is the
    handle of one, which a report would show as its chunk. -/
def walkRow {M : Type} (w : Walk M) : Nat → Option Ptr → Nat → Heap → Option (M × Heap)
  | _, none, _, h => some (w.zero, h)
  | 0, some _, _, _ => none
  | n + 1, some c, depth, h => do
      let (total, h) ← walk w n c depth h
      let t ← h c
      let (rest, h) ← walkRow w n t.next depth h
      some (w.add total rest, h)

end

/-- `talloc_total_size` -/
def tallocTotalSize (n : Nat) (ptr : Option Ptr) (h : Heap) : Option (Nat × Heap) :=
  match ptr with
  | none => some (0, h)
  | some ptr => walk (sumWalk (fun tc => tc.size)) n ptr 0 h

/-- `talloc_total_blocks` -/
def tallocTotalBlocks (n : Nat) (ptr : Ptr) (h : Heap) : Option (Nat × Heap) :=
  walk (sumWalk (fun _ => 1)) n ptr 0 h

/-- `talloc_report_depth_cb`; the calls of the callback are listed, each with the
    pointer and the depth that it gets. -/
def tallocReportDepthCb (n : Nat) (ptr : Option Ptr) (depth : Nat) (maxDepth : Int) (h : Heap) :
    Option (List (Ptr × Nat) × Heap) :=
  match ptr with
  | none => some ([], h)
  | some ptr => walk (reportWalk maxDepth) n ptr depth h

section Up

variable {F : Forest Ptr} {info : Ptr → Info} {a p : Ptr}

/-- A chunk as the heap has it when no call is under way. -/
def chunkOf (F : Forest Ptr) (info : Ptr → Info) (a : Ptr) : Chunk :=
  { toLinks := rowLinks F a, toInfo := info a, child := F.first a }

theorem shape_tidy (ha : a ∈ F.nodes) : shape F tidy info a = some (chunkOf F info a) :=
  shape_node ha

/-- The loop finds the nearest chunk, if there is one at all. -/
theorem lookUp_shape (info : Ptr → Info) (found : Ptr → Chunk → Bool) (ha : a ∈ F.nodes) :
    ∃ r, F.Nearest (fun c => found c (chunkOf F info c) = true) a r ∧
      Returns (fun n => lookUp found n (some a) (shape F tidy info)) r := by
  induction a using Forest.parent_induction (F := F) with
  | _ a ih =>
      have hread : shape F tidy info a = some (chunkOf F info a) := shape_tidy ha
      by_cases hf : found a (chunkOf F info a) = true
      · refine ⟨some a, .here hf, (Returns.pure _).step (fun n => ?_)⟩
        rw [lookUp, hread]
        simp [hf]
      · have hstep (n : Nat) : lookUp found (n + 1) (some a) (shape F tidy info) =
            (tallocParentChunk n (some a) (shape F tidy info)).bind
              (fun p => lookUp found n p (shape F tidy info)) := by
          rw [lookUp, hread]
          simp only [Option.bind_eq_bind, Option.bind_some, hf, Bool.false_eq_true, if_false,
            tallocParentChunk, Option.bind_assoc]
        have hparent := parentChunk_shape info ha (settled_tidy F) (.row rfl rfl)
        cases hp : F.parent a with
        | none =>
            rw [hp] at hparent
            refine ⟨none, .root hf hp, (hparent.bind ((Returns.pure _).congr ?_)).step hstep⟩
            intro n
            cases n with
            | zero => rfl
            | succ n => rfl
        | some p =>
            rw [hp] at hparent
            obtain ⟨r, hr, hret⟩ := ih p hp (F.closed hp).2
            exact ⟨r, .up hf hp hr, (hparent.bind hret).step hstep⟩

theorem isParent_shape (info : Ptr → Info) (p : Ptr) (ha : a ∈ F.nodes) :
    ∃ r, (r = 1 ↔ F.Below p a) ∧ (r = 0 ↔ ¬ F.Below p a) ∧
      Returns (fun n => tallocIsParent n (some a) p (shape F tidy info)) r := by
  obtain ⟨r, hr, hret⟩ := lookUp_shape info (fun c _ => c == p) ha
  have hret' : Returns (fun n => tallocIsParent n (some a) p (shape F tidy info))
      (if r.isSome then 1 else 0) :=
    hret.bind (g := fun _ (r : Option Ptr) => some (if r.isSome then (1 : Int) else 0))
      (Returns.pure _)
  cases r with
  | none =>
      have hb : ¬ F.Below p a := fun hb => hr.none p hb (by simp)
      exact ⟨0, by simp [hb], by simp [hb], hret'⟩
  | some b =>
      obtain ⟨hb, hsat, -⟩ := hr.some
      obtain rfl : b = p := by simpa using hsat
      exact ⟨1, by simp [hb], by simp [hb], hret'⟩

end Up

section Down

variable {F : Forest Ptr} {info : Ptr → Info} {a x : Ptr} {M : Type} (w : Walk M)

/-- What the chunks of a list add up to. -/
def total (F : Forest Ptr) (info : Ptr → Info) (l : List (Ptr × Nat)) : M :=
  l.foldr (fun e sum => w.add (w.own e.1 (chunkOf F info e.1) e.2) sum) w.zero

theorem total_append (l m : List (Ptr × Nat)) :
    total w F info (l ++ m) = w.add (total w F info l) (total w F info m) := by
  induction l with
  | nil => exact (w.zero_add _).symm
  | cons e l ih =>
      show w.add _ (total w F info (l ++ m)) = w.add (w.add _ (total w F info l)) _
      rw [ih, w.add_assoc]

/-- A walk below `x` returns what its nodes add up to, and the heap as it was. -/
def Walks (F : Forest Ptr) (info info' : Ptr → Info) (x : Ptr) (depth : Nat) : Prop :=
  ∃ l, F.Lists w.stop depth [x] l ∧
    Returns (fun n => walk w n x depth (shape F tidy info'))
      (total w F info l, shape F tidy info')

/-- A row is walked through if each of its nodes is. -/
theorem walkRow_shape {info' : Ptr → Info} {depth : Nat}
    (hwalks : ∀ c, F.Child x c → Walks w F info info' c depth) (pre r : List Ptr)
    (hrow : F.kids x = pre ++ r) :
    ∃ l, F.Lists w.stop depth r l ∧
      Returns (fun n => walkRow w n r.head? depth (shape F tidy info'))
        (total w F info l, shape F tidy info') := by
  induction r generalizing pre with
  | nil =>
      refine ⟨[], .nil depth, (Returns.pure _).congr (fun n => ?_)⟩
      cases n with
      | zero => rfl
      | succ n => rfl
  | cons c r ih =>
      have hc : F.Child x c := F.mem_kids.mp (by simp [hrow])
      have hnext : F.next c = r.head? := by
        have hnd := F.nodup x
        rw [hrow] at hnd
        rw [Forest.next, Forest.row_eq hc, hrow, Row.after_append hnd]
      obtain ⟨l, hl, hwalk⟩ := hwalks c hc
      obtain ⟨m, hm, hrest⟩ := ih (pre ++ [c]) (by simp [hrow])
      refine ⟨l ++ m, hl.cons hm, ?_⟩
      rw [total_append]
      have hstep (n : Nat) : walkRow w (n + 1) (c :: r).head? depth (shape F tidy info') =
          (walk w n c depth (shape F tidy info')).bind (fun s => (s.2 c).bind (fun t =>
            (walkRow w n t.next depth s.2).bind (fun u => some (w.add s.1 u.1, u.2)))) := rfl
      refine (hwalk.bind (Returns.congr (f := fun n =>
        (walkRow w n r.head? depth (shape F tidy info')).bind
          (fun u => some (w.add (total w F info l) u.1, u.2))) ?_ (fun n => ?_))).step hstep
      · exact hrest.bind (g := fun _ u => some (w.add (total w F info l) u.1, u.2)) (Returns.pure _)
      · show (shape F tidy info' c).bind _ = _
        rw [shape_tidy (F.closed hc).1, Option.bind_some]
        show (walkRow w n (F.next c) depth _).bind _ = _
        rw [hnext]

theorem edit_loop {info' : Ptr → Info} {b : Bool} (hx : x ∈ F.nodes) :
    edit (some x) (fun c => { c with loop := b }) (shape F tidy info') =
      some (shape F tidy (Function.update info' x { info' x with loop := b })) :=
  edit_info hx (fun _ _ => rfl)

/-- The walk marks the chunks above, and is stopped by none of them. -/
theorem walk_shape (hloop : ∀ a, (info a).loop = false) (hx : x ∈ F.nodes) :
    ∀ (info' : Ptr → Info) (depth : Nat), (∀ c, F.Below x c → info' c = info c) →
      Walks w F info info' x depth := by
  induction x using Forest.child_induction (F := F) with
  | _ x ih =>
      intro info' depth hinfo
      have hself : info' x = info x := hinfo x .refl
      have hread : shape F tidy info' x = some (chunkOf F info x) := by
        rw [shape_tidy hx, chunkOf, chunkOf, hself]
      have hflag : (chunkOf F info x).loop = false := hloop x
      by_cases hstop : w.stop depth = true
      · refine ⟨[(x, depth)], .leaf hstop (.nil depth), (Returns.pure _).step (fun n => ?_)⟩
        rw [walk, hread]
        simp [hflag, hstop, total, w.add_zero]
      have hstop : w.stop depth = false := by simpa using hstop
      have hchildren : ∀ c, F.Child x c →
          Walks w F info (Function.update info' x { info' x with loop := true }) c (depth + 1) := by
        intro c hc
        refine ih c hc (F.closed hc).1 _ (depth + 1) (fun b hb => ?_)
        rw [Function.update_of_ne, hinfo b (.head hc hb)]
        rintro rfl
        exact Forest.not_below_child hc hb
      obtain ⟨l, hl, hrow⟩ := walkRow_shape w hchildren [] (F.kids x) rfl
      refine ⟨(x, depth) :: (l ++ []), .node hstop hl (.nil depth), ?_⟩
      rw [List.append_nil]
      have hstep (n : Nat) : walk w (n + 1) x depth (shape F tidy info') =
          (walkRow w n (F.kids x).head? (depth + 1)
            (shape F tidy (Function.update info' x { info' x with loop := true }))).bind
            (fun s => (edit (some x) (fun c => { c with loop := false }) s.2).bind
              (fun h => some (w.add (w.own x (chunkOf F info x) depth) s.1, h))) := by
        rw [walk, hread]
        simp only [Option.bind_eq_bind, Option.bind_some, hflag, Bool.false_eq_true, if_false,
          hstop]
        rw [edit_loop hx]
        rfl
      refine (hrow.bind ((Returns.pure _).congr (fun n => ?_))).step hstep
      have hback : ({ info x with loop := false } : Info) = info x := by
        rw [← hloop x]
      have hinfo' : Function.update (Function.update info' x { info x with loop := true }) x
          { Function.update info' x { info x with loop := true } x with loop := false } =
            info' := by
        rw [Function.update_idem, Function.update_self]
        show Function.update info' x { info x with loop := false } = info'
        rw [hback, ← hself, Function.update_eq_self]
      rw [edit_loop hx, hself, hinfo']
      rfl

end Down

end Talloc
