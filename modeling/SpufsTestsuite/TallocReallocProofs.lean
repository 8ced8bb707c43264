import Mathlib
import SpufsTestsuite.TallocWalkProofs

/-! # talloc — chunks that move

    `realloc()` may give a chunk another address.  The chunk itself takes its
    links along; what points to it is written anew: the first child's `parent`,
    the neighbours' `next` and `prev`, and the parent's `child` if the chunk is
    the first one.

    In the forest this is a renaming: the old address and the new one change
    places. -/

namespace Talloc

open Fuel (Returns)

/-- `if (tc->field) tc->field->... = ...` -/
def editThrough (tc : Ptr) (field : Chunk → Option Ptr) (f : Chunk → Chunk) (h : Heap) :
    Option Heap := do
  let t ← h tc
  edit (field t) f h

/-- `_talloc_realloc`; `mem` is what `malloc` or `realloc` returns. -/
def tallocRealloc (n : Nat) (mem context ptr : Option Ptr) (size : Nat) (name : Option String)
    (h : Heap) : Option (Option Ptr × Heap) :=
  if size = 0 then do
    let (_, h) ← tallocFree n ptr h
    some (none, h)
  else if maxTallocSize ≤ size then some (none, h)
  else
    match ptr with
    | none => tallocNamedConst mem context size name h
    | some tc => do
        let t ← h tc
        match mem with
        | none => some (none, h)
        | some new => do
            let h := Function.update (Function.update h tc none) new (some t)
            let h ← editThrough new (fun t => t.parent) (fun c => { c with child := some new }) h
            let h ← editThrough new (fun t => t.child) (fun c => { c with parent := some new }) h
            let h ← editThrough new (fun t => t.prev) (fun c => { c with next := some new }) h
            let h ← editThrough new (fun t => t.next) (fun c => { c with prev := some new }) h
            let h ← edit (some new) (fun c => { c with size := size }) h
            let h ← edit (some new) (fun c => { c with name := name }) h
            some (some new, h)

/-- `_talloc_realloc_array` -/
def tallocReallocArray (n : Nat) (mem context ptr : Option Ptr) (elSize count : Nat)
    (name : Option String) (h : Heap) : Option (Option Ptr × Heap) :=
  if maxTallocSize / elSize ≤ count then some (none, h)
  else tallocRealloc n mem context ptr (elSize * count) name h

section Move

variable {F : Forest Ptr} {info : Ptr → Info} {h : Heap} {a b c : Ptr}

/-- The neighbours' links all at once. -/
theorem adjust_links {qn qp qa qc : Option Ptr} {t : Chunk} (hc : h c = some t) :
    adjust qn (fun c => { c with prev := some b }) (adjust qp (fun c => { c with next := some b })
      (adjust qc (fun c => { c with parent := some b })
        (adjust qa (fun c => { c with child := some b }) h))) c =
      some { next := if qp = some c then some b else t.next,
             prev := if qn = some c then some b else t.prev,
             parent := if qc = some c then some b else t.parent,
             child := if qa = some c then some b else t.child, toInfo := t.toInfo } := by
  have hchild : adjust qa (fun c => { c with child := some b }) h c =
      some { t with child := if qa = some c then some b else t.child } := by
    by_cases hq : qa = some c
    · rw [hq, adjust_self, hc, if_pos rfl]
      rfl
    · rw [adjust_ne hq, hc, if_neg hq]
  have hparent : adjust qc (fun c => { c with parent := some b })
        (adjust qa (fun c => { c with child := some b }) h) c =
      some { t with child := if qa = some c then some b else t.child,
                    parent := if qc = some c then some b else t.parent } := by
    by_cases hq : qc = some c
    · rw [hq, adjust_self, hchild, if_pos rfl]
      rfl
    · rw [adjust_ne hq, hchild, if_neg hq]
  have hnext : adjust qp (fun c => { c with next := some b })
        (adjust qc (fun c => { c with parent := some b })
          (adjust qa (fun c => { c with child := some b }) h)) c =
      some { t with child := if qa = some c then some b else t.child,
                    parent := if qc = some c then some b else t.parent,
                    next := if qp = some c then some b else t.next } := by
    by_cases hq : qp = some c
    · rw [hq, adjust_self, hparent, if_pos rfl]
      rfl
    · rw [adjust_ne hq, hparent, if_neg hq]
  by_cases hq : qn = some c
  · rw [hq, adjust_self, hnext, if_pos rfl]
    rfl
  · rw [adjust_ne hq, hnext, if_neg hq]

/-- The address is free, or it is the chunk's own. -/
def Landing (F : Forest Ptr) (a b : Ptr) : Prop := b = a ∨ b ∉ F.nodes

/-- Of the nodes only the moved one gets another name. -/
theorem map_swap (hb : Landing F a b) {o : Option Ptr} (ho : ∀ c, o = some c → c ∈ F.nodes) :
    o.map (Equiv.swap a b) = if o = some a then some b else o := by
  cases o with
  | none => rfl
  | some c =>
      rw [Option.map_some]
      by_cases hca : c = a
      · rw [hca, Equiv.swap_apply_left, if_pos rfl]
      · have hcb : c ≠ b := by
          rintro rfl
          rcases hb with h | h
          · exact hca h
          · exact h (ho c rfl)
        rw [Equiv.swap_apply_of_ne_of_ne hca hcb, if_neg (by simpa using hca)]

theorem map_swap_other (hb : Landing F a b) {o : Option Ptr} (ho : ∀ c, o = some c → c ∈ F.nodes)
    (hne : o ≠ some a) : o.map (Equiv.swap a b) = o := by
  rw [map_swap hb ho, if_neg hne]

theorem next_mem (h : F.next a = some c) : c ∈ F.nodes := by
  obtain ⟨p, -, hc⟩ := next_parent h
  exact (F.closed hc).1

theorem prev_mem (h : F.prev c = some a) : a ∈ F.nodes := by
  obtain ⟨p, ha, -⟩ := prev_parent h
  exact (F.closed ha).1

theorem parent_mem (h : F.parent c = some a) : a ∈ F.nodes := (F.closed h).2

theorem first_mem (h : F.first a = some c) : c ∈ F.nodes := (F.closed (Forest.first_child h)).1

/-- The chunks that do not move, with the new address where the old one was. -/
theorem links_swap (hb : Landing F a b) (hca : c ≠ a) (hcb : c ≠ b) :
    rowLinks (F.map (Equiv.swap a b)) c =
      { next := if F.prev a = some c then some b else F.next c,
        prev := if F.next a = some c then some b else F.prev c,
        parent := if F.first a = some c then some b else (rowLinks F c).parent } := by
  have hc : (Equiv.swap a b).symm c = c := by
    rw [Equiv.symm_swap, Equiv.swap_apply_of_ne_of_ne hca hcb]
  have hnext : (F.map (Equiv.swap a b)).next c =
      if F.prev a = some c then some b else F.next c := by
    rw [Forest.map_next, hc, map_swap hb (fun d hd => next_mem hd)]
    simp only [Forest.next_iff_prev]
  have hprev : (F.map (Equiv.swap a b)).prev c =
      if F.next a = some c then some b else F.prev c := by
    rw [Forest.map_prev, hc, map_swap hb (fun d hd => prev_mem hd)]
    simp only [Forest.next_iff_prev]
  have hparent : (F.map (Equiv.swap a b)).parent c =
      if F.parent c = some a then some b else F.parent c := by
    rw [Forest.map_parent, hc, map_swap hb (fun d hd => parent_mem hd)]
  rw [rowLinks, hnext, hprev, hparent]
  congr 1
  by_cases hfirst : F.first a = some c
  · obtain ⟨hpc, hprevc⟩ := Forest.first_iff.mp hfirst
    have hne : F.next a ≠ some c := by
      intro h
      rw [Forest.next_iff_prev, hprevc] at h
      cases h
    rw [if_neg hne, if_pos hprevc, if_pos hpc, if_pos hfirst]
  · rw [if_neg hfirst, rowLinks]
    by_cases hprevc : F.prev c = none
    · have hne : F.next a ≠ some c := by
        intro h
        rw [Forest.next_iff_prev, hprevc] at h
        cases h
      have hpa : F.parent c ≠ some a := fun h => hfirst (Forest.first_iff.mpr ⟨h, hprevc⟩)
      rw [if_neg hne, if_pos hprevc, if_neg hpa, if_pos hprevc]
    · by_cases hne : F.next a = some c
      · rw [if_pos hne, if_neg (by simp), if_neg hprevc]
      · rw [if_neg hne, if_neg hprevc]
        exact (if_neg hprevc).symm

/-- The chunk that moves keeps its links. -/
theorem links_swap_self (hb : Landing F a b) :
    rowLinks (F.map (Equiv.swap a b)) b = rowLinks F a := by
  have ha : (Equiv.swap a b).symm b = a := by
    rw [Equiv.symm_swap, Equiv.swap_apply_right]
  rw [rowLinks, rowLinks, Forest.map_next, Forest.map_prev, Forest.map_parent, ha,
    map_swap_other hb (fun d hd => next_mem hd) (F.next_ne_self a),
    map_swap_other hb (fun d hd => prev_mem hd) (F.prev_ne_self a),
    map_swap_other hb (fun d hd => parent_mem hd) (F.parent_ne_self a)]

theorem first_ne_self (a : Ptr) : F.first a ≠ some a :=
  fun h => F.parent_ne_self a (Forest.first_child h)

/-- The header of a chunk with a new size and name. -/
def resized (size : Nat) (name : Option String) (i : Info) : Info :=
  { i with size := size, name := name }

/-- A memory is that of the forest with `b` for `a`, if the chunk at `b` is that
    of `a`, and all others have their links to `a` written anew. -/
theorem eq_shape_map (hb : Landing F a b) (ha : a ∈ F.nodes) {i : Info}
    (hself : h b = some { toLinks := rowLinks F a, toInfo := i, child := F.first a })
    (hgone : a ≠ b → h a = none) (hdead : ∀ c, c ∉ F.nodes → c ≠ b → h c = none)
    (hother : ∀ c ∈ F.nodes, c ≠ a → c ≠ b → h c =
      some { next := if F.prev a = some c then some b else F.next c,
             prev := if F.next a = some c then some b else F.prev c,
             parent := if F.first a = some c then some b else (rowLinks F c).parent,
             child := if F.first c = some a then some b else F.first c, toInfo := info c }) :
    h = shape (F.map (Equiv.swap a b)) tidy (Function.update info b i) := by
  have hmem {c : Ptr} (hca : c ≠ a) (hcb : c ≠ b) :
      c ∈ (F.map (Equiv.swap a b)).nodes ↔ c ∈ F.nodes := by
    rw [Forest.mem_map_nodes, Equiv.symm_swap, Equiv.swap_apply_of_ne_of_ne hca hcb]
  funext c
  by_cases hcb : c = b
  · subst hcb
    have hc : c ∈ (F.map (Equiv.swap a c)).nodes := by
      rw [Forest.mem_map_nodes, Equiv.symm_swap, Equiv.swap_apply_right]
      exact ha
    rw [hself, shape_tidy hc, chunkOf, links_swap_self hb, Forest.map_first, Equiv.symm_swap,
      Equiv.swap_apply_right, map_swap_other hb (fun d hd => first_mem hd) (first_ne_self a),
      Function.update_self]
  by_cases hca : c = a
  · subst hca
    have hc : c ∉ (F.map (Equiv.swap c b)).nodes := by
      rw [Forest.mem_map_nodes, Equiv.symm_swap, Equiv.swap_apply_left]
      exact hb.resolve_left (Ne.symm hcb)
    rw [hgone hcb, shape, if_neg hc]
  by_cases hc : c ∈ F.nodes
  · have hname : (Equiv.swap a b).symm c = c := by
      rw [Equiv.symm_swap, Equiv.swap_apply_of_ne_of_ne hca hcb]
    rw [hother c hc hca hcb, shape_tidy ((hmem hca hcb).mpr hc), chunkOf, links_swap hb hca hcb,
      Forest.map_first, hname, map_swap hb (fun d hd => first_mem hd), Function.update_of_ne hcb]
  · rw [hdead c hc hcb, shape, if_neg (fun h => hc ((hmem hca hcb).mp h))]

theorem adjust_none {q : Option Ptr} {f : Chunk → Chunk} (hc : h c = none) :
    adjust q f h c = none := by
  rw [adjust, hc]
  split
  · rfl
  · rfl

/-- One of the links of the chunk at `b` is followed, to another chunk. -/
theorem editThrough_eq {t : Chunk} (field : Chunk → Option Ptr) (f : Chunk → Chunk)
    (hself : h b = some t) (hq : ∀ d, field t = some d → (h d).isSome ∧ d ≠ b) :
    editThrough b field f h = some (adjust (field t) f h) ∧ adjust (field t) f h b = some t := by
  constructor
  · show (h b).bind (fun t => edit (field t) f h) = _
    rw [hself, Option.bind_some]
    exact edit_eq (fun d hd => (hq d hd).1)
  · rw [adjust_ne (fun hb => (hq b hb).2 rfl), hself]

theorem realloc_shape (n : Nat) (context : Option Ptr) (size : Nat) (name : Option String)
    (ha : a ∈ F.nodes) (hb : Landing F a b) (hpos : size ≠ 0) (hsize : size < maxTallocSize) :
    tallocRealloc n (some b) context (some a) size name (shape F tidy info) =
      some (some b, shape (F.map (Equiv.swap a b)) tidy
        (Function.update info b (resized size name (info a)))) := by
  have hba {d : Ptr} (hd : d ∈ F.nodes) (hda : d ≠ a) : d ≠ b := by
    rintro rfl
    rcases hb with h | h
    · exact hda h
    · exact h hd
  let h₀ : Heap := Function.update (Function.update (shape F tidy info) a none) b
    (some (chunkOf F info a))
  have hread {d : Ptr} (hda : d ≠ a) (hdb : d ≠ b) : h₀ d = shape F tidy info d := by
    show Function.update _ _ _ d = _
    rw [Function.update_of_ne hdb, Function.update_of_ne hda]
  have hself : h₀ b = some (chunkOf F info a) := Function.update_self ..
  have hlive {d : Ptr} (hd : d ∈ F.nodes) (hda : d ≠ a) : (h₀ d).isSome ∧ d ≠ b := by
    refine ⟨?_, hba hd hda⟩
    rw [hread hda (hba hd hda)]
    exact shape_isSome.mpr hd
  have hparent (d : Ptr) (hd : (chunkOf F info a).parent = some d) : d ∈ F.nodes ∧ d ≠ a := by
    have hp := Forest.first_child (rowLinks_parent.mp hd)
    exact ⟨(F.closed hp).2, fun h => F.parent_ne_self a (h ▸ hp)⟩
  have hchild (d : Ptr) (hd : F.first a = some d) : d ∈ F.nodes ∧ d ≠ a :=
    ⟨first_mem hd, fun h => first_ne_self a (h ▸ hd)⟩
  have hprev (d : Ptr) (hd : F.prev a = some d) : d ∈ F.nodes ∧ d ≠ a :=
    ⟨prev_mem hd, fun h => F.prev_ne_self a (h ▸ hd)⟩
  have hnext (d : Ptr) (hd : F.next a = some d) : d ∈ F.nodes ∧ d ≠ a :=
    ⟨next_mem hd, fun h => F.next_ne_self a (h ▸ hd)⟩
  obtain ⟨e₁, hself₁⟩ := editThrough_eq (fun t => t.parent)
    (fun c => { c with child := some b }) hself
    (fun d hd => hlive (hparent d hd).1 (hparent d hd).2)
  obtain ⟨e₂, hself₂⟩ := editThrough_eq (fun t => t.child)
    (fun c => { c with parent := some b }) hself₁
    (fun d hd => by rw [adjust_isSome]; exact hlive (hchild d hd).1 (hchild d hd).2)
  obtain ⟨e₃, hself₃⟩ := editThrough_eq (fun t => t.prev)
    (fun c => { c with next := some b }) hself₂
    (fun d hd => by rw [adjust_isSome, adjust_isSome]; exact hlive (hprev d hd).1 (hprev d hd).2)
  obtain ⟨e₄, hself₄⟩ := editThrough_eq (fun t => t.next)
    (fun c => { c with prev := some b }) hself₃
    (fun d hd => by
      rw [adjust_isSome, adjust_isSome, adjust_isSome]
      exact hlive (hnext d hd).1 (hnext d hd).2)
  unfold tallocRealloc
  rw [if_neg hpos, if_neg (by omega)]
  show (shape F tidy info a).bind _ = _
  rw [shape_tidy ha, Option.bind_some]
  show (editThrough b _ _ h₀).bind _ = _
  simp only [Option.bind_eq_bind, e₁, e₂, e₃, e₄, Option.bind_some]
  rw [edit_some (by rw [hself₄]; rfl), Option.bind_some]
  rw [edit_some (by rw [adjust_isSome, hself₄]; rfl), Option.bind_some]
  congr 2
  refine eq_shape_map hb ha ?_ ?_ ?_ ?_
  · rw [adjust_self, adjust_self, hself₄]
    rfl
  · intro hab
    refine adjust_none (adjust_none (adjust_none (adjust_none (adjust_none (adjust_none ?_)))))
    show Function.update (Function.update (shape F tidy info) a none) b
      (some (chunkOf F info a)) a = none
    rw [Function.update_of_ne hab, Function.update_self]
  · intro c hc hcb
    refine adjust_none (adjust_none (adjust_none (adjust_none (adjust_none (adjust_none ?_)))))
    have hca : c ≠ a := fun h => hc (h ▸ ha)
    rw [hread hca hcb, shape, if_neg hc]
  · intro c hc hca hcb
    rw [adjust_ne (by simpa using hcb.symm), adjust_ne (by simpa using hcb.symm)]
    rw [adjust_links (b := b) (t := chunkOf F info c) (by rw [hread hca hcb, shape_tidy hc])]
    have hfirst : ((chunkOf F info a).parent = some c) = (F.first c = some a) :=
      propext rowLinks_parent
    simp only [hfirst]
    rfl

end Move

end Talloc
