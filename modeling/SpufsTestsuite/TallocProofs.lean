import Mathlib
import SpufsTestsuite.ForestClearProofs

/-! # talloc — chunks and their links

    Each chunk of memory has a header with the links `next` and `prev` to its
    siblings, `child` to its first child, and `parent`, which is only set in the
    first of a row of siblings.  The headers here are those of `talloc.c` without
    the list `refs`, which stays empty in this program: nobody takes a second
    reference to a chunk with `talloc_reference`.  A destructor is given by what
    it returns, and does nothing else; in C it may call talloc again while its
    chunk is being freed.

    A pointer to a chunk stands for its header as well.  What has been freed is
    no chunk any more, and to touch it is a fault (`none`).

    `shape F loose info` is the memory that a forest `F` makes.  Each step of the
    code is shown to turn the shape of one forest into that of another. -/

namespace Talloc

abbrev Ptr := Nat

/-- The field `destructor`: while it runs, the code stores -1 there instead. -/
inductive Destructor where
  | running
  /-- A function that returns `rc` and does nothing else. -/
  | fn (rc : Int)
  deriving DecidableEq, Repr

structure Links where
  next : Option Ptr
  prev : Option Ptr
  parent : Option Ptr
  deriving DecidableEq, Repr

structure Info where
  destructor : Option Destructor
  name : Option String
  size : Nat
  /-- `TALLOC_FLAG_LOOP` -/
  loop : Bool
  deriving DecidableEq, Repr

/-- `struct talloc_chunk`, without `refs` and the magic. -/
structure Chunk extends Links, Info where
  child : Option Ptr
  deriving DecidableEq, Repr

/-- The chunks that are allocated. -/
abbrev Heap := Ptr → Option Chunk

/-! ## Assignments -/

def adjust (q : Option Ptr) (f : Chunk → Chunk) (h : Heap) : Heap :=
  fun a => if q = some a then (h a).map f else h a

/-- Fields of the chunk at `q` are assigned; nothing happens for `NULL`. -/
def edit (q : Option Ptr) (f : Chunk → Chunk) (h : Heap) : Option Heap :=
  match q with
  | none => some h
  | some p => (h p).map (fun _ => adjust (some p) f h)

/-- `free()` -/
def release (p : Ptr) (h : Heap) : Option Heap :=
  (h p).map (fun _ => Function.update h p none)

/-- `_TLIST_ADD(parent->child, tc)` -/
def tlistAdd (parent tc : Ptr) (h : Heap) : Option Heap := do
  let p ← h parent
  match p.child with
  | none =>
      let h ← edit (some parent) (fun c => { c with child := some tc }) h
      edit (some tc) (fun c => { c with next := none, prev := none }) h
  | some first =>
      let h ← edit (some first) (fun c => { c with prev := some tc }) h
      let h ← edit (some tc) (fun c => { c with next := some first, prev := none }) h
      edit (some parent) (fun c => { c with child := some tc }) h

/-- `_TLIST_REMOVE(parent->child, tc)` -/
def tlistRemove (parent tc : Ptr) (h : Heap) : Option Heap := do
  let p ← h parent
  let t ← h tc
  let h ←
    if p.child = some tc then do
      let h ← edit (some parent) (fun c => { c with child := t.next }) h
      edit t.next (fun c => { c with prev := none }) h
    else do
      let h ← edit t.prev (fun c => { c with next := t.next }) h
      let t ← h tc
      edit t.next (fun c => { c with prev := t.prev }) h
  let p ← h parent
  if p.child = some tc then some h
  else edit (some tc) (fun c => { c with next := none, prev := none }) h

/-- The steps by which both `_talloc_free` and `_talloc_steal` take a chunk out
    of its row. -/
def unlink (tc : Ptr) (h : Heap) : Option Heap := do
  let t ← h tc
  match t.parent with
  | some parent =>
      let h ← tlistRemove parent tc h
      let p ← h parent
      edit p.child (fun c => { c with parent := some parent }) h
  | none =>
      let h ← edit t.prev (fun c => { c with next := t.next }) h
      let t ← h tc
      edit t.next (fun c => { c with prev := t.prev }) h

/-- `_talloc_steal`, for a pointer that is not `NULL`. -/
def tallocSteal (newCtx : Option Ptr) (ptr : Ptr) (h : Heap) : Option Heap :=
  match newCtx with
  | none => do
      let h ← unlink ptr h
      edit (some ptr) (fun c => { c with parent := none, next := none, prev := none }) h
  | some newTc => do
      let tc ← h ptr
      let _ ← h newTc
      if ptr = newTc ∨ tc.parent = some newTc then some h
      else do
        let h ← unlink ptr h
        let h ← edit (some ptr) (fun c => { c with parent := some newTc }) h
        let new ← h newTc
        let h ← edit new.child (fun c => { c with parent := none }) h
        tlistAdd newTc ptr h

def maxTallocSize : Nat := 0x10000000

/-- The header that `__talloc` fills in. -/
def freshInfo (size : Nat) : Info :=
  { destructor := none, name := none, size := size, loop := false }

/-- `__talloc`; `mem` is what `malloc` returns. -/
def talloc (mem : Option Ptr) (context : Option Ptr) (size : Nat) (h : Heap) :
    Option (Option Ptr × Heap) :=
  if maxTallocSize ≤ size then some (none, h)
  else
    match mem with
    | none => some (none, h)
    | some tc =>
        match context with
        | none =>
            some (some tc, Function.update h tc (some
              { toLinks := ⟨none, none, none⟩, toInfo := freshInfo size, child := none }))
        | some parent => do
            let p ← h parent
            let h ← edit p.child (fun c => { c with parent := none }) h
            let h := Function.update h tc (some
              { toLinks := ⟨p.child, none, some parent⟩, toInfo := freshInfo size, child := none })
            let h ← edit p.child (fun c => { c with prev := some tc }) h
            let h ← edit (some parent) (fun c => { c with child := some tc }) h
            some (some tc, h)

/-- `_talloc_named_const` -/
def tallocNamedConst (mem : Option Ptr) (context : Option Ptr) (size : Nat) (name : Option String)
    (h : Heap) : Option (Option Ptr × Heap) := do
  let (ptr, h) ← talloc mem context size h
  match ptr with
  | none => some (none, h)
  | some p =>
      let h ← edit (some p) (fun c => { c with name := name }) h
      some (some p, h)

/-- `_talloc_set_destructor` -/
def tallocSetDestructor (ptr : Ptr) (d : Option Destructor) (h : Heap) : Option Heap :=
  edit (some ptr) (fun c => { c with destructor := d }) h

/-! ## What a forest looks like in memory -/

/-- Links of nodes that are out of their row, but still point into it. -/
abbrev Loose := Ptr → Option Links

def rowLinks (F : Forest Ptr) (a : Ptr) : Links :=
  { next := F.next a, prev := F.prev a, parent := if F.prev a = none then F.parent a else none }

def links (F : Forest Ptr) (loose : Loose) (a : Ptr) : Links := (loose a).getD (rowLinks F a)

def shape (F : Forest Ptr) (loose : Loose) (info : Ptr → Info) : Heap :=
  fun a => if a ∈ F.nodes then
    some { toLinks := links F loose a, toInfo := info a, child := F.first a } else none

/-- Only a root can be out of its row. -/
def Settled (F : Forest Ptr) (loose : Loose) : Prop := ∀ a, F.parent a ≠ none → loose a = none

/-- No node is out of its row. -/
def tidy : Loose := fun _ => none

theorem settled_tidy (F : Forest Ptr) : Settled F tidy := fun _ _ => rfl

section Shape

variable {F : Forest Ptr} {loose : Loose} {info : Ptr → Info} {h : Heap} {q : Option Ptr}
  {f : Chunk → Chunk} {a c p : Ptr}

theorem shape_node (ha : a ∈ F.nodes) : shape F loose info a =
    some { toLinks := links F loose a, toInfo := info a, child := F.first a } := if_pos ha

theorem shape_isSome : (shape F loose info a).isSome ↔ a ∈ F.nodes := by
  rw [shape]
  split
  · next h => simp [h]
  · next h => simp [h]

theorem links_row (hl : loose a = none) : links F loose a = rowLinks F a := by
  rw [links, hl]
  rfl

@[simp] theorem adjust_isSome : (adjust q f h a).isSome = (h a).isSome := by
  rw [adjust]
  split
  · rw [Option.isSome_map]
  · rfl

theorem adjust_self : adjust (some a) f h a = (h a).map f := if_pos rfl

theorem adjust_ne (hq : q ≠ some a) : adjust q f h a = h a := if_neg hq

theorem edit_eq (hq : ∀ p, q = some p → (h p).isSome) : edit q f h = some (adjust q f h) := by
  cases q with
  | none =>
      show some h = some (adjust none f h)
      congr 1
  | some p =>
      obtain ⟨c, hc⟩ := Option.isSome_iff_exists.mp (hq p rfl)
      rw [edit, hc]
      rfl

theorem edit_some (hp : (h p).isSome) : edit (some p) f h = some (adjust (some p) f h) := by
  refine edit_eq (fun b hb => ?_)
  obtain rfl := Option.some.inj hb
  exact hp

/-- Neighbours have the same parent. -/
theorem next_parent (h : F.next a = some c) : ∃ p, F.parent a = some p ∧ F.parent c = some p := by
  cases hp : F.parent a with
  | none => rw [F.next_root hp] at h; cases h
  | some p => exact ⟨p, rfl, (Forest.next_row h).2.trans hp⟩

theorem prev_parent (h : F.prev c = some a) : ∃ p, F.parent a = some p ∧ F.parent c = some p :=
  next_parent (Forest.next_iff_prev.mpr h)

/-- A node that is not the first of its row does not show its parent. -/
theorem rowLinks_parent : (rowLinks F a).parent = some p ↔ F.first p = some a := by
  rw [Forest.first_iff, rowLinks]
  by_cases h : F.prev a = none
  · simp [h]
  · simp [h]

/-! ## Out of a row -/

/-- The links of a node that was taken out, not yet overwritten. -/
def staleLinks (F : Forest Ptr) (a : Ptr) : Links :=
  if F.prev a = none then ⟨none, none, F.parent a⟩ else ⟨F.next a, F.prev a, none⟩

/-- Only the neighbours of a node and its parent see that it is taken out. -/
theorem shape_detach_other (hne : c ≠ a) (hnext : F.next c ≠ some a) (hprev : F.prev c ≠ some a)
    (hfirst : F.first c ≠ some a) (l : Links) :
    shape (F.detach a) (Function.update loose a (some l)) info c = shape F loose info c := by
  have hlinks : links (F.detach a) (Function.update loose a (some l)) c = links F loose c := by
    rw [links, Function.update_of_ne hne, rowLinks, Forest.detach_next hne, Forest.detach_prev hne,
      Forest.detach_parent hne, if_neg hnext, if_neg hprev]
    rfl
  rw [shape, shape, hlinks, Forest.detach_first, if_neg hfirst]
  rfl

theorem next_isSome (h : F.next a = some c) : (shape F loose info c).isSome := by
  obtain ⟨p, -, hc⟩ := next_parent h
  exact shape_isSome.mpr (F.closed hc).1

theorem prev_isSome (h : F.prev c = some a) : (shape F loose info a).isSome := by
  obtain ⟨p, ha, -⟩ := prev_parent h
  exact shape_isSome.mpr (F.closed ha).1

/-- The node is a root: the code finds no neighbours. -/
theorem unlink_root (ha : a ∈ F.nodes) (hl : loose a = none) (hp : F.parent a = none) :
    unlink a (shape F loose info) =
      some (shape (F.detach a) (Function.update loose a (some (staleLinks F a))) info) := by
  have hnext := F.next_root hp
  have hprev := F.prev_root hp
  have hheap : shape (F.detach a) (Function.update loose a (some (staleLinks F a))) info =
      shape F loose info := by
    funext c
    by_cases hc : c = a
    · subst hc
      simp [shape, Forest.detach_root hp, links, hl, rowLinks, staleLinks, hnext, hprev, hp]
    · refine shape_detach_other hc ?_ ?_ ?_ _
      · intro h
        rw [Forest.next_iff_prev, hprev] at h
        cases h
      · intro h
        rw [← Forest.next_iff_prev, hnext] at h
        cases h
      · intro h
        rw [Forest.first_iff, hp] at h
        cases h.1
  rw [hheap]
  simp [unlink, shape_node ha, links_row hl, rowLinks, hnext, hprev, hp, edit]

/-- The node is the first of its row: its parent and the next one see it go. -/
theorem unlink_first (hs : Settled F loose) (hf : F.first p = some a) :
    unlink a (shape F loose info) =
      some (shape (F.detach a) (Function.update loose a (some (staleLinks F a))) info) := by
  obtain ⟨hp, hprev⟩ := Forest.first_iff.mp hf
  obtain ⟨ha, hpn⟩ := F.closed hp
  have hl : loose a = none := hs a (by simp [hp])
  have hpa : p ≠ a := fun h => F.parent_ne_self a (by rw [h] at hp; exact hp)
  have hna := F.next_ne_self a
  have hnp : F.next a ≠ some p := by
    intro h
    obtain ⟨q, hq, hqp⟩ := next_parent h
    obtain rfl := Option.some.inj (hp.symm.trans hq)
    exact F.parent_ne_self p hqp
  have hlive {b : Ptr} (hb : F.next a = some b) : (shape F loose info b).isSome := next_isSome hb
  have hedits : unlink a (shape F loose info) =
      some (adjust (F.next a) (fun c => { c with parent := some p })
        (adjust (some a) (fun c => { c with next := none, prev := none })
          (adjust (F.next a) (fun c => { c with prev := none })
            (adjust (some p) (fun c => { c with child := F.next a }) (shape F loose info))))) := by
    have hread : shape F loose info a =
        some { toLinks := ⟨F.next a, none, some p⟩, toInfo := info a, child := F.first a } := by
      rw [shape_node ha, links_row hl, rowLinks, hprev, hp, if_pos rfl]
    have hremove : tlistRemove p a (shape F loose info) =
        some (adjust (some a) (fun c => { c with next := none, prev := none })
          (adjust (F.next a) (fun c => { c with prev := none })
            (adjust (some p) (fun c => { c with child := F.next a }) (shape F loose info)))) := by
      rw [tlistRemove, hread, shape_node hpn]
      simp only [hf, Option.bind_eq_bind, Option.bind_some, if_true]
      rw [edit_some (shape_isSome.mpr hpn)]
      simp only [Option.bind_some]
      rw [edit_eq (fun b hb => by rw [adjust_isSome]; exact hlive hb)]
      simp only [Option.bind_some, adjust_ne hnp, adjust_self, shape_node hpn, Option.map_some,
        hna, if_false]
      rw [edit_some (by rw [adjust_isSome, adjust_isSome]; exact shape_isSome.mpr ha)]
    rw [unlink, hread]
    simp only [Option.bind_eq_bind, Option.bind_some, hremove]
    rw [adjust_ne (by simpa using hpa.symm), adjust_ne hnp, adjust_self, shape_node hpn]
    simp only [Option.map_some, Option.bind_some]
    rw [edit_eq (fun b hb => by rw [adjust_isSome, adjust_isSome, adjust_isSome]; exact hlive hb)]
  rw [hedits]
  congr 1
  funext c
  by_cases hca : c = a
  · subst hca
    rw [adjust_ne hna, adjust_self, adjust_ne hna, adjust_ne (by simpa using hpa)]
    rw [shape_node ha, links_row hl, shape_node (F := F.detach c) ha]
    have hfirst : F.first c ≠ some c := fun h => F.parent_ne_self c (Forest.first_iff.mp h).1
    rw [Forest.detach_first, if_neg hfirst]
    simp [links, rowLinks, staleLinks, hprev, hp]
  have hnext : F.next c ≠ some a := by
    intro h
    rw [Forest.next_iff_prev, hprev] at h
    cases h
  by_cases hcn : F.next a = some c
  · have hprevc := Forest.next_iff_prev.mp hcn
    obtain ⟨q, hq, hpc⟩ := next_parent hcn
    obtain rfl := Option.some.inj (hp.symm.trans hq)
    have hcp : p ≠ c := fun h => hnp (by rw [hcn, h])
    have hfirst : F.first c ≠ some a := by
      intro h
      have h := (Forest.first_iff.mp h).1
      exact hcp (Option.some.inj (hp.symm.trans h))
    have hlc : loose c = none := hs c (by simp [hpc])
    simp [adjust, hcn, Ne.symm hca, hcp, shape, Forest.detach_nodes, (F.closed hpc).1, links, hlc,
      rowLinks, Function.update_of_ne hca, Forest.detach_next hca, Forest.detach_prev hca,
      Forest.detach_parent hca, Forest.detach_first, hnext, hprevc, hprev, hpc, hfirst]
  · have hprevc : F.prev c ≠ some a := fun h => hcn (Forest.next_iff_prev.mpr h)
    rw [adjust_ne hcn, adjust_ne (by simpa using Ne.symm hca), adjust_ne hcn]
    by_cases hcp : p = c
    · subst hcp
      have hlinks : links (F.detach a) (Function.update loose a (some (staleLinks F a))) p =
          links F loose p := by
        rw [links, Function.update_of_ne hca, rowLinks, Forest.detach_next hca,
          Forest.detach_prev hca, Forest.detach_parent hca, if_neg hnext, if_neg hprevc]
        rfl
      rw [adjust_self, shape_node hpn, shape_node (F := F.detach a) hpn, hlinks,
        Forest.detach_first, if_pos hf]
      rfl
    · rw [adjust_ne (by simpa using hcp)]
      refine (shape_detach_other hca hnext hprevc ?_ _).symm
      intro h
      have h := (Forest.first_iff.mp h).1
      exact hcp (Option.some.inj (hp.symm.trans h))

/-- The node is not the first of its row: its neighbours see it go. -/
theorem unlink_inner (hs : Settled F loose) (hp : F.parent a = some p) (hprev : F.prev a ≠ none) :
    unlink a (shape F loose info) =
      some (shape (F.detach a) (Function.update loose a (some (staleLinks F a))) info) := by
  have ha := (F.closed hp).1
  have hl : loose a = none := hs a (by simp [hp])
  obtain ⟨b, hb⟩ := Option.ne_none_iff_exists'.mp hprev
  have hba : b ≠ a := fun h => F.prev_ne_self a (h ▸ hb)
  have hedits : unlink a (shape F loose info) =
      some (adjust (F.next a) (fun c => { c with prev := some b })
        (adjust (some b) (fun c => { c with next := F.next a }) (shape F loose info))) := by
    have hread : shape F loose info a =
        some { toLinks := ⟨F.next a, some b, none⟩, toInfo := info a, child := F.first a } := by
      rw [shape_node ha, links_row hl, rowLinks, hb, if_neg (by simp)]
    rw [unlink, hread]
    simp only [Option.bind_eq_bind, Option.bind_some]
    rw [edit_some (prev_isSome hb)]
    simp only [Option.bind_some]
    rw [adjust_ne (by simpa using hba), hread]
    simp only [Option.bind_some]
    rw [edit_eq (fun c hc => by rw [adjust_isSome]; exact next_isSome hc)]
  rw [hedits]
  congr 1
  funext c
  have hfirst : F.first c ≠ some a := fun h => hprev (Forest.first_iff.mp h).2
  by_cases hca : c = a
  · subst hca
    rw [adjust_ne (F.next_ne_self c), adjust_ne (by simpa using hba), shape_node ha,
      shape_node (F := F.detach c) ha, links_row hl, Forest.detach_first, if_neg hfirst]
    simp [links, rowLinks, staleLinks, hb]
  obtain ⟨q, hbq, hq⟩ := prev_parent hb
  obtain rfl := Option.some.inj (hp.symm.trans hq)
  have hbnext := Forest.next_iff_prev.mpr hb
  by_cases hcb : b = c
  · subst hcb
    have hna := Forest.next_asymm hbnext
    have hprevb : F.prev b ≠ some a := fun h => hna (Forest.next_iff_prev.mpr h)
    have hlb : loose b = none := hs b (by simp [hbq])
    rw [adjust_ne hna, adjust_self, shape_node (F.closed hbq).1,
      shape_node (F := F.detach a) (F.closed hbq).1, links_row hlb, Forest.detach_first,
      if_neg hfirst]
    simp [links, rowLinks, Function.update_of_ne hca, hlb, Forest.detach_next hca, hbnext,
      Forest.detach_prev hca, hprevb, Forest.detach_parent hca]
  · have hnextc : F.next c ≠ some a := by
      intro h
      rw [Forest.next_iff_prev, hb] at h
      exact hcb (Option.some.inj h)
    by_cases hcn : F.next a = some c
    · have hprevc := Forest.next_iff_prev.mp hcn
      obtain ⟨q, hq, hpc⟩ := next_parent hcn
      have hlc : loose c = none := hs c (by simp [hpc])
      rw [hcn, adjust_self, adjust_ne (by simpa using hcb), shape_node (F.closed hpc).1,
        shape_node (F := F.detach a) (F.closed hpc).1, links_row hlc, Forest.detach_first,
        if_neg hfirst]
      simp [links, rowLinks, Function.update_of_ne hca, hlc, Forest.detach_next hca, hnextc,
        Forest.detach_prev hca, hprevc, hb]
    · have hprevc : F.prev c ≠ some a := fun h => hcn (Forest.next_iff_prev.mpr h)
      rw [adjust_ne hcn, adjust_ne (by simpa using hcb)]
      exact (shape_detach_other hca hnextc hprevc hfirst _).symm

theorem unlink_shape (ha : a ∈ F.nodes) (hs : Settled F loose) (hl : loose a = none) :
    unlink a (shape F loose info) =
      some (shape (F.detach a) (Function.update loose a (some (staleLinks F a))) info) := by
  cases hp : F.parent a with
  | none => exact unlink_root ha hl hp
  | some p =>
      by_cases hprev : F.prev a = none
      · exact unlink_first hs (Forest.first_iff.mpr ⟨hp, hprev⟩)
      · exact unlink_inner hs hp hprev

/-! ## Into a row -/

/-- A memory is that of the forest with `a` in front of the children of `p`, if
    these chunks are right and all others are as before. -/
theorem eq_shape_attach (hatt : F.Attachable p a) (hs : Settled F loose) (hl : loose a = none)
    (hself : h a = some { toLinks := ⟨F.first p, none, some p⟩, toInfo := info a,
                          child := F.first a })
    (hparent : h p = some { toLinks := links F loose p, toInfo := info p, child := some a })
    (hnext : ∀ f, F.first p = some f →
      h f = some { toLinks := ⟨F.next f, some a, none⟩, toInfo := info f, child := F.first f })
    (hother : ∀ c, c ≠ a → c ≠ p → F.first p ≠ some c → h c = shape F loose info c) :
    h = shape (F.attach p a hatt) loose info := by
  have hpa : p ≠ a := fun h => hatt.free (h ▸ .refl)
  have hff : F.first p ≠ some a := by
    intro h
    have hroot := hatt.root
    rw [(Forest.first_iff.mp h).1] at hroot
    cases hroot
  funext c
  by_cases hca : c = a
  · subst hca
    rw [hself, shape_node (F := F.attach p c hatt) hatt.node, links_row hl, rowLinks,
      Forest.attach_next_self, Forest.attach_prev_self, Forest.attach_parent_self,
      Forest.attach_first, if_neg (Ne.symm hpa), if_pos rfl]
  by_cases hcf : F.first p = some c
  · have hpc := (Forest.first_iff.mp hcf).1
    have hc := (F.closed hpc).1
    have hcp : c ≠ p := fun h => F.parent_ne_self p (h ▸ hpc)
    have hlc : loose c = none := hs c (by simp [hpc])
    rw [hnext c hcf, shape_node (F := F.attach p a hatt) hc, links_row hlc, rowLinks,
      Forest.attach_next hca, Forest.attach_prev hca, Forest.attach_first, if_pos hcf, if_neg hcp]
    simp
  have hlinks : links (F.attach p a hatt) loose c = links F loose c := by
    rw [links, links, rowLinks, Forest.attach_next hca, Forest.attach_prev hca,
      Forest.attach_parent hca, if_neg hcf]
    rfl
  by_cases hcp : c = p
  · rw [hcp] at hlinks ⊢
    rw [hparent, shape_node (F := F.attach p a hatt) hatt.target, hlinks, Forest.attach_first,
      if_pos rfl]
  · rw [hother c hca hcp hcf, shape, shape, hlinks, Forest.attach_first, if_neg hcp]
    rfl

theorem settled_detach (hs : Settled F loose) (l : Links) :
    Settled (F.detach a) (Function.update loose a (some l)) := by
  intro c hc
  by_cases hca : c = a
  · rw [hca, Forest.detach_parent_self] at hc
    exact absurd rfl hc
  · rw [Forest.detach_parent hca] at hc
    rw [Function.update_of_ne hca]
    exact hs c hc

/-- Clear links of a node that is out of its row are those of a root. -/
theorem shape_cleared (hl : loose a = none) (hp : F.parent a = none) :
    shape F (Function.update loose a (some ⟨none, none, none⟩)) info = shape F loose info := by
  funext c
  by_cases hca : c = a
  · subst hca
    simp [shape, links, hl, rowLinks, F.next_root hp, F.prev_root hp, hp]
  · simp [shape, links, Function.update_of_ne hca]

theorem steal_none_shape (ha : a ∈ F.nodes) (hs : Settled F loose) (hl : loose a = none) :
    tallocSteal none a (shape F loose info) = some (shape (F.detach a) loose info) := by
  have hn : a ∈ (F.detach a).nodes := ha
  rw [tallocSteal, unlink_shape ha hs hl]
  simp only [Option.bind_eq_bind, Option.bind_some]
  rw [edit_some (shape_isSome.mpr hn), ← shape_cleared hl (Forest.detach_parent_self a)]
  congr 1
  funext c
  by_cases hca : a = c
  · subst hca
    rw [adjust_self, shape_node hn, shape_node hn]
    simp [links]
  · rw [adjust_ne (by simpa using hca)]
    simp [shape, links, Function.update_of_ne (Ne.symm hca)]

/-- `_TLIST_ADD`, once the new parent is written and the old first child is not
    the first any more. -/
theorem tlistAdd_shape {l : Links} (hatt : F.Attachable p a) (hs : Settled F loose)
    (hl : loose a = none) :
    tlistAdd p a (adjust (F.first p) (fun c => { c with parent := none })
      (adjust (some a) (fun c => { c with parent := some p })
        (shape F (Function.update loose a (some l)) info))) =
      some (shape (F.attach p a hatt) loose info) := by
  have hpa : p ≠ a := fun h => hatt.free (h ▸ .refl)
  have hfp : F.first p ≠ some p := fun h => F.parent_ne_self p (Forest.first_iff.mp h).1
  have hfa : F.first p ≠ some a := by
    intro h
    have hroot := hatt.root
    rw [(Forest.first_iff.mp h).1] at hroot
    cases hroot
  have ha : (shape F (Function.update loose a (some l)) info a).isSome :=
    shape_isSome.mpr hatt.node
  have hp : (shape F (Function.update loose a (some l)) info p).isSome :=
    shape_isSome.mpr hatt.target
  have hother {c} (hc : c ≠ a) :
      shape F (Function.update loose a (some l)) info c = shape F loose info c := by
    rw [shape, shape, links, links, Function.update_of_ne hc]
  have hreada : shape F (Function.update loose a (some l)) info a =
      some { toLinks := l, toInfo := info a, child := F.first a } := by
    rw [shape_node hatt.node, links, Function.update_self]
    rfl
  have hreadp := (hother hpa).trans (shape_node hatt.target)
  rw [tlistAdd, adjust_ne hfp, adjust_ne (by simpa using hpa.symm), hreadp]
  simp only [Option.bind_eq_bind, Option.bind_some]
  cases hfirst : F.first p with
  | none =>
      simp only
      rw [edit_some (by rw [adjust_isSome, adjust_isSome]; exact hp)]
      simp only [Option.bind_some]
      rw [edit_some (by rw [adjust_isSome, adjust_isSome, adjust_isSome]; exact ha)]
      congr 1
      refine eq_shape_attach hatt hs hl ?_ ?_ ?_ ?_
      · rw [adjust_self, adjust_ne (by simpa using hpa), adjust_ne (by simp), adjust_self, hreada,
          hfirst]
        rfl
      · rw [adjust_ne (by simpa using hpa.symm), adjust_self, adjust_ne (by simp),
          adjust_ne (by simpa using hpa.symm), hreadp]
        rfl
      · intro f hf
        rw [hfirst] at hf
        cases hf
      · intro c hca hcp _
        rw [adjust_ne (by simpa using hca.symm), adjust_ne (by simpa using hcp.symm),
          adjust_ne (by simp), adjust_ne (by simpa using hca.symm), hother hca]
  | some f =>
      have hpf := (Forest.first_iff.mp hfirst).1
      have hf : (shape F (Function.update loose a (some l)) info f).isSome :=
        shape_isSome.mpr (F.closed hpf).1
      have hfp : f ≠ p := fun h => hfp (h ▸ hfirst)
      have hfa : f ≠ a := fun h => hfa (h ▸ hfirst)
      have hreadf : shape F (Function.update loose a (some l)) info f =
          some { toLinks := rowLinks F f, toInfo := info f, child := F.first f } := by
        rw [hother hfa, shape_node (F.closed hpf).1, links_row (hs f (by simp [hpf]))]
      simp only
      rw [edit_some (by rw [adjust_isSome, adjust_isSome]; exact hf)]
      simp only [Option.bind_some]
      rw [edit_some (by rw [adjust_isSome, adjust_isSome, adjust_isSome]; exact ha)]
      simp only [Option.bind_some]
      rw [edit_some (by rw [adjust_isSome, adjust_isSome, adjust_isSome, adjust_isSome]; exact hp)]
      congr 1
      refine eq_shape_attach hatt hs hl ?_ ?_ ?_ ?_
      · rw [adjust_ne (by simpa using hpa), adjust_self, adjust_ne (by simpa using hfa),
          adjust_ne (by simpa using hfa), adjust_self, hreada, hfirst]
        rfl
      · rw [adjust_self, adjust_ne (by simpa using hpa.symm), adjust_ne (by simpa using hfp),
          adjust_ne (by simpa using hfp), adjust_ne (by simpa using hpa.symm), hreadp]
        rfl
      · intro g hg
        obtain rfl : f = g := Option.some.inj (hfirst.symm.trans hg)
        rw [adjust_ne (by simpa using hfp.symm), adjust_ne (by simpa using hfa.symm), adjust_self,
          adjust_self, adjust_ne (by simpa using hfa.symm), hreadf]
        rfl
      · intro c hca hcp hcf
        rw [hfirst] at hcf
        rw [adjust_ne (by simpa using hcp.symm), adjust_ne (by simpa using hca.symm),
          adjust_ne hcf, adjust_ne hcf, adjust_ne (by simpa using hca.symm), hother hca]

theorem steal_some_shape (ha : a ∈ F.nodes) (hs : Settled F loose) (hl : loose a = none)
    (hP : F.Target (some p) a) :
    tallocSteal (some p) a (shape F loose info) = some (shape (F.steal (some p) a) loose info) := by
  obtain ⟨hp, hb⟩ := hP p rfl
  have hpa : a ≠ p := fun h => hb (h ▸ .refl)
  have hatt := Forest.attachable_detach ha hp hb
  rw [tallocSteal, shape_node ha, shape_node hp, links_row hl]
  simp only [Option.bind_eq_bind, Option.bind_some, rowLinks_parent, hpa, false_or]
  by_cases hf : F.first p = some a
  · rw [if_pos hf, Forest.steal_first hf]
  have hs' : Settled (F.detach a) loose := by
    intro c hc
    by_cases hca : c = a
    · rw [hca, hl]
    · rw [Forest.detach_parent hca] at hc
      exact hs c hc
  rw [if_neg hf, unlink_shape ha hs hl, Forest.steal_some hatt]
  simp only [Option.bind_some]
  rw [edit_some (shape_isSome.mpr hatt.node)]
  simp only [Option.bind_some]
  rw [adjust_ne (by simpa using hpa), shape_node hatt.target]
  simp only [Option.bind_some]
  rw [edit_eq (fun f hf => by
    rw [adjust_isSome]
    exact shape_isSome.mpr ((F.detach a).closed (Forest.first_child hf)).1)]
  exact tlistAdd_shape hatt hs' hl

theorem steal_shape {P : Option Ptr} (ha : a ∈ F.nodes) (hs : Settled F loose)
    (hl : loose a = none) (hP : F.Target P a) :
    tallocSteal P a (shape F loose info) = some (shape (F.steal P a) loose info) := by
  cases P with
  | none => exact steal_none_shape ha hs hl
  | some p => exact steal_some_shape ha hs hl hP

/-! ## New chunks -/

theorem sprout_target {P : Option Ptr} (ha : a ∉ F.nodes) (hP : ∀ p, P = some p → p ∈ F.nodes) :
    (F.sprout a).Target P a := by
  intro p hp
  have hpn := hP p hp
  refine ⟨Finset.mem_insert_of_mem hpn, fun h => ?_⟩
  rcases Relation.ReflTransGen.cases_head h with rfl | ⟨b, hb, -⟩
  · exact ha hpn
  · exact ha (F.closed hb).2

theorem shape_sprout_other (hc : c ≠ a) (i : Info) :
    shape (F.sprout a) loose (Function.update info a i) c = shape F loose info c := by
  rw [shape, shape, Function.update_of_ne hc]
  show (if c ∈ insert a F.nodes then _ else _) = _
  simp only [Finset.mem_insert, hc, false_or]
  rfl

theorem talloc_shape {P : Option Ptr} {size : Nat} (ha : a ∉ F.nodes) (hs : Settled F loose)
    (hl : loose a = none) (hP : ∀ p, P = some p → p ∈ F.nodes) (hsize : size < maxTallocSize) :
    talloc (some a) P size (shape F loose info) =
      some (some a, shape ((F.sprout a).steal P a) loose
        (Function.update info a (freshInfo size))) := by
  have hroot : (F.sprout a).parent a = none := F.parent_of_not_mem ha
  have hfirst : (F.sprout a).first a = none := by
    show (F.kids a).head? = none
    rw [F.kids_of_not_mem ha]
    rfl
  have hnode : a ∈ (F.sprout a).nodes := Finset.mem_insert_self a _
  have htarget := sprout_target ha hP
  have hsa : Settled (F.sprout a) loose := hs
  unfold talloc
  rw [if_neg (by omega)]
  cases P with
  | none =>
      show some (some a, _) = _
      rw [Forest.steal_none, Forest.detach_root hroot]
      congr 2
      funext c
      by_cases hca : c = a
      · subst hca
        rw [Function.update_self, shape_node hnode, links_row hl, rowLinks, hfirst,
          Forest.next_root hroot, Forest.prev_root hroot, hroot, Function.update_self, if_pos rfl]
      · rw [Function.update_of_ne hca, shape_sprout_other hca]
  | some p =>
      have hpn := hP p rfl
      have hpa : p ≠ a := fun h => ha (h ▸ hpn)
      obtain ⟨hp, hb⟩ := htarget p rfl
      have hatt : (F.sprout a).Attachable p a := ⟨hnode, hp, hroot, hb⟩
      have hfp : F.first p ≠ some p := fun h => F.parent_ne_self p (Forest.first_child h)
      have hlive {f} (hf : F.first p = some f) : (shape F loose info f).isSome :=
        shape_isSome.mpr (F.closed (Forest.first_child hf)).1
      have hnew {f} (hf : F.first p = some f) : f ≠ a :=
        fun h => ha (h ▸ (F.closed (Forest.first_child hf)).1)
      simp only [shape_node hpn, Option.bind_eq_bind, Option.bind_some]
      rw [edit_eq (fun f hf => hlive hf)]
      simp only [Option.bind_some]
      rw [edit_eq (fun f hf => by
        rw [Function.update_of_ne (hnew hf), adjust_isSome]
        exact hlive hf)]
      simp only [Option.bind_some]
      rw [edit_some (by
        rw [adjust_isSome, Function.update_of_ne hpa, adjust_isSome]
        exact shape_isSome.mpr hpn)]
      simp only [Option.bind_some]
      rw [Forest.steal_root hroot hatt]
      congr 2
      have hfa : F.first p ≠ some a := fun h => hnew h rfl
      refine eq_shape_attach hatt hsa hl ?_ ?_ ?_ ?_
      · rw [adjust_ne (by simpa using hpa), adjust_ne hfa, Function.update_self,
          Function.update_self, hfirst]
        rfl
      · rw [adjust_self, adjust_ne hfp, Function.update_of_ne hpa, adjust_ne hfp, shape_node hpn,
          Function.update_of_ne hpa]
        rfl
      · intro f hf
        have hf : F.first p = some f := hf
        have hpf := Forest.first_child hf
        have hfp' : p ≠ f := fun h => hfp (h ▸ hf)
        rw [adjust_ne (by simpa using hfp'), hf, adjust_self, Function.update_of_ne (hnew hf),
          adjust_self, shape_node (F.closed hpf).1, links_row (hs f (by rw [hpf]; simp)),
          Function.update_of_ne (hnew hf)]
        rfl
      · intro c hca hcp hcf
        have hcf : F.first p ≠ some c := hcf
        rw [adjust_ne (by simpa using hcp.symm), adjust_ne hcf, Function.update_of_ne hca,
          adjust_ne hcf, shape_sprout_other hca]

end Shape

end Talloc
