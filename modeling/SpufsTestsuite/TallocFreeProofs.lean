import Mathlib
import SpufsTestsuite.FuelProofs
import SpufsTestsuite.TallocProofs

/-! # talloc — freeing

    `_talloc_free` takes a chunk out of its row, frees its children one after
    the other, and then the chunk.  A child whose destructor refuses goes to the
    chunk's old parent, which the code looks up again from the links of a chunk
    that is not in its row any more.

    No chunk has a second reference here: the branches of `_talloc_free` and of its
    loop for a chunk with `refs`, or for a child that is the handle of one, are not
    taken.

    `freeChildren` is the loop that `_talloc_free` and `talloc_free_children`
    both have.  It is shown to clear the children in the sense of
    `Forest.Clears`; what is left follows from `Forest.Cleared`. -/

namespace Talloc

open Fuel (Returns)

/-! ## Up to the parent -/

/-- `while (tc->prev) tc=tc->prev;` -/
def firstSibling : Nat → Ptr → Heap → Option Ptr
  | 0, _, _ => none
  | n + 1, tc, h => do
      let t ← h tc
      match t.prev with
      | none => some tc
      | some prev => firstSibling n prev h

/-- `talloc_parent_chunk` -/
def tallocParentChunk (n : Nat) (ptr : Option Ptr) (h : Heap) : Option (Option Ptr) :=
  match ptr with
  | none => some none
  | some ptr => do
      let tc ← firstSibling n ptr h
      let t ← h tc
      some t.parent

/-! ## Free -/

/-- The destructor is called, if there is one; is the chunk to be freed? -/
def callDestructor (ptr : Ptr) (h : Heap) : Option (Bool × Heap) := do
  let tc ← h ptr
  match tc.destructor with
  | none => some (true, h)
  | some .running => some (false, h)
  | some (.fn rc) => do
      let h ← edit (some ptr) (fun c => { c with destructor := some .running }) h
      if rc = -1 then do
        let h ← edit (some ptr) (fun c => { c with destructor := some (.fn rc) }) h
        some (false, h)
      else do
        let h ← edit (some ptr) (fun c => { c with destructor := none }) h
        some (true, h)

mutual

/-- `_talloc_free`, for a memory without references. -/
def tallocFree : Nat → Option Ptr → Heap → Option (Int × Heap)
  | _, none, h => some (-1, h)
  | 0, some _, _ => none
  | n + 1, some ptr, h => do
      let tc ← h ptr
      if tc.loop then some (0, h)
      else do
        let (go, h) ← callDestructor ptr h
        if go then do
          let h ← unlink ptr h
          let h ← edit (some ptr) (fun c => { c with loop := true }) h
          let h ← freeChildren n ptr h
          let h ← release ptr h
          some (0, h)
        else some (-1, h)

/-- `while (tc->child) { ... }`, for a memory without references: a child that
    stays goes to the parent of `ptr`. -/
def freeChildren : Nat → Ptr → Heap → Option Heap
  | 0, _, _ => none
  | n + 1, ptr, h => do
      let tc ← h ptr
      match tc.child with
      | none => some h
      | some child => do
          let (rc, h) ← tallocFree n (some child) h
          if rc = -1 then do
            let newParent ← tallocParentChunk n (some ptr) h
            let h ← tallocSteal newParent child h
            freeChildren n ptr h
          else freeChildren n ptr h

end

/-- `talloc_free_children` -/
def tallocFreeChildren (n : Nat) (ptr : Option Ptr) (h : Heap) : Option Heap :=
  match ptr with
  | none => some h
  | some ptr => freeChildren n ptr h

section Walk

variable {F F' F₁ : Forest Ptr} {loose : Loose} {info : Ptr → Info} {P : Option Ptr}
  {a c k p x : Ptr}

/-- From any node of a row the code gets to the first one. -/
theorem firstSibling_shape (info : Ptr → Info) (hs : Settled F loose) (ha : F.parent a = some p) :
    ∃ f, F.first p = some f ∧ Returns (fun n => firstSibling n a (shape F loose info)) f := by
  refine Forest.prev_induction (a := a) (C := fun a => ∃ f, F.first p = some f ∧
    Returns (fun n => firstSibling n a (shape F loose info)) f) ha ?_
  intro c hc ih
  have hread : shape F loose info c = some
      { toLinks := rowLinks F c, toInfo := info c, child := F.first c } := by
    rw [shape_node (F.closed hc).1, links_row (hs c (by simp [hc]))]
  cases hprev : F.prev c with
  | none =>
      refine ⟨c, Forest.first_iff.mpr ⟨hc, hprev⟩, (Returns.pure c).step ?_⟩
      intro n
      rw [firstSibling, hread]
      simp [rowLinks, hprev]
  | some b =>
      obtain ⟨f, hf, hret⟩ := ih b hprev
      refine ⟨f, hf, hret.step ?_⟩
      intro n
      rw [firstSibling, hread]
      simp [rowLinks, hprev]

/-- The links of `x` lead to `P`: those of a row, or those that were left over. -/
inductive Leads (F : Forest Ptr) (loose : Loose) (x : Ptr) (P : Option Ptr) : Prop
  | row (hl : loose x = none) (hp : F.parent x = P)
  | first (l : Links) (hl : loose x = some l) (hprev : l.prev = none) (hp : l.parent = P)
  | inner (l : Links) (s p : Ptr) (hl : loose x = some l) (hprev : l.prev = some s)
      (hP : P = some p) (hp : F.parent s = some p)

theorem parentChunk_shape (info : Ptr → Info) (hx : x ∈ F.nodes) (hs : Settled F loose)
    (h : Leads F loose x P) :
    Returns (fun n => tallocParentChunk n (some x) (shape F loose info)) P := by
  have hrow {s p : Ptr} (hp : F.parent s = some p) :
      Returns (fun n => tallocParentChunk n (some s) (shape F loose info)) (some p) := by
    obtain ⟨f, hf, hret⟩ := firstSibling_shape info hs hp
    have hpf := Forest.first_child hf
    refine hret.bind ((Returns.pure _).congr (fun n => ?_))
    rw [shape_node (F.closed hpf).1, links_row (hs f (by rw [hpf]; simp)), ← rowLinks_parent.mpr hf]
    rfl
  have hread : shape F loose info x = some
      { toLinks := links F loose x, toInfo := info x, child := F.first x } := shape_node hx
  have hself (hprev : (links F loose x).prev = none) :
      Returns (fun n => tallocParentChunk n (some x) (shape F loose info))
        (links F loose x).parent := by
    refine ((Returns.pure x).step (fun n => ?_)).bind ((Returns.pure _).congr (fun n => ?_))
    · rw [firstSibling, hread]
      simp [hprev]
    · rw [hread]
      rfl
  cases h with
  | row hl hp =>
      subst hp
      cases hpx : F.parent x with
      | none =>
          have hparent : (links F loose x).parent = none := by
            rw [links_row hl, rowLinks, F.prev_root hpx, if_pos rfl, hpx]
          rw [← hparent]
          exact hself (by rw [links_row hl]; exact F.prev_root hpx)
      | some p => exact hrow hpx
  | first l hl hprev hp =>
      have hlinks : links F loose x = l := by
        rw [links, hl]
        rfl
      rw [← hp, ← hlinks]
      exact hself (by rw [hlinks, hprev])
  | inner l s p hl hprev hP hp =>
      have hlinks : links F loose x = l := by
        rw [links, hl]
        rfl
      subst hP
      obtain ⟨n, hn⟩ := hrow hp
      refine ⟨n + 1, ?_⟩
      intro m hm
      obtain ⟨k, rfl⟩ := Nat.exists_eq_add_of_le' hm
      have hfirst : firstSibling (k + (n + 1)) x (shape F loose info) =
          firstSibling (k + n) s (shape F loose info) := by
        rw [← Nat.add_assoc, firstSibling, hread]
        simp [hlinks, hprev]
      show (firstSibling (k + (n + 1)) x (shape F loose info)).bind _ = _
      rw [hfirst]
      exact hn (k + n) (by omega)

end Walk

section Clear

variable {F F' F₁ : Forest Ptr} {loose : Loose} {info : Ptr → Info} {P : Option Ptr}
  {a c k p x : Ptr}

/-- The destructor refuses, or is running. -/
def Vetoes (i : Info) : Prop := i.destructor = some .running ∨ i.destructor = some (.fn (-1))

instance (i : Info) : Decidable (Vetoes i) := inferInstanceAs (Decidable (_ ∨ _))

/-- What the header says while the children are freed. -/
def freeing (i : Info) : Info := { i with destructor := none, loop := true }

theorem edit_info {f : Chunk → Chunk} {i : Info} (ha : a ∈ F.nodes)
    (hf : ∀ l ch, f { toLinks := l, toInfo := info a, child := ch } =
      { toLinks := l, toInfo := i, child := ch }) :
    edit (some a) f (shape F loose info) =
      some (shape F loose (Function.update info a i)) := by
  rw [edit_some (shape_isSome.mpr ha)]
  congr 1
  funext c
  by_cases hc : a = c
  · subst hc
    rw [adjust_self, shape_node ha, shape_node ha, Function.update_self]
    exact congrArg some (hf _ _)
  · rw [adjust_ne (by simpa using hc), shape, shape, Function.update_of_ne (Ne.symm hc)]

theorem callDestructor_veto (ha : a ∈ F.nodes) (h : Vetoes (info a)) :
    callDestructor a (shape F loose info) = some (false, shape F loose info) := by
  rw [callDestructor, shape_node ha]
  rcases h with h | h
  · simp [h]
  · have hback : ({ info a with destructor := some (.fn (-1)) } : Info) = info a := by
      rw [← h]
    simp only [Option.bind_eq_bind, Option.bind_some, h, if_true]
    rw [edit_info (i := { info a with destructor := some .running }) ha (fun _ _ => rfl)]
    simp only [Option.bind_some]
    rw [edit_info (i := { info a with destructor := some (.fn (-1)) }) ha
      (fun _ _ => by rw [Function.update_self])]
    rw [Function.update_idem, hback, Function.update_eq_self]
    rfl

theorem callDestructor_go (ha : a ∈ F.nodes) (h : ¬ Vetoes (info a)) :
    callDestructor a (shape F loose info) =
      some (true, shape F loose (Function.update info a { info a with destructor := none })) := by
  obtain ⟨hrun, hrc⟩ := not_or.mp h
  rw [callDestructor, shape_node ha]
  simp only [Option.bind_eq_bind, Option.bind_some]
  cases hd : (info a).destructor with
  | none =>
      have hsame : ({ info a with destructor := none } : Info) = info a := by
        rw [← hd]
      rw [hsame, Function.update_eq_self]
  | some d =>
      cases d with
      | running => exact absurd hd hrun
      | fn rc =>
          have hne : rc ≠ -1 := fun h => hrc (by rw [hd, h])
          simp only [hne, if_false]
          rw [edit_info (i := { info a with destructor := some .running }) ha (fun _ _ => rfl)]
          simp only [Option.bind_some]
          rw [edit_info (i := { info a with destructor := none }) ha
            (fun _ _ => by rw [Function.update_self]), Function.update_idem]
          rfl

/-- What was said of the links and the header of a chunk goes with it. -/
theorem release_shape {l : Links} {i : Info} (ha : a ∈ F.nodes) (idle : F.Idle a) :
    release a (shape F (Function.update loose a (some l)) (Function.update info a i)) =
      some (shape (F.drop a idle) loose info) := by
  rw [release, shape_node ha]
  show some (Function.update (shape F (Function.update loose a (some l))
    (Function.update info a i)) a none) = _
  congr 1
  funext c
  by_cases hc : c = a
  · subst hc
    rw [Function.update_self]
    exact (if_neg (Finset.notMem_erase c F.nodes)).symm
  · rw [Function.update_of_ne hc, shape, shape, links, links, Function.update_of_ne hc,
      Function.update_of_ne hc]
    show _ = (if c ∈ F.nodes.erase a then _ else _)
    simp only [Finset.mem_erase, ne_eq, hc, not_false_eq_true, true_and]
    rfl

/-- A chunk that refuses is left as it is. -/
theorem free_veto (ha : a ∈ F.nodes) (hloop : (info a).loop = false) (h : Vetoes (info a)) :
    Returns (fun n => tallocFree n (some a) (shape F loose info)) (-1, shape F loose info) := by
  refine (Returns.pure _).step (fun n => ?_)
  rw [tallocFree, callDestructor_veto ha h, shape_node ha]
  simp [hloop]

/-- A chunk that does not refuse is freed once its children are. -/
theorem free_go (ha : a ∈ F.nodes) (hs : Settled F loose) (hl : loose a = none)
    (hloop : (info a).loop = false) (h : ¬ Vetoes (info a)) (idle : F₁.Idle a) (ha₁ : a ∈ F₁.nodes)
    (hchildren : Returns (fun n => freeChildren n a
        (shape (F.detach a) (Function.update loose a (some (staleLinks F a)))
          (Function.update info a (freeing (info a)))))
      (shape F₁ (Function.update loose a (some (staleLinks F a)))
        (Function.update info a (freeing (info a))))) :
    Returns (fun n => tallocFree n (some a) (shape F loose info))
      (0, shape (F₁.drop a idle) loose info) := by
  have hstart (n : Nat) : tallocFree (n + 1) (some a) (shape F loose info) =
      (freeChildren n a (shape (F.detach a) (Function.update loose a (some (staleLinks F a)))
        (Function.update info a (freeing (info a))))).bind
          (fun h => (release a h).bind (fun h => some (0, h))) := by
    rw [tallocFree, callDestructor_go ha h, shape_node ha]
    simp only [Option.bind_eq_bind, Option.bind_some, hloop, Bool.false_eq_true, if_false, if_true]
    rw [unlink_shape ha hs hl]
    simp only [Option.bind_some]
    rw [edit_info (i := freeing (info a)) (F := F.detach a) ha
      (fun _ _ => by rw [Function.update_self]; rfl), Function.update_idem]
    rfl
  refine (hchildren.bind ((Returns.pure _).congr (fun n => ?_))).step hstart
  rw [release_shape ha₁ idle]
  rfl

/-! ## The children -/

/-- What the headers below `x` say before its children are freed. -/
def Ready (keep : Ptr → Prop) (F : Forest Ptr) (info : Ptr → Info) (x : Ptr) : Prop :=
  ∀ a, F.Below x a → a ≠ x → (keep a ↔ Vetoes (info a)) ∧ (info a).loop = false

theorem freeChildren_leaf (hx : x ∈ F.nodes) (hfirst : F.first x = none) (n : Nat) :
    freeChildren (n + 1) x (shape F loose info) = some (shape F loose info) := by
  rw [freeChildren, shape_node hx]
  simp [hfirst]

theorem freeChildren_child (hx : x ∈ F.nodes) (hfirst : F.first x = some k) (n : Nat) :
    freeChildren (n + 1) x (shape F loose info) =
      (tallocFree n (some k) (shape F loose info)).bind (fun r =>
        if r.1 = -1 then
          (tallocParentChunk n (some x) r.2).bind (fun newParent =>
            (tallocSteal newParent k r.2).bind (fun h => freeChildren n x h))
        else freeChildren n x r.2) := by
  rw [freeChildren, shape_node hx]
  simp only [hfirst, Option.bind_eq_bind, Option.bind_some]

theorem settled_steal (hs : Settled F loose) (hl : loose k = none) :
    Settled (F.steal P k) loose := by
  intro c hc
  by_cases hck : c = k
  · rw [hck, hl]
  · rw [Forest.steal_parent hck] at hc
    exact hs c hc

/-- Links that led to `P` still do, if who was below `P` still is. -/
theorem Leads.mono (h : Leads F loose x P) (hx : loose x = none → F'.parent x = F.parent x)
    (hP : ∀ s p, P = some p → F.parent s = some p → F'.parent s = some p) :
    Leads F' loose x P := by
  cases h with
  | row hl hp => exact .row hl ((hx hl).trans hp)
  | first l hl hprev hp => exact .first l hl hprev hp
  | inner l s p hl hprev hPp hp => exact .inner l s p hl hprev hPp (hP s p hPp hp)

/-- A chunk just taken out of its row still leads to where it was. -/
theorem leads_detach (a : Ptr) :
    Leads (F.detach a) (Function.update loose a (some (staleLinks F a))) a (F.parent a) := by
  have hl : Function.update loose a (some (staleLinks F a)) a = some (staleLinks F a) :=
    Function.update_self ..
  cases hprev : F.prev a with
  | none =>
      refine .first _ hl ?_ ?_
      · rw [staleLinks, if_pos hprev]
      · rw [staleLinks, if_pos hprev]
  | some s =>
      obtain ⟨p, hs, ha⟩ := prev_parent hprev
      have hsa : s ≠ a := fun h => F.prev_ne_self a (h ▸ hprev)
      refine .inner _ s p hl ?_ ha ((Forest.detach_parent hsa).trans hs)
      rw [staleLinks, if_neg (by simp [hprev]), hprev]

open Forest (Clears Cleared)

/-- The loop clears the children of `x`. -/
theorem clears_shape {keep : Ptr → Prop} (h : Clears keep P x F F') {loose : Loose}
    {info : Ptr → Info} (hx : x ∈ F.nodes) (hP : F.Target P x) (hs : Settled F loose)
    (hlead : Leads F loose x P) (hready : Ready keep F info x) :
    Returns (fun n => freeChildren n x (shape F loose info)) (shape F' loose info) := by
  induction h generalizing loose info with
  | @done P x F leaf =>
      refine (Returns.pure _).step (fun n => freeChildren_leaf hx ?_ n)
      rw [Forest.first, leaf]
      rfl
  | @kept P x k F F' child hkeep rest ih =>
      have hedge := Forest.first_child child
      have hk := (F.closed hedge).1
      have hl : loose k = none := hs k (by rw [hedge]; simp)
      have hkx : k ≠ x := fun h => F.parent_ne_self x (by rw [h] at hedge; exact hedge)
      have hPk := Forest.target_child child hkeep hP
      obtain ⟨hveto, hloop⟩ := hready k (.single hedge) hkx
      have hlead' : Leads (F.steal P k) loose x P := by
        refine hlead.mono (fun _ => Forest.steal_parent (Ne.symm hkx)) ?_
        rintro s p rfl hp
        rw [Forest.steal_parent, hp]
        rintro rfl
        obtain rfl := Option.some.inj (hp.symm.trans hedge)
        exact (hP p rfl).2 .refl
      have hready' : Ready keep (F.steal P k) info x :=
        fun a ha => hready a (Forest.kept_below child hkeep hP ha)
      have hnext := ih (by rwa [Forest.steal_nodes]) (Forest.kept_target child hkeep hP)
        (settled_steal hs hl) hlead' hready'
      refine ((free_veto hk hloop (hveto.mp hkeep)).bind ?_).step (freeChildren_child hx child)
      refine ((parentChunk_shape info hx hs hlead).bind ?_).congr (fun n => if_pos rfl)
      refine hnext.congr (fun n => ?_)
      show (tallocSteal P k (shape F loose info)).bind _ = _
      rw [steal_shape hk hs hl hPk]
      rfl
  | @gone P x k F F₁ F' child hkeep inner idle rest ihk ihx =>
      have hedge := Forest.first_child child
      have hk := (F.closed hedge).1
      have hl : loose k = none := hs k (by rw [hedge]; simp)
      have hkx : k ≠ x := fun h => F.parent_ne_self x (by rw [h] at hedge; exact hedge)
      have hPk := Forest.detach_target hedge
      have h₁ := inner.cleared hk hPk
      obtain ⟨hveto, hloop⟩ := hready k (.single hedge) hkx
      have hleadk : Leads (F.detach k) (Function.update loose k (some (staleLinks F k))) k
          (F.parent k) := leads_detach k
      rw [hedge] at hleadk
      have hreadyk : Ready keep (F.detach k) (Function.update info k (freeing (info k))) k := by
        intro a ha hak
        have hka := Forest.detach_below_le ha
        rw [Function.update_of_ne hak]
        refine hready a (.head hedge hka) ?_
        rintro rfl
        exact Forest.not_below_child hedge hka
      have hchildren := ihk hk hPk (settled_detach hs _) hleadk hreadyk
      have hgo := free_go hk hs hl hloop (fun hv => hkeep (hveto.mpr hv)) idle
        ((h₁.nodes k).mpr ⟨hk, fun _ => rfl⟩) hchildren
      have hs' : Settled (F₁.drop k idle) loose :=
        fun c hc => hs c (Forest.lost_root child hkeep h₁ idle hc)
      have hlead' : Leads (F₁.drop k idle) loose x P := by
        refine hlead.mono (fun _ => Forest.lost_parent_self child hkeep h₁ idle hx) ?_
        intro s p hp hsp
        exact Forest.lost_outside child hkeep h₁ idle (hP p hp).2 hsp
      have hready' : Ready keep (F₁.drop k idle) info x :=
        fun a ha => hready a (Forest.lost_below child hkeep h₁ idle ha)
      have hnext := ihx
        (Forest.lost_node_of_not_below child hkeep h₁ idle hx (Forest.not_below_child hedge))
        (Forest.lost_target child hkeep h₁ idle hP) hs' hlead' hready'
      refine (hgo.bind ?_).step (freeChildren_child hx child)
      exact hnext.congr (fun n => if_neg (by simp))

/-- A chunk that does not refuse is freed, and all that does not refuse with it. -/
theorem tallocFree_shape (ha : a ∈ F.nodes) (hloop : ∀ a, (info a).loop = false)
    (h : ¬ Vetoes (info a)) :
    ∃ F', Forest.Freed (fun c => Vetoes (info c)) a F F' ∧
      Returns (fun n => tallocFree n (some a) (shape F tidy info)) (0, shape F' tidy info) := by
  have hP := F.detach_target_parent a
  obtain ⟨F₁, hF₁⟩ := Forest.clears_exists (fun c => Vetoes (info c)) (F.parent a) a (F.detach a)
    ha hP
  have h₁ := hF₁.cleared ha hP
  refine ⟨F₁.drop a (h₁.idle ha), h₁.freed ha, ?_⟩
  have hready : Ready (fun c => Vetoes (info c)) (F.detach a)
      (Function.update info a (freeing (info a))) a := by
    intro c _ hca
    rw [Function.update_of_ne hca]
    exact ⟨Iff.rfl, hloop c⟩
  exact free_go ha (settled_tidy F) rfl (hloop a) h (h₁.idle ha)
    ((h₁.nodes a).mpr ⟨ha, fun _ => rfl⟩)
    (clears_shape hF₁ ha hP (settled_detach (settled_tidy F) _) (leads_detach a) hready)

/-- The children of a chunk that stays are freed in the same way. -/
theorem tallocFreeChildren_shape (ha : a ∈ F.nodes) (hloop : ∀ a, (info a).loop = false) :
    ∃ F', Cleared (fun c => Vetoes (info c)) (F.parent a) a F F' ∧
      Returns (fun n => tallocFreeChildren n (some a) (shape F tidy info))
        (shape F' tidy info) := by
  have hP : F.Target (F.parent a) a :=
    fun p hp => ⟨(F.closed hp).2, fun hb => Forest.not_below_child hp hb⟩
  obtain ⟨F', hF'⟩ := Forest.clears_exists (fun c => Vetoes (info c)) (F.parent a) a F ha hP
  exact ⟨F', hF'.cleared ha hP, clears_shape hF' ha hP (settled_tidy F) (.row rfl rfl)
    (fun c _ _ => ⟨Iff.rfl, hloop c⟩)⟩

end Clear

end Talloc
