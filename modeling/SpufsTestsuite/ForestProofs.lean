import Mathlib

/-! # Ordered forests — rows of siblings, parents, and nodes that move

    A forest is given three times over: by the set of its nodes, by the parent
    of each of them, and by the row of children of each of them.  `mem_kids`
    ties the last two together, so that a node stands in one row at most, and
    `acyclic` keeps every way up to a root finite.

    A program that threads a forest through memory sees of a row only who comes
    after whom.  Those two functions are treated first (`Row`): what they become
    when a node is taken out, or put in front, is what the assignments to the
    neighbours' links say. -/

set_option linter.unusedSectionVars false

namespace Row

variable {α : Type} [DecidableEq α]

/-- Who comes after `a` in the row. -/
def after : List α → α → Option α
  | [], _ => none
  | x :: l, a => if x = a then l.head? else after l a

/-- Who comes before `a` in the row. -/
def before : List α → α → Option α
  | [], _ => none
  | x :: l, a => if l.head? = some a then some x else before l a

theorem after_append {l r : List α} {a : α} (hnd : (l ++ a :: r).Nodup) :
    after (l ++ a :: r) a = r.head? := by
  induction l with
  | nil => exact if_pos rfl
  | cons x l ih =>
      obtain ⟨hx, hnd⟩ := List.nodup_cons.mp hnd
      have hxa : x ≠ a := fun h => hx (by simp [h])
      rw [List.cons_append, after, if_neg hxa, ih hnd]

theorem after_mem {l : List α} {a b : α} (h : after l a = some b) : a ∈ l ∧ b ∈ l.tail := by
  induction l with
  | nil => cases h
  | cons x l ih =>
      rw [after] at h
      by_cases hx : x = a
      · rw [if_pos hx] at h
        exact ⟨by simp [hx], List.mem_of_mem_head? h⟩
      · rw [if_neg hx] at h
        exact ⟨List.mem_cons_of_mem x (ih h).1, List.mem_of_mem_tail (ih h).2⟩

theorem before_mem {l : List α} {a b : α} (h : before l b = some a) : a ∈ l ∧ b ∈ l.tail := by
  induction l with
  | nil => cases h
  | cons x l ih =>
      rw [before] at h
      by_cases hx : l.head? = some b
      · rw [if_pos hx] at h
        exact ⟨by simp [Option.some.inj h], List.mem_of_mem_head? hx⟩
      · rw [if_neg hx] at h
        exact ⟨List.mem_cons_of_mem x (ih h).1, List.mem_of_mem_tail (ih h).2⟩

/-- Nobody comes before the first one, and before nobody else. -/
theorem before_head {l : List α} (hnd : l.Nodup) {a : α} (h : l.head? = some a) :
    before l a = none := by
  cases l with
  | nil => rfl
  | cons x l =>
      obtain rfl : x = a := Option.some.inj h
      exact Option.eq_none_iff_forall_ne_some.mpr
        (fun b hb => (List.nodup_cons.mp hnd).1 (before_mem hb).2)

theorem head_of_before {l : List α} {a : α} (ha : a ∈ l) (h : before l a = none) :
    l.head? = some a := by
  induction l with
  | nil => cases ha
  | cons x l ih =>
      rw [before] at h
      by_cases hx : l.head? = some a
      · simp [hx] at h
      · rw [if_neg hx] at h
        rcases List.mem_cons.mp ha with rfl | ha
        · rfl
        · exact absurd (ih ha h) hx

/-- The two are inverse to each other. -/
theorem after_iff_before {l : List α} (hnd : l.Nodup) {a b : α} :
    after l a = some b ↔ before l b = some a := by
  induction l with
  | nil => simp [after, before]
  | cons x l ih =>
      obtain ⟨hx, hnd⟩ := List.nodup_cons.mp hnd
      rw [after, before]
      by_cases hb : l.head? = some b
      · have hnone := before_head hnd hb
        rw [if_pos hb]
        by_cases hxa : x = a
        · simp [hxa, hb]
        · simp [hxa, ih hnd, hnone]
      · rw [if_neg hb]
        by_cases hxa : x = a
        · rw [if_pos hxa]
          subst hxa
          exact iff_of_false hb (fun h => hx (before_mem h).1)
        · rw [if_neg hxa, ih hnd]

/-- Taking out the first one makes the one after it the first. -/
theorem head?_erase (l : List α) (a : α) :
    (l.erase a).head? = if l.head? = some a then after l a else l.head? := by
  cases l with
  | nil => simp
  | cons x l =>
      by_cases hx : x = a
      · simp [hx, after]
      · simp [hx, List.erase_cons_tail]

/-- Taking out `a` joins its neighbours. -/
theorem after_erase {l : List α} (hnd : l.Nodup) {p a : α} (hp : p ≠ a) :
    after (l.erase a) p = if after l p = some a then after l a else after l p := by
  induction l with
  | nil => simp [after]
  | cons x l ih =>
      obtain ⟨hx, hnd⟩ := List.nodup_cons.mp hnd
      by_cases hxa : x = a
      · subst hxa
        have hne : after l p ≠ some x := fun h => hx (List.mem_of_mem_tail (after_mem h).2)
        simp [after, hp.symm, hne]
      · rw [List.erase_cons_tail (by simpa using hxa), after, after, after, if_neg hxa]
        by_cases hxp : x = p
        · rw [if_pos hxp, if_pos hxp, head?_erase]
        · rw [if_neg hxp, if_neg hxp, ih hnd]

theorem after_ne_self {l : List α} (hnd : l.Nodup) (a : α) : after l a ≠ some a := by
  induction l with
  | nil => simp [after]
  | cons x l ih =>
      obtain ⟨hx, hnd⟩ := List.nodup_cons.mp hnd
      rw [after]
      split
      · next hxa => exact fun h => hx (hxa ▸ List.mem_of_mem_head? h)
      · exact ih hnd

theorem after_asymm {l : List α} (hnd : l.Nodup) {a b : α} (h : after l a = some b) :
    after l b ≠ some a := by
  induction l with
  | nil => cases h
  | cons x l ih =>
      obtain ⟨hx, hnd⟩ := List.nodup_cons.mp hnd
      have hxb : x ≠ b := fun hxb => hx (hxb ▸ (after_mem h).2)
      rw [after, if_neg hxb]
      by_cases hxa : x = a
      · exact fun hb => hx (hxa ▸ List.mem_of_mem_tail (after_mem hb).2)
      · rw [after, if_neg hxa] at h
        exact ih hnd h

theorem before_erase {l : List α} (hnd : l.Nodup) {p a : α} (hp : p ≠ a) :
    before (l.erase a) p = if before l p = some a then before l a else before l p := by
  ext b
  show before (l.erase a) p = some b ↔ _ = some b
  rw [← after_iff_before (hnd.erase a)]
  by_cases hb : b = a
  · subst hb
    have hnone : after (l.erase b) b ≠ some p :=
      fun h => (List.Nodup.mem_erase_iff hnd).mp (after_mem h).1 |>.1 rfl
    refine iff_of_false hnone ?_
    split
    · exact fun h => after_ne_self hnd b ((after_iff_before hnd).mpr h)
    · assumption
  · rw [after_erase hnd hb]
    have hba := after_iff_before hnd (a := b) (b := a)
    have hap := after_iff_before hnd (a := a) (b := p)
    have hbp := after_iff_before hnd (a := b) (b := p)
    by_cases h₁ : after l b = some a
    · by_cases h₂ : before l p = some a
      · rw [if_pos h₁, if_pos h₂, hap, ← hba]
        exact iff_of_true h₂ h₁
      · rw [if_pos h₁, if_neg h₂, hap, ← hbp, h₁]
        simp [h₂, Ne.symm hp]
    · by_cases h₂ : before l p = some a
      · rw [if_neg h₁, if_pos h₂, hbp, ← hba, h₂]
        simp [h₁, Ne.symm hb]
      · rw [if_neg h₁, if_neg h₂, hbp]

/-- What holds of a member as soon as it holds of the one before holds of all. -/
theorem before_induction {C : α → Prop} {l : List α} (hnd : l.Nodup)
    (step : ∀ a ∈ l, (∀ b, before l a = some b → C b) → C a) : ∀ a ∈ l, C a := by
  induction l with
  | nil =>
      intro a ha
      cases ha
  | cons x l ih =>
      have hx : C x := by
        refine step x (List.mem_cons_self ..) ?_
        intro b hb
        rw [before_head hnd rfl] at hb
        cases hb
      intro a ha
      rcases List.mem_cons.mp ha with rfl | ha
      · exact hx
      refine ih (List.nodup_cons.mp hnd).2 ?_ a ha
      intro c hc hbefore
      refine step c (List.mem_cons_of_mem x hc) ?_
      intro b hb
      rw [before] at hb
      by_cases hhead : l.head? = some c
      · rw [if_pos hhead] at hb
        exact Option.some.inj hb ▸ hx
      · rw [if_neg hhead] at hb
        exact hbefore b hb

theorem after_map {β : Type} [DecidableEq β] {e : α → β} (he : Function.Injective e)
    (l : List α) (a : α) : after (l.map e) (e a) = (after l a).map e := by
  induction l with
  | nil => rfl
  | cons x l ih =>
      rw [List.map_cons, after, after, ih, List.head?_map]
      by_cases hx : x = a
      · rw [if_pos (congrArg e hx), if_pos hx]
      · rw [if_neg (fun h => hx (he h)), if_neg hx]

theorem before_map {β : Type} [DecidableEq β] {e : α → β} (he : Function.Injective e)
    (l : List α) (a : α) : before (l.map e) (e a) = (before l a).map e := by
  induction l with
  | nil => rfl
  | cons x l ih =>
      rw [List.map_cons, before, before, ih, List.head?_map]
      by_cases hx : l.head? = some a
      · simp [hx]
      · have hne : l.head?.map e ≠ some (e a) := by
          intro h
          obtain ⟨b, hb, heq⟩ := Option.map_eq_some_iff.mp h
          exact hx (by rw [hb, he heq])
        rw [if_neg hne, if_neg hx]

end Row

open Relation (TransGen ReflTransGen)

/-- A finite forest with ordered rows of children. -/
structure Forest (α : Type) where
  nodes : Finset α
  parent : α → Option α
  kids : α → List α
  mem_kids : ∀ {p a}, a ∈ kids p ↔ parent a = some p
  nodup : ∀ p, (kids p).Nodup
  closed : ∀ {p a}, parent a = some p → a ∈ nodes ∧ p ∈ nodes
  acyclic : ∀ a, ¬ TransGen (fun p c => parent c = some p) a a

namespace Forest

variable {α : Type} [DecidableEq α]

/-- The forest without a node. -/
def empty : Forest α where
  nodes := ∅
  parent := fun _ => none
  kids := fun _ => []
  mem_kids := by simp
  nodup := fun _ => List.nodup_nil
  closed := by simp
  acyclic := by
    intro a h
    obtain ⟨b, h, -⟩ := TransGen.head'_iff.mp h
    cases h

variable (F : Forest α)

/-- `c` is a child of `p`. -/
def Child (p c : α) : Prop := F.parent c = some p

/-- `c` is `p`, or stands below it. -/
def Below : α → α → Prop := ReflTransGen F.Child

/-! ## Rows -/

/-- The row that the node stands in. -/
def row (a : α) : List α :=
  match F.parent a with
  | none => []
  | some p => F.kids p

def next (a : α) : Option α := Row.after (F.row a) a

def prev (a : α) : Option α := Row.before (F.row a) a

def first (p : α) : Option α := (F.kids p).head?

variable {F} {a c p q : α}

theorem row_eq (h : F.parent a = some p) : F.row a = F.kids p := by
  rw [row, h]

theorem row_root (h : F.parent a = none) : F.row a = [] := by
  rw [row, h]

theorem row_nodup (a : α) : (F.row a).Nodup := by
  rw [row]
  split
  · exact List.nodup_nil
  · exact F.nodup _

/-- Who stands in the row of `a` has the same row. -/
theorem row_of_mem (h : c ∈ F.row a) : F.row c = F.row a ∧ F.parent c = F.parent a := by
  cases hp : F.parent a with
  | none =>
      rw [row_root hp] at h
      cases h
  | some p =>
      rw [row_eq hp] at h ⊢
      have hc := F.mem_kids.mp h
      exact ⟨row_eq hc, hc⟩

theorem next_row (h : F.next a = some c) : F.row c = F.row a ∧ F.parent c = F.parent a :=
  row_of_mem (List.mem_of_mem_tail (Row.after_mem h).2)

theorem prev_row (h : F.prev a = some c) : F.row c = F.row a ∧ F.parent c = F.parent a :=
  row_of_mem (Row.before_mem h).1

theorem next_iff_prev : F.next a = some c ↔ F.prev c = some a := by
  constructor
  · intro h
    rw [prev, (next_row h).1]
    exact (Row.after_iff_before (row_nodup a)).mp h
  · intro h
    rw [next, (prev_row h).1]
    exact (Row.after_iff_before (row_nodup c)).mpr h

theorem next_root (h : F.parent a = none) : F.next a = none := by
  rw [next, row_root h]
  rfl

theorem prev_root (h : F.parent a = none) : F.prev a = none := by
  rw [prev, row_root h]
  rfl

/-- The first child is the one that nobody comes before. -/
theorem first_iff : F.first p = some a ↔ F.parent a = some p ∧ F.prev a = none := by
  constructor
  · intro h
    have ha : F.parent a = some p := F.mem_kids.mp (List.mem_of_mem_head? h)
    refine ⟨ha, ?_⟩
    rw [prev, row_eq ha]
    exact Row.before_head (F.nodup p) h
  · rintro ⟨ha, hprev⟩
    rw [prev, row_eq ha] at hprev
    exact Row.head_of_before (F.mem_kids.mpr ha) hprev

theorem next_ne_self (a : α) : F.next a ≠ some a := Row.after_ne_self (row_nodup a) a

theorem next_asymm (h : F.next a = some c) : F.next c ≠ some a := by
  rw [next, (next_row h).1]
  exact Row.after_asymm (row_nodup a) h

theorem prev_ne_self (a : α) : F.prev a ≠ some a :=
  fun h => next_ne_self a (next_iff_prev.mpr h)

/-- What holds of a node as soon as it holds of the one before holds of a row. -/
theorem prev_induction {C : α → Prop} (h : F.parent a = some p)
    (step : ∀ c, F.parent c = some p → (∀ b, F.prev c = some b → C b) → C c) : C a := by
  refine Row.before_induction (F.nodup p) ?_ a (F.mem_kids.mpr h)
  intro c hc ih
  have hp := F.mem_kids.mp hc
  refine step c hp ?_
  intro b hb
  rw [prev, row_eq hp] at hb
  exact ih b hb

/-- No node is its own parent. -/
theorem parent_ne_self (a : α) : F.parent a ≠ some a :=
  fun h => F.acyclic a (.single h)

/-! ## Below -/

theorem Below.node (h : F.Below p c) (hc : c ∈ F.nodes) : p ∈ F.nodes := by
  rcases ReflTransGen.cases_head h with rfl | ⟨b, hb, -⟩
  · exact hc
  · exact (F.closed hb).2

theorem Below.node' (h : F.Below p c) (hp : p ∈ F.nodes) : c ∈ F.nodes := by
  rcases ReflTransGen.cases_tail h with rfl | ⟨b, -, hb⟩
  · exact hp
  · exact (F.closed hb).1

/-- Nothing above a node stands below it. -/
theorem not_below_child (h : F.Child p c) : ¬ F.Below c p :=
  fun hb => F.acyclic p (TransGen.head' h hb)

/-- Only a root stands below nothing else. -/
theorem below_root (hc : F.parent c = none) (h : F.Below p c) : p = c := by
  rcases ReflTransGen.cases_tail h with rfl | ⟨b, -, hb⟩
  · rfl
  · rw [Child, hc] at hb
    cases hb

/-- Ways up do not part. -/
theorem below_total (h : F.Below p c) (h' : F.Below q c) : F.Below p q ∨ F.Below q p := by
  induction h with
  | refl => exact .inr h'
  | tail hpb hbc ih =>
      rcases ReflTransGen.cases_tail h' with rfl | ⟨d, hqd, hd⟩
      · exact .inl (hpb.tail hbc)
      · obtain rfl := Option.some.inj (hbc.symm.trans hd)
        exact ih hqd

/-! ## Taking out of a row -/

/-- `a` becomes a root. -/
def detach (F : Forest α) (a : α) : Forest α where
  nodes := F.nodes
  parent := Function.update F.parent a none
  kids := fun p => (F.kids p).erase a
  mem_kids := by
    intro p c
    rw [(F.nodup p).mem_erase_iff, F.mem_kids]
    by_cases hc : c = a
    · simp [hc]
    · simp [hc, Function.update_of_ne]
  nodup := fun p => (F.nodup p).erase a
  closed := by
    intro p c h
    by_cases hc : c = a
    · simp [hc] at h
    · rw [Function.update_of_ne hc] at h
      exact F.closed h
  acyclic := by
    intro b h
    refine F.acyclic b (TransGen.mono ?_ b b h)
    intro p c hpc
    by_cases hc : c = a
    · simp [hc] at hpc
    · rwa [Function.update_of_ne hc] at hpc

theorem detach_nodes (a : α) : (F.detach a).nodes = F.nodes := rfl

@[simp] theorem detach_parent_self (a : α) : (F.detach a).parent a = none :=
  Function.update_self ..

theorem detach_parent (h : c ≠ a) : (F.detach a).parent c = F.parent c :=
  Function.update_of_ne h ..

theorem detach_child : (F.detach a).Child p c ↔ F.Child p c ∧ c ≠ a := by
  by_cases hc : c = a
  · simp [Child, hc]
  · simp [Child, hc, detach_parent hc]

theorem detach_row (h : c ≠ a) : (F.detach a).row c = (F.row c).erase a := by
  rw [row, row, detach_parent h]
  cases F.parent c with
  | none => rfl
  | some p => rfl

/-- The one in front of `a` is now in front of the one behind `a`. -/
theorem detach_next (h : c ≠ a) :
    (F.detach a).next c = if F.next c = some a then F.next a else F.next c := by
  rw [next, detach_row h, Row.after_erase (row_nodup c) h]
  show (if F.next c = some a then _ else F.next c) = _
  by_cases hc : F.next c = some a
  · rw [if_pos hc, if_pos hc, next, (next_row hc).1]
  · rw [if_neg hc, if_neg hc]

theorem detach_prev (h : c ≠ a) :
    (F.detach a).prev c = if F.prev c = some a then F.prev a else F.prev c := by
  rw [prev, detach_row h, Row.before_erase (row_nodup c) h]
  show (if F.prev c = some a then _ else F.prev c) = _
  by_cases hc : F.prev c = some a
  · rw [if_pos hc, if_pos hc, prev, (prev_row hc).1]
  · rw [if_neg hc, if_neg hc]

theorem detach_first (p : α) :
    (F.detach a).first p = if F.first p = some a then F.next a else F.first p := by
  show ((F.kids p).erase a).head? = _
  rw [Row.head?_erase]
  show (if F.first p = some a then _ else F.first p) = _
  by_cases h : F.first p = some a
  · rw [if_pos h, if_pos h, next, row_eq (first_iff.mp h).1]
  · rw [if_neg h, if_neg h]

/-- A root stays where it is. -/
theorem detach_root (h : F.parent a = none) : F.detach a = F := by
  have hparent : Function.update F.parent a none = F.parent := by
    rw [← h, Function.update_eq_self]
  have hkids : (fun p => (F.kids p).erase a) = F.kids := by
    funext p
    exact List.erase_of_not_mem (fun ha => by simp [F.mem_kids.mp ha] at h)
  cases F
  simp only [detach, mk.injEq]
  exact ⟨trivial, hparent, hkids⟩

theorem detach_below_le (h : (F.detach a).Below p c) : F.Below p c :=
  ReflTransGen.mono (fun _ _ hpc => (detach_child.mp hpc).1) p c h

/-- What is below `a` stays below it. -/
theorem below_detach (h : F.Below a c) : (F.detach a).Below a c := by
  induction h with
  | refl => exact .refl
  | tail hab hbc ih =>
      refine ih.tail (detach_child.mpr ⟨hbc, ?_⟩)
      rintro rfl
      exact not_below_child hbc hab

theorem detach_below_self : (F.detach a).Below a c ↔ F.Below a c :=
  ⟨detach_below_le, below_detach⟩

/-! ## Putting in front of a row -/

/-- `a` is a root that can become a child of `p`. -/
structure Attachable (F : Forest α) (p a : α) : Prop where
  node   : a ∈ F.nodes
  target : p ∈ F.nodes
  root   : F.parent a = none
  free   : ¬ F.Below a p

/-- A way in the forest with `a` below `p` uses the new edge or does not. -/
theorem below_of_edge {x y : α}
    (h : ReflTransGen (fun q c => Function.update F.parent a (some p) c = some q) x y) :
    F.Below x y ∨ (F.Below x p ∧ F.Below a y) := by
  induction h with
  | refl => exact .inl .refl
  | @tail b c _ hbc ih =>
      by_cases hc : c = a
      · subst hc
        rw [Function.update_self] at hbc
        obtain rfl := Option.some.inj hbc
        rcases ih with h | ⟨h, -⟩
        · exact .inr ⟨h, .refl⟩
        · exact .inr ⟨h, .refl⟩
      · rw [Function.update_of_ne hc] at hbc
        rcases ih with h | ⟨h, h'⟩
        · exact .inl (h.tail hbc)
        · exact .inr ⟨h, h'.tail hbc⟩

/-- `a` becomes the first child of `p`. -/
def attach (F : Forest α) (p a : α) (h : F.Attachable p a) : Forest α where
  nodes := F.nodes
  parent := Function.update F.parent a (some p)
  kids := Function.update F.kids p (a :: F.kids p)
  mem_kids := by
    intro q c
    by_cases hq : q = p
    · subst hq
      rw [Function.update_self, List.mem_cons, F.mem_kids]
      by_cases hc : c = a
      · simp [hc]
      · simp [hc, Function.update_of_ne]
    · rw [Function.update_of_ne hq, F.mem_kids]
      by_cases hc : c = a
      · simp [hc, h.root, Ne.symm hq]
      · simp [hc, Function.update_of_ne]
  nodup := by
    intro q
    by_cases hq : q = p
    · subst hq
      rw [Function.update_self]
      refine List.nodup_cons.mpr ⟨fun ha => ?_, F.nodup q⟩
      exact absurd h.root (by simp [F.mem_kids.mp ha])
    · rw [Function.update_of_ne hq]
      exact F.nodup q
  closed := by
    intro q c hc
    by_cases hca : c = a
    · subst hca
      rw [Function.update_self] at hc
      obtain rfl := Option.some.inj hc
      exact ⟨h.node, h.target⟩
    · rw [Function.update_of_ne hca] at hc
      exact F.closed hc
  acyclic := by
    intro x hx
    obtain ⟨y, hxy, hyx⟩ := TransGen.head'_iff.mp hx
    have hy := below_of_edge hyx
    by_cases hya : y = a
    · subst hya
      rw [Function.update_self] at hxy
      obtain rfl := Option.some.inj hxy
      exact h.free (hy.elim id And.left)
    · rw [Function.update_of_ne hya] at hxy
      rcases hy with hy | ⟨hyp, hax⟩
      · exact not_below_child hxy hy
      · exact h.free (hax.trans (.head hxy hyp))

section Attach

variable {h : F.Attachable p a}

@[simp] theorem attach_parent_self : (F.attach p a h).parent a = some p :=
  Function.update_self ..

theorem attach_parent (hc : c ≠ a) : (F.attach p a h).parent c = F.parent c :=
  Function.update_of_ne hc ..

theorem attach_kids_self : (F.attach p a h).kids p = a :: F.kids p := Function.update_self ..

theorem attach_kids (hq : q ≠ p) : (F.attach p a h).kids q = F.kids q :=
  Function.update_of_ne hq ..

theorem attach_first (q : α) :
    (F.attach p a h).first q = if q = p then some a else F.first q := by
  by_cases hq : q = p
  · rw [first, hq, attach_kids_self, if_pos rfl, List.head?_cons]
  · rw [first, attach_kids hq, if_neg hq]
    rfl

theorem attach_row_self : (F.attach p a h).row a = a :: F.kids p := by
  rw [row_eq attach_parent_self, attach_kids_self]

/-- The row of another node gets `a` in front, or stays as it is. -/
theorem attach_row (hc : c ≠ a) :
    (F.attach p a h).row c = if F.parent c = some p then a :: F.row c else F.row c := by
  cases hp : F.parent c with
  | none => rw [row_root hp, row_root (by rw [attach_parent hc, hp]), if_neg (by simp)]
  | some q =>
      rw [row_eq hp, row_eq (p := q) (by rw [attach_parent hc, hp])]
      by_cases hq : q = p
      · rw [hq, attach_kids_self, if_pos rfl]
      · rw [attach_kids hq, if_neg (by simpa using hq)]

theorem attach_next_self : (F.attach p a h).next a = F.first p := by
  rw [next, attach_row_self, Row.after, if_pos rfl]
  rfl

theorem attach_next (hc : c ≠ a) : (F.attach p a h).next c = F.next c := by
  rw [next, attach_row hc]
  split
  · rw [Row.after, if_neg (Ne.symm hc)]
    rfl
  · rfl

theorem attach_prev_self : (F.attach p a h).prev a = none :=
  (first_iff.mp (by rw [attach_first, if_pos rfl] : (F.attach p a h).first p = some a)).2

/-- The one that was the first has `a` in front of it. -/
theorem attach_prev (hc : c ≠ a) :
    (F.attach p a h).prev c = if F.first p = some c then some a else F.prev c := by
  rw [prev, attach_row hc]
  by_cases hp : F.parent c = some p
  · rw [if_pos hp, Row.before, row_eq hp, prev, row_eq hp]
    rfl
  · rw [if_neg hp, if_neg (fun hf => hp (first_iff.mp hf).1)]
    rfl

end Attach

/-! ## New nodes and nodes that go -/

theorem parent_of_not_mem (h : a ∉ F.nodes) : F.parent a = none := by
  cases hp : F.parent a with
  | none => rfl
  | some p => exact absurd (F.closed hp).1 h

theorem kids_of_not_mem (h : a ∉ F.nodes) : F.kids a = [] := by
  refine List.eq_nil_iff_forall_not_mem.mpr ?_
  intro c hc
  exact h (F.closed (F.mem_kids.mp hc)).2

/-- `a` is a new root. -/
def sprout (F : Forest α) (a : α) : Forest α where
  nodes := insert a F.nodes
  parent := F.parent
  kids := F.kids
  mem_kids := F.mem_kids
  nodup := F.nodup
  closed h := ⟨Finset.mem_insert_of_mem (F.closed h).1, Finset.mem_insert_of_mem (F.closed h).2⟩
  acyclic := F.acyclic

/-- A root without children. -/
structure Idle (F : Forest α) (a : α) : Prop where
  root : F.parent a = none
  leaf : F.kids a = []

/-- `a` is gone. -/
def drop (F : Forest α) (a : α) (h : F.Idle a) : Forest α where
  nodes := F.nodes.erase a
  parent := F.parent
  kids := F.kids
  mem_kids := F.mem_kids
  nodup := F.nodup
  closed := by
    intro p c hpc
    refine ⟨Finset.mem_erase.mpr ⟨?_, (F.closed hpc).1⟩,
      Finset.mem_erase.mpr ⟨?_, (F.closed hpc).2⟩⟩
    · rintro rfl
      simp [h.root] at hpc
    · rintro rfl
      have hmem := F.mem_kids.mpr hpc
      simp [h.leaf] at hmem
  acyclic := F.acyclic

/-! ## Another name for a node -/

/-- The nodes under other names. -/
def map (F : Forest α) (e : Equiv.Perm α) : Forest α where
  nodes := F.nodes.map e.toEmbedding
  parent := fun c => (F.parent (e.symm c)).map e
  kids := fun p => (F.kids (e.symm p)).map e
  mem_kids := by
    intro p c
    rw [List.mem_map, Option.map_eq_some_iff]
    constructor
    · rintro ⟨b, hb, rfl⟩
      exact ⟨e.symm p, by rw [Equiv.symm_apply_apply]; exact F.mem_kids.mp hb, by simp⟩
    · rintro ⟨q, hq, rfl⟩
      exact ⟨e.symm c, by rw [Equiv.symm_apply_apply]; exact F.mem_kids.mpr hq, by simp⟩
  nodup := fun p => (F.nodup (e.symm p)).map e.injective
  closed := by
    intro p c h
    obtain ⟨q, hq, rfl⟩ := Option.map_eq_some_iff.mp h
    obtain ⟨hc, hq⟩ := F.closed hq
    exact ⟨Finset.mem_map_equiv.mpr hc, Finset.mem_map_equiv.mpr (by simpa using hq)⟩
  acyclic := by
    intro a h
    refine F.acyclic (e.symm a) (TransGen.lift e.symm ?_ a a h)
    intro p c hpc
    obtain ⟨q, hq, rfl⟩ := Option.map_eq_some_iff.mp hpc
    show F.parent (e.symm c) = some (e.symm (e q))
    rw [Equiv.symm_apply_apply]
    exact hq

section Map

variable {e : Equiv.Perm α}

theorem map_parent (c : α) : (F.map e).parent c = (F.parent (e.symm c)).map e := rfl

theorem mem_map_nodes : c ∈ (F.map e).nodes ↔ e.symm c ∈ F.nodes := Finset.mem_map_equiv

theorem map_first (p : α) : (F.map e).first p = (F.first (e.symm p)).map e := by
  show ((F.kids (e.symm p)).map e).head? = _
  rw [List.head?_map]
  rfl

theorem map_row (c : α) : (F.map e).row c = (F.row (e.symm c)).map e := by
  rw [row, row, map_parent]
  cases F.parent (e.symm c) with
  | none => rfl
  | some p =>
      show (F.kids (e.symm (e p))).map e = _
      rw [Equiv.symm_apply_apply]

theorem map_next (c : α) : (F.map e).next c = (F.next (e.symm c)).map e := by
  rw [next, map_row, next, ← Row.after_map e.injective, Equiv.apply_symm_apply]

theorem map_prev (c : α) : (F.map e).prev c = (F.prev (e.symm c)).map e := by
  rw [prev, map_row, prev, ← Row.before_map e.injective, Equiv.apply_symm_apply]

end Map

/-! ## Moving a node -/

open Classical in
/-- `a` becomes the first child of the new parent, or a root; it stays where it
    is if the new parent cannot take it. -/
noncomputable def steal (F : Forest α) (P : Option α) (a : α) : Forest α :=
  match P with
  | none => F.detach a
  | some p => if h : (F.detach a).Attachable p a then (F.detach a).attach p a h else F

theorem steal_none (a : α) : F.steal none a = F.detach a := rfl

theorem steal_some (h : (F.detach a).Attachable p a) :
    F.steal (some p) a = (F.detach a).attach p a h := dif_pos h

theorem steal_root (hroot : F.parent a = none) (h : F.Attachable p a) :
    F.steal (some p) a = F.attach p a h := by
  have hsteal : ∀ G : Forest α, G = F → (hG : G.Attachable p a) →
      G.attach p a hG = F.attach p a h := by
    intro G hG _
    subst hG
    rfl
  have hdetach := detach_root hroot
  rw [steal_some (by rw [hdetach]; exact h)]
  exact hsteal _ hdetach _

/-- A node can be moved to any node that is not below it. -/
theorem attachable_detach (ha : a ∈ F.nodes) (hp : p ∈ F.nodes) (h : ¬ F.Below a p) :
    (F.detach a).Attachable p a :=
  ⟨ha, hp, detach_parent_self a, fun hb => h (detach_below_self.mp hb)⟩

theorem steal_nodes (P : Option α) (a : α) : (F.steal P a).nodes = F.nodes := by
  cases P with
  | none => rfl
  | some p =>
      rw [steal]
      split
      · rfl
      · rfl

/-- Where a node can be moved to. -/
def Target (F : Forest α) (P : Option α) (a : α) : Prop :=
  ∀ p, P = some p → p ∈ F.nodes ∧ ¬ F.Below a p

section Steal

variable {P : Option α}

theorem steal_parent_self (ha : a ∈ F.nodes) (hP : F.Target P a) :
    (F.steal P a).parent a = P := by
  cases P with
  | none => rw [steal_none, detach_parent_self]
  | some p =>
      obtain ⟨hp, hb⟩ := hP p rfl
      rw [steal_some (attachable_detach ha hp hb), attach_parent_self]

theorem steal_parent (hc : c ≠ a) : (F.steal P a).parent c = F.parent c := by
  cases P with
  | none => rw [steal_none, detach_parent hc]
  | some p =>
      rw [steal]
      split
      · rw [attach_parent hc, detach_parent hc]
      · rfl

theorem steal_kids (hq : P ≠ some q) (ha : a ∈ F.nodes) (hP : F.Target P a) :
    (F.steal P a).kids q = (F.kids q).erase a := by
  cases P with
  | none => rfl
  | some p =>
      obtain ⟨hp, hb⟩ := hP p rfl
      rw [steal_some (attachable_detach ha hp hb), attach_kids (fun h => hq (by rw [h]))]
      rfl

theorem steal_kids_self (ha : a ∈ F.nodes) (hP : F.Target (some p) a) :
    (F.steal (some p) a).kids p = a :: (F.kids p).erase a := by
  obtain ⟨hp, hb⟩ := hP p rfl
  rw [steal_some (attachable_detach ha hp hb), attach_kids_self]
  rfl

end Steal

end Forest
