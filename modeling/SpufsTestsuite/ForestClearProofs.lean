import Mathlib
import SpufsTestsuite.ForestProofs

/-! # Clearing the children of a node

    The first child is taken until none is left.  A child to keep is moved to
    another node; any other one is cut off, its own children are cleared in the
    same way, with the old parent as the place for what is kept, and then it is
    dropped.

    What is kept on a lower level so comes back as a child of the level above,
    and is moved on from there.  `Clears` follows that order step by step;
    `Cleared` says what comes out at the end without it. -/

set_option linter.unusedSectionVars false

open Relation (ReflTransGen TransGen)

namespace Forest

variable {α : Type} [DecidableEq α] {F F' F₁ : Forest α} {P : Option α} {a c k p q x : α}

/-! ## How many are below a node -/

open Classical in
noncomputable def weight (F : Forest α) (x : α) : Nat := (F.nodes.filter (F.Below x)).card

/-- Fewer below, if all of them were below before and one is missing. -/
theorem weight_lt (hk : k ∈ F.nodes) (hx : F.Below x k)
    (hle : ∀ c ∈ F'.nodes, F'.Below p c → c ∈ F.nodes ∧ F.Below x c)
    (hno : ¬ (k ∈ F'.nodes ∧ F'.Below p k)) : F'.weight p < F.weight x := by
  classical
  refine Finset.card_lt_card (Finset.ssubset_iff_of_subset ?_ |>.mpr ⟨k, ?_, ?_⟩)
  · intro c hc
    obtain ⟨hc, hb⟩ := Finset.mem_filter.mp hc
    exact Finset.mem_filter.mpr (hle c hc hb)
  · exact Finset.mem_filter.mpr ⟨hk, hx⟩
  · exact fun h => hno (Finset.mem_filter.mp h)

/-- A child has fewer below it than its parent. -/
theorem weight_child (h : F.Child p c) : F.weight c < F.weight p := by
  refine weight_lt (F.closed h).2 .refl (fun b hb hcb => ⟨hb, .head h hcb⟩) ?_
  exact fun hp => not_below_child h hp.2

/-- What holds of a node as soon as it holds of its children holds of all. -/
theorem child_induction {C : α → Prop} (step : ∀ p, (∀ c, F.Child p c → C c) → C p) (a : α) :
    C a :=
  (measure F.weight).wf.induction a (fun p ih => step p (fun c hc => ih c (weight_child hc)))

/-! ## What moving does to the edges -/

theorem first_child (h : F.first x = some k) : F.Child x k := (first_iff.mp h).1

theorem steal_child (hk : k ∈ F.nodes) (hP : F.Target P k) :
    (F.steal P k).Child q c ↔ (c ≠ k ∧ F.Child q c) ∨ (c = k ∧ P = some q) := by
  rw [Child]
  by_cases hc : c = k
  · rw [hc, steal_parent_self hk hP]
    simp
  · rw [steal_parent hc]
    simp [hc, Child]

/-- A way in the forest after the move goes through the new parent or was there. -/
theorem steal_below_or (hk : k ∈ F.nodes) (hP : F.Target P k) (h : (F.steal P k).Below a c) :
    F.Below a c ∨ ∃ p, P = some p ∧ F.Below a p := by
  induction h with
  | refl => exact .inl .refl
  | tail _ hbc ih =>
      rcases (steal_child hk hP).mp hbc with ⟨-, hbc⟩ | ⟨rfl, rfl⟩
      · exact ih.imp_left (fun hb => hb.tail hbc)
      · rcases ih with hb | hb
        · exact .inr ⟨_, rfl, hb⟩
        · exact .inr hb

/-- The first child of a node is already where a move would put it. -/
theorem steal_first (h : F.first p = some a) : F.steal (some p) a = F := by
  have hchild := first_child h
  have hnodes := F.closed hchild
  have hatt := attachable_detach hnodes.1 hnodes.2 (not_below_child hchild)
  have hnd := F.nodup p
  obtain ⟨l, hl⟩ : ∃ l, F.kids p = a :: l := by
    cases hkids : F.kids p with
    | nil => rw [first, hkids] at h; cases h
    | cons b l => exact ⟨l, by rw [first, hkids] at h; rw [Option.some.inj h]⟩
  have hparent : Function.update (Function.update F.parent a none) a (some p) = F.parent := by
    rw [Function.update_idem, ← hchild, Function.update_eq_self]
  have hkids : Function.update (fun q => (F.kids q).erase a) p (a :: (F.kids p).erase a) =
      F.kids := by
    funext q
    by_cases hq : q = p
    · rw [hq, Function.update_self, hl, List.erase_cons_head]
    · rw [Function.update_of_ne hq]
      exact List.erase_of_not_mem
        (fun ha => hq (Option.some.inj ((F.mem_kids.mp ha).symm.trans hchild)))
  rw [steal_some hatt]
  cases F
  simp only [attach, detach, mk.injEq]
  exact ⟨trivial, hparent, hkids⟩

/-! ## Clearing, step by step -/

variable {keep : α → Prop}

/-- The children of `x` are cleared, and those to keep are moved to `P`. -/
inductive Clears (keep : α → Prop) : Option α → α → Forest α → Forest α → Prop
  | done {P : Option α} {x : α} {F : Forest α} (leaf : F.kids x = []) : Clears keep P x F F
  | kept {P : Option α} {x k : α} {F F' : Forest α} (child : F.first x = some k)
      (hkeep : keep k) (rest : Clears keep P x (F.steal P k) F') : Clears keep P x F F'
  | gone {P : Option α} {x k : α} {F F₁ F' : Forest α} (child : F.first x = some k)
      (hkeep : ¬ keep k) (inner : Clears keep (some x) k (F.detach k) F₁) (idle : F₁.Idle k)
      (rest : Clears keep P x (F₁.drop k idle) F') : Clears keep P x F F'

/-- The nodes that go: `x`, and on from there whatever is not kept. -/
def Gone (keep : α → Prop) (F : Forest α) : α → α → Prop :=
  ReflTransGen (fun p c => F.Child p c ∧ ¬ keep c)

/-- The nodes that move: kept ones whose parent goes. -/
def Moves (keep : α → Prop) (F : Forest α) (x c : α) : Prop :=
  ∃ p, Gone keep F x p ∧ F.Child p c ∧ keep c

/-- What is left when the children of `x` are cleared. -/
structure Cleared (keep : α → Prop) (P : Option α) (x : α) (F F' : Forest α) : Prop where
  nodes : ∀ c, c ∈ F'.nodes ↔ c ∈ F.nodes ∧ (Gone keep F x c → c = x)
  leaf  : F'.kids x = []
  moved : ∀ c, Moves keep F x c → F'.parent c = P
  stays : ∀ c ∈ F'.nodes, ¬ Moves keep F x c → F'.parent c = F.parent c
  rows  : ∀ q, ¬ Gone keep F x q → P ≠ some q → F'.kids q = F.kids q
  front : ∀ p, P = some p →
    ∃ l, F'.kids p = l ++ F.kids p ∧ ∀ c, c ∈ l ↔ Moves keep F x c

theorem Gone.below (h : Gone keep F x c) : F.Below x c :=
  ReflTransGen.mono (fun _ _ hpc => hpc.1) x c h

theorem Moves.below (h : Moves keep F x c) : F.Below x c :=
  let ⟨_, hgone, hchild, _⟩ := h
  hgone.below.tail hchild

/-- A node that moves is below `x`, and not `x` itself. -/
theorem Moves.ne (h : Moves keep F x c) : c ≠ x := by
  obtain ⟨p, hgone, hchild, -⟩ := h
  rintro rfl
  exact not_below_child hchild hgone.below

theorem Moves.not_gone (h : Moves keep F x c) : ¬ Gone keep F x c := by
  intro hgone
  rcases ReflTransGen.cases_tail hgone with hxc | ⟨b, -, hb⟩
  · exact h.ne hxc
  · obtain ⟨p, -, -, hkeep⟩ := h
    exact hb.2 hkeep

section Kept

/-! What one child to keep changes. -/

variable (hx : F.first x = some k) (hkeep : keep k) (hP : F.Target P x)
include hx hkeep hP

theorem target_child : F.Target P k := by
  intro p hp
  obtain ⟨hp, hb⟩ := hP p hp
  exact ⟨hp, fun hkp => hb (.head (first_child hx) hkp)⟩

theorem kept_gone : Gone keep (F.steal P k) x c ↔ Gone keep F x c := by
  have hk := (F.closed (first_child hx)).1
  have hrel : (fun p c => (F.steal P k).Child p c ∧ ¬ keep c) =
      (fun p c => F.Child p c ∧ ¬ keep c) := by
    funext p c
    rw [steal_child hk (target_child hx hkeep hP)]
    by_cases hc : c = k
    · simp [hc, hkeep]
    · simp [hc]
  rw [Gone, hrel]
  rfl

theorem kept_moves : Moves keep F x c ↔ c = k ∨ Moves keep (F.steal P k) x c := by
  have hk := (F.closed (first_child hx)).1
  have hchild {q c} := steal_child (q := q) (c := c) hk (target_child hx hkeep hP)
  constructor
  · rintro ⟨p, hgone, hpc, hc⟩
    by_cases hck : c = k
    · exact .inl hck
    · exact .inr ⟨p, (kept_gone hx hkeep hP).mpr hgone, hchild.mpr (.inl ⟨hck, hpc⟩), hc⟩
  · rintro (rfl | ⟨p, hgone, hpc, hc⟩)
    · exact ⟨x, .refl, first_child hx, hkeep⟩
    · have hgone := (kept_gone hx hkeep hP).mp hgone
      rcases hchild.mp hpc with ⟨-, hpc⟩ | ⟨rfl, -⟩
      · exact ⟨p, hgone, hpc, hc⟩
      · exact ⟨x, .refl, first_child hx, hc⟩

/-- The child is out of the way: it does not move again. -/
theorem kept_not_moves : ¬ Moves keep (F.steal P k) x k := by
  have hk := (F.closed (first_child hx)).1
  rintro ⟨p, hgone, hpc, -⟩
  rcases (steal_child hk (target_child hx hkeep hP)).mp hpc with ⟨hne, -⟩ | ⟨-, rfl⟩
  · exact hne rfl
  · exact (hP p rfl).2 ((kept_gone hx hkeep hP).mp hgone).below

theorem kept_below (h : (F.steal P k).Below x c) : F.Below x c := by
  have hk := (F.closed (first_child hx)).1
  rcases steal_below_or hk (target_child hx hkeep hP) h with h | ⟨p, hp, h⟩
  · exact h
  · exact absurd h (hP p hp).2

theorem kept_target : (F.steal P k).Target P x := by
  intro p hp
  obtain ⟨hpn, hb⟩ := hP p hp
  exact ⟨by rwa [steal_nodes], fun hxp => hb (kept_below hx hkeep hP hxp)⟩

theorem kept_cleared (h : Cleared keep P x (F.steal P k) F') : Cleared keep P x F F' := by
  have hk := (F.closed (first_child hx)).1
  have hPk := target_child hx hkeep hP
  have hkm : k ∈ F'.nodes := by
    refine (h.nodes k).mpr ⟨by rwa [steal_nodes], fun hgone => ?_⟩
    have hmoves := (kept_moves (c := k) hx hkeep hP).mpr (.inl rfl)
    exact absurd ((kept_gone hx hkeep hP).mp hgone) hmoves.not_gone
  refine ⟨?_, h.leaf, ?_, ?_, ?_, ?_⟩
  · intro c
    rw [h.nodes, steal_nodes, kept_gone hx hkeep hP]
  · intro c hc
    rcases (kept_moves hx hkeep hP).mp hc with rfl | hc
    · rw [h.stays c hkm (kept_not_moves hx hkeep hP), steal_parent_self hk hPk]
    · exact h.moved c hc
  · intro c hc hnot
    have hck : c ≠ k := fun h => hnot ((kept_moves hx hkeep hP).mpr (.inl h))
    rw [h.stays c hc (fun hm => hnot ((kept_moves hx hkeep hP).mpr (.inr hm))), steal_parent hck]
  · intro q hq hPq
    have hqx : q ≠ x := fun h => hq (h ▸ .refl)
    rw [h.rows q (fun hg => hq ((kept_gone hx hkeep hP).mp hg)) hPq, steal_kids hPq hk hPk]
    exact List.erase_of_not_mem
      (fun hm => hqx (Option.some.inj ((F.mem_kids.mp hm).symm.trans (first_child hx))))
  · rintro p rfl
    obtain ⟨l, hl, hmem⟩ := h.front p rfl
    have hpx : p ≠ x := fun h => (hP p rfl).2 (h ▸ .refl)
    have herase : (F.kids p).erase k = F.kids p := List.erase_of_not_mem
      (fun hm => hpx (Option.some.inj ((F.mem_kids.mp hm).symm.trans (first_child hx))))
    refine ⟨l ++ [k], ?_, ?_⟩
    · rw [hl, steal_kids_self hk hPk, herase, List.append_assoc]
      rfl
    · intro c
      rw [List.mem_append, hmem, List.mem_singleton, kept_moves hx hkeep hP, or_comm]

end Kept

section Lost

/-! What one child to drop changes. -/

variable (hx : F.first x = some k) (hkeep : ¬ keep k)
  (h₁ : Cleared keep (some x) k (F.detach k) F₁)

theorem detach_gone : Gone keep (F.detach k) k c ↔ Gone keep F k c := by
  constructor
  · exact ReflTransGen.mono (fun _ _ h => ⟨(detach_child.mp h.1).1, h.2⟩) k c
  · intro h
    induction h with
    | refl => exact .refl
    | tail hkb hbc ih =>
        refine ih.tail ⟨detach_child.mpr ⟨hbc.1, ?_⟩, hbc.2⟩
        rintro rfl
        exact not_below_child hbc.1 (Gone.below hkb)

theorem detach_moves : Moves keep (F.detach k) k c ↔ Moves keep F k c := by
  constructor
  · rintro ⟨p, hgone, hpc, hc⟩
    exact ⟨p, detach_gone.mp hgone, (detach_child.mp hpc).1, hc⟩
  · intro h
    obtain ⟨p, hgone, hpc, hc⟩ := id h
    exact ⟨p, detach_gone.mpr hgone, detach_child.mpr ⟨hpc, h.ne⟩, hc⟩

theorem detach_target (h : F.Child x k) : (F.detach k).Target (some x) k := by
  intro p hp
  obtain rfl := Option.some.inj hp
  exact ⟨(F.closed h).2, fun hb => not_below_child h (detach_below_le hb)⟩

/-- The child is left as a root without children. -/
theorem Cleared.idle (hk : k ∈ F.nodes) (h : Cleared keep P k (F.detach k) F₁) : F₁.Idle k := by
  refine ⟨?_, h.leaf⟩
  rw [h.stays k ((h.nodes k).mpr ⟨hk, fun _ => rfl⟩) (fun hm => hm.ne rfl), detach_parent_self]

include hx hkeep h₁

theorem lost_node (idle : F₁.Idle k) :
    c ∈ (F₁.drop k idle).nodes ↔ c ∈ F.nodes ∧ ¬ Gone keep F k c := by
  show c ∈ F₁.nodes.erase k ↔ _
  rw [Finset.mem_erase, h₁.nodes, detach_gone, detach_nodes]
  constructor
  · rintro ⟨hne, hc, himp⟩
    exact ⟨hc, fun hg => hne (himp hg)⟩
  · rintro ⟨hc, hnot⟩
    refine ⟨?_, hc, fun hg => absurd hg hnot⟩
    rintro rfl
    exact hnot .refl

/-- Who the parent is now: `x`, for what was kept below the child. -/
theorem lost_parent (hc : c ∈ F.nodes) (hg : ¬ Gone keep F k c) :
    (Moves keep F k c ∧ F₁.parent c = some x) ∨
      (¬ Moves keep F k c ∧ F₁.parent c = F.parent c) := by
  by_cases hm : Moves keep F k c
  · exact .inl ⟨hm, h₁.moved c (detach_moves.mpr hm)⟩
  · refine .inr ⟨hm, ?_⟩
    have hck : c ≠ k := fun h => hg (h ▸ .refl)
    rw [h₁.stays c ((h₁.nodes c).mpr ⟨hc, fun h => absurd (detach_gone.mp h) hg⟩)
      (fun h => hm (detach_moves.mp h)), detach_parent hck]

theorem lost_child (idle : F₁.Idle k) (h : (F₁.drop k idle).Child q c) :
    (Moves keep F k c ∧ q = x) ∨ (¬ Moves keep F k c ∧ F.Child q c) := by
  obtain ⟨hc, hg⟩ := (lost_node hx hkeep h₁ idle).mp ((F₁.drop k idle).closed h).1
  have h : F₁.parent c = some q := h
  rcases lost_parent hx hkeep h₁ hc hg with ⟨hm, hp⟩ | ⟨hm, hp⟩
  · exact .inl ⟨hm, Option.some.inj (h.symm.trans hp)⟩
  · exact .inr ⟨hm, hp.symm.trans h⟩

theorem child_lost (idle : F₁.Idle k) (hg : ¬ Gone keep F k c) (hm : ¬ Moves keep F k c)
    (h : F.Child q c) : (F₁.drop k idle).Child q c := by
  rcases lost_parent hx hkeep h₁ (F.closed h).1 hg with ⟨hm', -⟩ | ⟨-, hp⟩
  · exact absurd hm' hm
  · exact hp.trans h

theorem lost_below (idle : F₁.Idle k) (h : (F₁.drop k idle).Below a c) : F.Below a c := by
  induction h with
  | refl => exact .refl
  | tail _ hbc ih =>
      rcases lost_child hx hkeep h₁ idle hbc with ⟨hm, rfl⟩ | ⟨-, hbc⟩
      · exact ih.trans (.head (first_child hx) hm.below)
      · exact ih.tail hbc

theorem lost_gone (idle : F₁.Idle k) :
    Gone keep F x c ↔ Gone keep F k c ∨ Gone keep (F₁.drop k idle) x c := by
  constructor
  · intro h
    induction h with
    | refl => exact .inr .refl
    | @tail b c _ hbc ih =>
        by_cases hg : Gone keep F k c
        · exact .inl hg
        · rcases ih with hb | hb
          · exact absurd (ReflTransGen.tail hb hbc) hg
          · have hm : ¬ Moves keep F k c := fun ⟨_, _, _, hc⟩ => hbc.2 hc
            exact .inr (ReflTransGen.tail hb ⟨child_lost hx hkeep h₁ idle hg hm hbc.1, hbc.2⟩)
  · rintro (h | h)
    · exact ReflTransGen.head ⟨first_child hx, hkeep⟩ h
    · refine ReflTransGen.mono (fun b c hbc => ⟨?_, hbc.2⟩) x c h
      rcases lost_child hx hkeep h₁ idle hbc.1 with ⟨⟨_, _, _, hc⟩, -⟩ | ⟨-, hbc⟩
      · exact absurd hc hbc.2
      · exact hbc

theorem lost_moves (idle : F₁.Idle k) :
    Moves keep F x c ↔ Moves keep (F₁.drop k idle) x c := by
  have hup {c} (h : Gone keep (F₁.drop k idle) x c) := (lost_gone hx hkeep h₁ idle).mpr (.inr h)
  constructor
  · rintro ⟨p, hp, hpc, hc⟩
    have hg : ¬ Gone keep F k c := by
      intro hg
      rcases ReflTransGen.cases_tail hg with rfl | ⟨b, -, hb⟩
      · exact hkeep hc
      · exact hb.2 hc
    by_cases hm : Moves keep F k c
    · rcases lost_parent hx hkeep h₁ (F.closed hpc).1 hg with ⟨-, hx'⟩ | ⟨hm', -⟩
      · exact ⟨x, .refl, hx', hc⟩
      · exact absurd hm hm'
    · rcases (lost_gone hx hkeep h₁ idle).mp hp with hp | hp
      · exact absurd ⟨p, hp, hpc, hc⟩ hm
      · exact ⟨p, hp, child_lost hx hkeep h₁ idle hg hm hpc, hc⟩
  · rintro ⟨p, hp, hpc, hc⟩
    rcases lost_child hx hkeep h₁ idle hpc with ⟨⟨q, hq, hqc, -⟩, -⟩ | ⟨-, hpc⟩
    · exact ⟨q, (lost_gone hx hkeep h₁ idle).mpr (.inl hq), hqc, hc⟩
    · exact ⟨p, hup hp, hpc, hc⟩

theorem lost_node_of_not_below (idle : F₁.Idle k) (hc : c ∈ F.nodes) (hb : ¬ F.Below k c) :
    c ∈ (F₁.drop k idle).nodes :=
  (lost_node hx hkeep h₁ idle).mpr ⟨hc, fun h => hb h.below⟩

/-- A child of a node that is not below `x` stays its child. -/
theorem lost_outside (idle : F₁.Idle k) (hp : ¬ F.Below x p) (h : F.Child p c) :
    (F₁.drop k idle).Child p c := by
  have hkc : ¬ F.Below k c := by
    intro hb
    rcases ReflTransGen.cases_tail hb with rfl | ⟨b, hkb, hbc⟩
    · obtain rfl := Option.some.inj (h.symm.trans (first_child hx))
      exact hp .refl
    · obtain rfl := Option.some.inj (h.symm.trans hbc)
      exact hp (.head (first_child hx) hkb)
  exact child_lost hx hkeep h₁ idle (fun hg => hkc hg.below) (fun hm => hkc hm.below) h

/-- Nodes that were roots still are. -/
theorem lost_root (idle : F₁.Idle k) (h : (F₁.drop k idle).parent c ≠ none) :
    F.parent c ≠ none := by
  obtain ⟨q, hq⟩ := Option.ne_none_iff_exists'.mp h
  rcases lost_child hx hkeep h₁ idle hq with ⟨⟨p, -, hpc, -⟩, -⟩ | ⟨-, hqc⟩
  · exact fun hnone => by cases hpc.symm.trans hnone
  · exact fun hnone => by cases hqc.symm.trans hnone

theorem lost_parent_self (idle : F₁.Idle k) (hxn : x ∈ F.nodes) :
    (F₁.drop k idle).parent x = F.parent x := by
  have hb : ¬ F.Below k x := not_below_child (first_child hx)
  rcases lost_parent hx hkeep h₁ hxn (fun hg => hb hg.below) with ⟨hm, -⟩ | ⟨-, hp⟩
  · exact absurd hm.below hb
  · exact hp

theorem lost_target (idle : F₁.Idle k) (hP : F.Target P x) : (F₁.drop k idle).Target P x := by
  intro p hp
  obtain ⟨hpn, hb⟩ := hP p hp
  exact ⟨lost_node_of_not_below hx hkeep h₁ idle hpn (fun h => hb (.head (first_child hx) h)),
    fun h => hb (lost_below hx hkeep h₁ idle h)⟩

/-- A row that neither the child nor `x` owns is as it was. -/
theorem lost_kids (hq : ¬ Gone keep F k q) (hqx : q ≠ x) : F₁.kids q = F.kids q := by
  rw [h₁.rows q (fun h => hq (detach_gone.mp h)) (fun h => hqx (Option.some.inj h).symm)]
  exact List.erase_of_not_mem
    (fun hm => hqx (Option.some.inj ((F.mem_kids.mp hm).symm.trans (first_child hx))))

theorem lost_cleared (idle : F₁.Idle k) (hP : F.Target P x)
    (h : Cleared keep P x (F₁.drop k idle) F') : Cleared keep P x F F' := by
  have hgone {c} := lost_gone (c := c) hx hkeep h₁ idle
  have hmoves {c} := lost_moves (c := c) hx hkeep h₁ idle
  have hnotx : ¬ Gone keep F k x := fun h => not_below_child (first_child hx) h.below
  refine ⟨?_, h.leaf, ?_, ?_, ?_, ?_⟩
  · intro c
    rw [h.nodes, lost_node hx hkeep h₁ idle, hgone]
    constructor
    · rintro ⟨⟨hc, hg⟩, himp⟩
      exact ⟨hc, fun h => h.elim (fun h => absurd h hg) himp⟩
    · rintro ⟨hc, himp⟩
      refine ⟨⟨hc, fun hg => ?_⟩, fun h => himp (.inr h)⟩
      exact hnotx (himp (.inl hg) ▸ hg)
  · exact fun c hc => h.moved c (hmoves.mp hc)
  · intro c hc hnot
    rw [h.stays c hc (fun hm => hnot (hmoves.mpr hm))]
    obtain ⟨hcn, hg⟩ := (lost_node hx hkeep h₁ idle).mp ((h.nodes c).mp hc).1
    rcases lost_parent hx hkeep h₁ hcn hg with ⟨⟨p, hp, hpc, hk⟩, -⟩ | ⟨-, hp⟩
    · exact absurd ⟨p, hgone.mpr (.inl hp), hpc, hk⟩ hnot
    · exact hp
  · intro q hq hPq
    have hqx : q ≠ x := fun h => hq (h ▸ .refl)
    rw [h.rows q (fun hg => hq (hgone.mpr (.inr hg))) hPq]
    show F₁.kids q = F.kids q
    exact lost_kids hx hkeep h₁ (fun hg => hq (hgone.mpr (.inl hg))) hqx
  · intro p hp
    obtain ⟨l, hl, hmem⟩ := h.front p hp
    have hb := (hP p hp).2
    have hrow : F₁.kids p = F.kids p := lost_kids hx hkeep h₁
      (fun hg => hb (.head (first_child hx) hg.below)) (fun h => hb (h ▸ .refl))
    refine ⟨l, ?_, fun c => (hmem c).trans hmoves.symm⟩
    rw [hl, ← hrow]
    rfl

end Lost

/-! ## What comes out -/

/-- Clearing has the outcome that `Cleared` says. -/
theorem Clears.cleared (h : Clears keep P x F F') (hx : x ∈ F.nodes) (hP : F.Target P x) :
    Cleared keep P x F F' := by
  induction h with
  | @done P x F leaf =>
      have hgone : ∀ c, Gone keep F x c → c = x := by
        intro c h
        rcases ReflTransGen.cases_head h with rfl | ⟨b, hb, -⟩
        · rfl
        · have hmem := F.mem_kids.mpr hb.1
          simp [leaf] at hmem
      have hmoves : ∀ c, ¬ Moves keep F x c := by
        rintro c ⟨p, hp, hpc, -⟩
        obtain rfl := hgone p hp
        have hmem := F.mem_kids.mpr hpc
        simp [leaf] at hmem
      exact ⟨fun c => (and_iff_left (hgone c)).symm, leaf, fun c hc => absurd hc (hmoves c),
        fun c _ _ => rfl, fun q _ _ => rfl, fun p _ => ⟨[], rfl, fun c => by simp [hmoves c]⟩⟩
  | @kept P x k F F' child hkeep _ ih =>
      refine kept_cleared child hkeep hP (ih ?_ (kept_target child hkeep hP))
      rwa [steal_nodes]
  | @gone P x k F F₁ F' child hkeep _ idle _ ihk ihx =>
      have hedge := first_child child
      have h₁ := ihk (F.closed hedge).1 (detach_target hedge)
      refine lost_cleared child hkeep h₁ idle hP (ihx ?_ (lost_target child hkeep h₁ idle hP))
      exact lost_node_of_not_below child hkeep h₁ idle hx (not_below_child hedge)

/-- Clearing comes to an end: every child taken leaves fewer below `x`. -/
theorem clears_exists (keep : α → Prop) (P : Option α) (x : α) (F : Forest α) (hx : x ∈ F.nodes)
    (hP : F.Target P x) : ∃ F', Clears keep P x F F' := by
  induction hn : F.weight x using Nat.strong_induction_on generalizing P x F with
  | _ n ih =>
      subst hn
      cases hfirst : F.first x with
      | none => exact ⟨F, .done (List.head?_eq_none_iff.mp hfirst)⟩
      | some k =>
          have hedge := first_child hfirst
          have hk := (F.closed hedge).1
          have hbelow : F.Below x k := .single hedge
          by_cases hkeep : keep k
          · have hPx := kept_target hfirst hkeep hP
            have hPk := target_child hfirst hkeep hP
            have hlt : (F.steal P k).weight x < F.weight x := by
              refine weight_lt hk hbelow ?_ ?_
              · intro c hc hb
                rw [steal_nodes] at hc
                exact ⟨hc, kept_below hfirst hkeep hP hb⟩
              · rintro ⟨-, hb⟩
                rcases ReflTransGen.cases_tail hb with rfl | ⟨b, hxb, hb⟩
                · exact F.parent_ne_self _ hedge
                · rcases (steal_child hk hPk).mp hb with ⟨hne, -⟩ | ⟨-, rfl⟩
                  · exact hne rfl
                  · exact (hPx b rfl).2 hxb
            obtain ⟨F', hF'⟩ := ih _ hlt P x _ (by rwa [steal_nodes]) hPx rfl
            exact ⟨F', .kept hfirst hkeep hF'⟩
          · have hltk : (F.detach k).weight k < F.weight x := by
              refine weight_lt hx .refl ?_ ?_
              · exact fun c hc hb => ⟨hc, .head hedge (detach_below_le hb)⟩
              · exact fun h => not_below_child hedge (detach_below_le h.2)
            obtain ⟨F₁, hF₁⟩ := ih _ hltk (some x) k (F.detach k) hk (detach_target hedge) rfl
            have h₁ := hF₁.cleared hk (detach_target hedge)
            have idle := h₁.idle hk
            have hltx : (F₁.drop k idle).weight x < F.weight x := by
              refine weight_lt hk hbelow ?_ ?_
              · exact fun c hc hb => ⟨((lost_node hfirst hkeep h₁ idle).mp hc).1,
                  lost_below hfirst hkeep h₁ idle hb⟩
              · exact fun h => Finset.notMem_erase k _ h.1
            obtain ⟨F', hF'⟩ := ih _ hltx P x _
              (lost_node_of_not_below hfirst hkeep h₁ idle hx (not_below_child hedge))
              (lost_target hfirst hkeep h₁ idle hP) rfl
            exact ⟨F', .gone hfirst hkeep hF₁ idle hF'⟩

/-! ## Freeing a node -/

/-- What is left when `a` is cut off, cleared and dropped. -/
structure Freed (keep : α → Prop) (a : α) (F F' : Forest α) : Prop where
  nodes : ∀ c, c ∈ F'.nodes ↔ c ∈ F.nodes ∧ ¬ Gone keep F a c
  moved : ∀ c, Moves keep F a c → F'.parent c = F.parent a
  stays : ∀ c ∈ F'.nodes, ¬ Moves keep F a c → F'.parent c = F.parent c
  rows  : ∀ q, ¬ Gone keep F a q → F.parent a ≠ some q → F'.kids q = F.kids q
  front : ∀ p, F.parent a = some p →
    ∃ l, F'.kids p = l ++ (F.kids p).erase a ∧ ∀ c, c ∈ l ↔ Moves keep F a c

/-- The old parent can take what is below the node. -/
theorem detach_target_parent (a : α) : (F.detach a).Target (F.parent a) a := by
  intro p hp
  exact ⟨(F.closed hp).2, fun hb => not_below_child hp (detach_below_le hb)⟩

theorem Cleared.freed (ha : a ∈ F.nodes) (h : Cleared keep (F.parent a) a (F.detach a) F₁) :
    Freed keep a F (F₁.drop a (h.idle ha)) := by
  refine ⟨?_, ?_, ?_, ?_, ?_⟩
  · intro c
    show c ∈ F₁.nodes.erase a ↔ _
    rw [Finset.mem_erase, h.nodes, detach_gone, detach_nodes]
    constructor
    · rintro ⟨hne, hc, himp⟩
      exact ⟨hc, fun hg => hne (himp hg)⟩
    · rintro ⟨hc, hnot⟩
      refine ⟨?_, hc, fun hg => absurd hg hnot⟩
      rintro rfl
      exact hnot .refl
  · exact fun c hc => h.moved c (detach_moves.mpr hc)
  · intro c hc hm
    obtain ⟨hca, hc⟩ := Finset.mem_erase.mp hc
    exact (h.stays c hc (fun hm' => hm (detach_moves.mp hm'))).trans (detach_parent hca)
  · intro q hg hq
    show F₁.kids q = F.kids q
    rw [h.rows q (fun hg' => hg (detach_gone.mp hg')) hq]
    exact List.erase_of_not_mem (fun hm => hq (F.mem_kids.mp hm))
  · intro p hp
    obtain ⟨l, hl, hmem⟩ := h.front p hp
    exact ⟨l, hl, fun c => (hmem c).trans detach_moves⟩

end Forest
