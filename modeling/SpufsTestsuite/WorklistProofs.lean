import Mathlib

/-! # Worklists — loops over an array that grows under them

    The loop visits the items of an array by their index.  A visit may add
    items at the end of the array and may collect results; the loop ends when
    the index has caught up with the array.

    The items stand for nodes of a finite tree.  When a visit adds the
    children of the node and collects the node's own results, each in any
    order, the loop ends and has collected the results of all nodes
    (`run_collects`): which order the array grows in does not matter. -/

namespace Worklist

/-- The array of items and the results collected so far. -/
structure State (α β : Type) where
  items : List α
  found : List β

/-- How the loop ends: at the end of the array, or at a visit that fails. -/
inductive Outcome (α β : Type)
  | done (s : State α β)
  | failed

variable {α β ι : Type} {visit : α → State α β → Option (State α β)}

/-- The loop from the index `d` on; `none` is a run out of fuel. -/
def run (visit : α → State α β → Option (State α β)) :
    (fuel d : Nat) → State α β → Option (Outcome α β)
  | fuel, d, s =>
      match s.items[d]? with
      | none => some (.done s)
      | some x =>
          match fuel with
          | 0 => none
          | fuel + 1 =>
              match visit x s with
              | none => some .failed
              | some s' => run visit fuel (d + 1) s'

theorem run_end {d : Nat} {s : State α β} (h : s.items[d]? = none) (fuel : Nat) :
    run visit fuel d s = some (.done s) := by
  rw [run.eq_def]
  dsimp only
  rw [h]

theorem run_visit {d : Nat} {s s' : State α β} {x : α} (h : s.items[d]? = some x)
    (hv : visit x s = some s') (fuel : Nat) :
    run visit (fuel + 1) d s = run visit fuel (d + 1) s' := by
  rw [run.eq_def]
  dsimp only
  rw [h]
  dsimp only
  rw [hv]

/-- **The loop keeps what every visit keeps.** -/
theorem run_keeps {P : State α β → Prop}
    (hvisit : ∀ {x s s'}, visit x s = some s' → P s → P s') {fuel d : Nat}
    {s s' : State α β} (h : run visit fuel d s = some (.done s')) (hP : P s) : P s' := by
  induction fuel generalizing d s with
  | zero =>
      rw [run.eq_def] at h
      dsimp only at h
      cases hx : s.items[d]? with
      | none =>
          rw [hx] at h
          exact Outcome.done.inj (Option.some.inj h) ▸ hP
      | some x => rw [hx] at h; exact nomatch h
  | succ fuel ih =>
      rw [run.eq_def] at h
      dsimp only at h
      cases hx : s.items[d]? with
      | none =>
          rw [hx] at h
          exact Outcome.done.inj (Option.some.inj h) ▸ hP
      | some x =>
          rw [hx] at h
          dsimp only at h
          cases hv : visit x s with
          | none => rw [hv] at h; exact nomatch h
          | some s₁ =>
              rw [hv] at h
              exact ih h (hvisit hv hP)

section Collect

-- an item of the array denotes a node
variable (denotes : α → ι → Prop)
-- the children of a node, its own results, those of its whole subtree, and
-- how many nodes that has
variable (children : ι → List ι) (own whole : ι → List β) (size : ι → Nat)

/-- A visit adds the children of the node it visits and collects its results. -/
def Visits (visit : α → State α β → Option (State α β)) : Prop :=
  ∀ x i s, denotes x i → ∃ xs ys js,
    visit x s = some ⟨s.items ++ xs, s.found ++ ys⟩
      ∧ List.Forall₂ denotes xs js ∧ js.Perm (children i) ∧ ys.Perm (own i)

variable {denotes children own whole size}

/-- **The loop collects the results of the whole tree.** -/
theorem run_collects (hvisit : Visits denotes children own visit)
    (hwhole : ∀ i, (whole i).Perm (own i ++ (children i).flatMap whole))
    (hsize : ∀ i, size i = 1 + ((children i).map size).sum)
    {fuel d : Nat} {s : State α β} {is : List ι}
    (hpend : List.Forall₂ denotes (s.items.drop d) is)
    (hfuel : (is.map size).sum ≤ fuel) :
    ∃ s', run visit fuel d s = some (.done s')
      ∧ s'.found.Perm (s.found ++ is.flatMap whole) := by
  induction fuel generalizing d s is with
  | zero =>
      cases is with
      | nil =>
          have hnone : s.items[d]? = none :=
            List.getElem?_eq_none (List.drop_eq_nil_iff.mp (List.forall₂_nil_right_iff.mp hpend))
          exact ⟨s, run_end hnone 0, by simp⟩
      | cons i is =>
          rw [List.map_cons, List.sum_cons, hsize i] at hfuel
          omega
  | succ fuel ih =>
      cases is with
      | nil =>
          have hnone : s.items[d]? = none :=
            List.getElem?_eq_none (List.drop_eq_nil_iff.mp (List.forall₂_nil_right_iff.mp hpend))
          exact ⟨s, run_end hnone _, by simp⟩
      | cons i is =>
          obtain ⟨x, rest, hx, hrest, hdrop⟩ := List.forall₂_cons_right_iff.mp hpend
          have hget : s.items[d]? = some x := by
            rw [← List.head?_drop, hdrop]
            rfl
          have hlt : d < s.items.length := (List.getElem?_eq_some_iff.mp hget).1
          obtain ⟨xs, ys, js, hv, hxs, hjs, hys⟩ := hvisit x i s hx
          -- what is pending now: the rest, and the children behind it
          have hnext : (s.items ++ xs).drop (d + 1) = rest ++ xs := by
            rw [List.drop_append_of_le_length hlt, ← List.tail_drop, hdrop]
            rfl
          have hpend' : List.Forall₂ denotes ((s.items ++ xs).drop (d + 1)) (is ++ js) := by
            rw [hnext]
            exact List.rel_append hrest hxs
          have hsum : ((is ++ js).map size).sum ≤ fuel := by
            have hperm : (js.map size).sum = ((children i).map size).sum :=
              (hjs.map size).sum_nat
            rw [List.map_append, List.sum_append, hperm]
            rw [List.map_cons, List.sum_cons, hsize i] at hfuel
            omega
          obtain ⟨s', hrun, hfound⟩ := @ih (d + 1) ⟨s.items ++ xs, s.found ++ ys⟩ _ hpend' hsum
          refine ⟨s', (run_visit hget hv fuel).trans hrun, hfound.trans ?_⟩
          show ((s.found ++ ys) ++ (is ++ js).flatMap whole).Perm
            (s.found ++ (i :: is).flatMap whole)
          have hchildren : (ys ++ js.flatMap whole).Perm (whole i) :=
            (hys.append (hjs.flatMap_right whole)).trans (hwhole i).symm
          rw [List.flatMap_append, List.flatMap_cons, List.append_assoc]
          refine List.Perm.append_left s.found ?_
          calc List.Perm (ys ++ (is.flatMap whole ++ js.flatMap whole))
                (ys ++ (js.flatMap whole ++ is.flatMap whole)) :=
                List.Perm.append_left ys List.perm_append_comm
            _ = (ys ++ js.flatMap whole) ++ is.flatMap whole := by rw [List.append_assoc]
            List.Perm _ (whole i ++ is.flatMap whole) := hchildren.append_right _

end Collect

end Worklist
