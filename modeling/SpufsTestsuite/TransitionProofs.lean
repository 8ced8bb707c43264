import Mathlib

/-! # Transition systems — ranked invariants and parties that settle

    Two things are asked of a system of several parties that take steps in any
    order: what holds in every state that is reached, and that every run comes
    to an end.  A ranked invariant answers both (`Ranked`): it holds along a
    run, and its rank goes down at every step.

    A party does most of its steps alone, one determined by the other.  All
    that matters of such a state is the state of rest it gets to
    (`Settles`): a step of its own leaves that state as it is
    (`Settles.after`), and it takes part in a step of several parties only
    when it is there (`Settles.cases_own`). -/

namespace Transition

open Relation (ReflTransGen)

variable {σ : Type} {step : σ → σ → Prop}

/-- No step is left. -/
def Final (step : σ → σ → Prop) (s : σ) : Prop := ∀ t, ¬ step s t

/-- Every run from the state comes to an end. -/
def Ends (step : σ → σ → Prop) (s : σ) : Prop :=
  ∀ run : Nat → σ, run 0 = s → ∃ k, ¬ step (run k) (run (k + 1))

/-- An invariant with a rank that every step lowers. -/
def Ranked (step : σ → σ → Prop) (Inv : σ → Nat → Prop) : Prop :=
  ∀ s t r, Inv s r → step s t → ∃ r', r' < r ∧ Inv t r'

/-- **The invariant holds in every state that is reached.** -/
theorem Ranked.reached {Inv : σ → Nat → Prop} (h : Ranked step Inv) {s t : σ} {r : Nat}
    (hs : Inv s r) (hr : ReflTransGen step s t) : ∃ r', Inv t r' := by
  induction hr with
  | refl => exact ⟨r, hs⟩
  | tail _ hstep ih =>
      obtain ⟨r', hr'⟩ := ih
      obtain ⟨r'', -, hr''⟩ := h _ _ _ hr' hstep
      exact ⟨r'', hr''⟩

/-- **Every run ends**: it has no more steps than the rank. -/
theorem Ranked.ends {Inv : σ → Nat → Prop} (h : Ranked step Inv) {s : σ} {r : Nat}
    (hs : Inv s r) : Ends step s := by
  intro run h0
  by_contra hrun
  have hgoes : ∀ k, step (run k) (run (k + 1)) := by
    intro k
    by_contra hk
    exact hrun ⟨k, hk⟩
  -- along an endless run the rank would go down for ever
  have hrank : ∀ k, ∃ r', r' + k ≤ r ∧ Inv (run k) r' := by
    intro k
    induction k with
    | zero => exact ⟨r, Nat.le_refl r, h0 ▸ hs⟩
    | succ k ih =>
        obtain ⟨r', hle, hinv⟩ := ih
        obtain ⟨r'', hlt, hinv'⟩ := h _ _ _ hinv (hgoes k)
        exact ⟨r'', by omega, hinv'⟩
  obtain ⟨r', hle, -⟩ := hrank (r + 1)
  omega

/-- A final state is reached. -/
theorem Ranked.final {Inv : σ → Nat → Prop} (h : Ranked step Inv) {s : σ} {r : Nat}
    (hs : Inv s r) : ∃ t, ReflTransGen step s t ∧ Final step t := by
  induction r using Nat.strongRecOn generalizing s with
  | _ r ih =>
      by_cases hfin : Final step s
      · exact ⟨s, .refl, hfin⟩
      · obtain ⟨t, ht⟩ : ∃ t, step s t := by
          by_contra hnone
          exact hfin (fun t ht => hnone ⟨t, ht⟩)
        obtain ⟨r', hlt, hinv⟩ := h _ _ _ hs ht
        obtain ⟨u, hu, hufin⟩ := ih r' hlt hinv
        exact ⟨u, .head ht hu, hufin⟩

/-- The rank of a system of parties, when the rank of one of them changes. -/
theorem sum_update {ι : Type} [Fintype ι] [DecidableEq ι] (rank : ι → Nat) (i : ι)
    (r : Nat) : ∑ j, Function.update rank i r j + rank i = ∑ j, rank j + r := by
  rw [Finset.sum_update_of_mem (Finset.mem_univ i),
    ← Finset.add_sum_erase Finset.univ rank (Finset.mem_univ i), Finset.erase_eq]
  omega

/-- What holds of a party that has changed, and of the others as before, holds of
    all of them. -/
theorem forall_update {ι α : Type} [DecidableEq ι] {f : ι → α} {i : ι} {a : α}
    (P : ι → α → Prop) (hi : P i a) (hother : ∀ j, j ≠ i → P j (f j)) (j : ι) :
    P j (Function.update f i a j) :=
  (Function.forall_update_iff f (p := P)).mpr ⟨hi, hother⟩ j

/-- The same, of the parties with their ranks. -/
theorem forall_update_rank {ι α : Type} [DecidableEq ι] {f : ι → α} {rank : ι → Nat} {i : ι}
    {a : α} {r : Nat} (P : ι → α → Nat → Prop) (hi : P i a r)
    (hother : ∀ j, j ≠ i → P j (f j) (rank j)) (j : ι) :
    P j (Function.update f i a j) (Function.update rank i r j) := by
  by_cases hj : j = i
  · rw [hj, Function.update_self, Function.update_self]
    exact hi
  · rw [Function.update_of_ne hj, Function.update_of_ne hj]
    exact hother j hj

section Settling

variable {κ ο : Type} {own : κ → Option κ} {obs : κ → ο}

/-- After `k` steps of its own the party is at rest in `c`, and what others see
    of it has not changed on the way. -/
inductive Settles (own : κ → Option κ) (obs : κ → ο) : Nat → κ → κ → Prop where
  | rest {c : κ} (h : own c = none) : Settles own obs 0 c c
  | step {k : Nat} {s t c : κ} (h : own s = some t) (ho : obs t = obs s)
      (ht : Settles own obs k t c) : Settles own obs (k + 1) s c

/-- Others see of the party what they see of it at rest. -/
theorem Settles.obs_eq {k : Nat} {s c : κ} (h : Settles own obs k s c) : obs s = obs c := by
  induction h with
  | rest _ => rfl
  | step _ ho _ ih => exact ho.symm.trans ih

/-- A step of its own brings the party nearer to the same state of rest. -/
theorem Settles.after {k : Nat} {s t c : κ} (h : Settles own obs k s c)
    (hs : own s = some t) : ∃ j, k = j + 1 ∧ Settles own obs j t c := by
  cases h with
  | rest h' =>
      rw [hs] at h'
      exact nomatch h'
  | step h' _ ht =>
      rw [hs] at h'
      cases Option.some.inj h'
      exact ⟨_, rfl, ht⟩

/-- The party is at rest, or has a step of its own. -/
theorem Settles.cases_own {k : Nat} {s c : κ} (h : Settles own obs k s c) :
    (s = c ∧ own s = none) ∨ ∃ t, own s = some t := by
  cases h with
  | rest h' => exact .inl ⟨rfl, h'⟩
  | step h' _ _ => exact .inr ⟨_, h'⟩

end Settling

end Transition
