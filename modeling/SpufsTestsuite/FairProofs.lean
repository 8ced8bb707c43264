import Mathlib

/-! # Fair runs — parties that are not kept waiting for ever

    A party may go round in a loop until another one has done something.  Such a
    system has endless runs, in which the other party never comes to its turn,
    and no rank goes down at every step.  What can be asked is that a FAIR run
    ends: one that does not pass over a party for ever while it could go on.

    The rule needs a rank that no step raises, and in every state that is not
    final a party whose step lowers it; steps of the others leave that party
    able to do so (`Measure`). -/

namespace Fair

variable {ι σ : Type} {step : ι → σ → σ → Prop}

/-- The party has a step. -/
def Enabled (step : ι → σ → σ → Prop) (i : ι) (s : σ) : Prop := ∃ t, step i s t

/-- No party has a step. -/
def Final (step : ι → σ → σ → Prop) (s : σ) : Prop := ∀ i, ¬ Enabled step i s

/-- The states that are reached. -/
inductive Reached (step : ι → σ → σ → Prop) (s : σ) : σ → Prop where
  | start : Reached step s s
  | step {i : ι} {t u : σ} (ht : Reached step s t) (h : step i t u) : Reached step s u

/-- An endless run, with the party that takes each step. -/
structure Run (step : ι → σ → σ → Prop) where
  state : Nat → σ
  who   : Nat → ι
  goes  : ∀ k, step (who k) (state k) (state (k + 1))

/-- No party that could go on is passed over for ever. -/
def Run.IsFair (r : Run step) : Prop :=
  ∀ i k, ∃ j, k ≤ j ∧ (r.who j = i ∨ ¬ Enabled step i (r.state j))

/-- An invariant, a rank, and the parties that lower it. -/
structure Measure (step : ι → σ → σ → Prop) (Inv : σ → Prop) (rank : σ → Nat)
    (helps : σ → ι → Prop) : Prop where
  inv     : ∀ i s t, Inv s → step i s t → Inv t
  helped  : ∀ s, Inv s → Final step s ∨ ∃ i, helps s i
  enabled : ∀ i s, Inv s → helps s i → Enabled step i s
  down    : ∀ i s t, Inv s → helps s i → step i s t → rank t < rank s
  stays   : ∀ j s t, Inv s → step j s t →
    rank t < rank s ∨ (rank t = rank s ∧ ∀ i, helps s i → helps t i)

variable {Inv : σ → Prop} {rank : σ → Nat} {helps : σ → ι → Prop}

theorem Measure.reached (h : Measure step Inv rank helps) {s t : σ} (hs : Inv s)
    (ht : Reached step s t) : Inv t := by
  induction ht with
  | start => exact hs
  | step _ hstep ih => exact h.inv _ _ _ ih hstep

theorem Run.reached (r : Run step) (k : Nat) : Reached step (r.state 0) (r.state k) := by
  induction k with
  | zero => exact .start
  | succ k ih => exact .step ih (r.goes k)

/-- Until the rank goes down the same party helps. -/
theorem Measure.waits (h : Measure step Inv rank helps) (r : Run step)
    (hinv : ∀ k, Inv (r.state k)) {i : ι} {k : Nat} (hi : helps (r.state k) i) (d : Nat) :
    (∃ j, rank (r.state j) < rank (r.state k)) ∨
      (rank (r.state (k + d)) = rank (r.state k) ∧ helps (r.state (k + d)) i) := by
  induction d with
  | zero => exact .inr ⟨rfl, hi⟩
  | succ d ih =>
      rcases ih with hlt | ⟨heq, hd⟩
      · exact .inl hlt
      · rcases h.stays _ _ _ (hinv (k + d)) (r.goes (k + d)) with hlt | ⟨heq', hkeep⟩
        · exact .inl ⟨k + d + 1, heq ▸ hlt⟩
        · exact .inr ⟨heq'.trans heq, hkeep i hd⟩

/-- **No fair run goes on for ever.** -/
theorem Measure.not_fair (h : Measure step Inv rank helps) (r : Run step)
    (hstart : Inv (r.state 0)) : ¬ r.IsFair := by
  intro hfair
  have hinv : ∀ k, Inv (r.state k) := fun k => h.reached hstart (r.reached k)
  have hnever : ∀ n k, rank (r.state k) = n → False := by
    intro n
    induction n using Nat.strongRecOn with
    | _ n ih =>
        intro k hk
        obtain ⟨i, hi⟩ := (h.helped _ (hinv k)).resolve_left
          (fun hfin => hfin _ ⟨_, r.goes k⟩)
        obtain ⟨j, hkj, hj⟩ := hfair i k
        obtain ⟨d, rfl⟩ := Nat.exists_eq_add_of_le hkj
        rcases h.waits r hinv hi d with ⟨j, hlt⟩ | ⟨heq, hd⟩
        · exact ih _ (hk ▸ hlt) j rfl
        · rcases hj with hwho | hno
          · -- the party that helps takes the step
            have hlt := h.down i _ _ (hinv (k + d)) hd (hwho ▸ r.goes (k + d))
            exact ih _ (by omega) (k + d + 1) rfl
          · exact hno (h.enabled i _ (hinv (k + d)) hd)
  exact hnever _ 0 rfl

end Fair
