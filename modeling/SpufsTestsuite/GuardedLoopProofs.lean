import Mathlib

/-! # Guarded loops — what the states on the way decide

    A loop goes on while its guard holds.  Its body is partial: it may do
    something that is not allowed, it may leave the loop with a value, or it
    goes on from another state.  The loop is given fuel, so that a run which
    never ends is a run that uses up any amount of it.

    Both questions about a run are questions about the states it reaches: a
    loop commits no fault exactly if no reached state does
    (`loop_fault_iff`), and it does not run out of fuel if a measure goes down
    on the way (`loop_returns`). -/

namespace GuardedLoop

/-- Why a loop does not end. -/
inductive Stop where
  | fault
  | fuel
  deriving DecidableEq, Repr

variable {σ ρ : Type}

/-- The loop from a state on; the value is the one it was left with, if any. -/
def loop (guard : σ → Bool) (body : σ → Option (σ × Option ρ)) :
    Nat → σ → Except Stop (Option ρ)
  | 0, s => if guard s then .error .fuel else .ok none
  | fuel + 1, s =>
      if guard s then
        match body s with
        | none => .error .fault
        | some (_, some r) => .ok (some r)
        | some (s, none) => loop guard body fuel s
      else .ok none

/-- The states that a loop gets to from `s`. -/
inductive Reached (guard : σ → Bool) (body : σ → Option (σ × Option ρ)) (s : σ) :
    σ → Prop where
  | start : Reached guard body s s
  | next {t t' : σ} (h : Reached guard body s t) (hg : guard t = true)
      (hb : body t = some (t', none)) : Reached guard body s t'

variable {guard : σ → Bool} {body : σ → Option (σ × Option ρ)} {s t : σ}

/-- What is reached from the next state is reached. -/
theorem Reached.ahead {s' : σ} (hg : guard s = true) (hb : body s = some (s', none))
    (h : Reached guard body s' t) : Reached guard body s t := by
  induction h with
  | start => exact .next .start hg hb
  | next _ hg' hb' ih => exact .next ih hg' hb'

/-- An invariant of the body holds of every state that is reached. -/
theorem Reached.preserves {P : σ → Prop} (h : Reached guard body s t) (h0 : P s)
    (hstep : ∀ u u', P u → guard u = true → body u = some (u', none) → P u') : P t := by
  induction h with
  | start => exact h0
  | next _ hg hb ih => exact hstep _ _ ih hg hb

theorem loop_done (h : guard s = false) (fuel : Nat) :
    loop guard body fuel s = .ok none := by
  cases fuel with
  | zero => rw [loop, h]; rfl
  | succ fuel => rw [loop, h]; rfl

theorem loop_goes {s' : σ} (hg : guard s = true) (hb : body s = some (s', none))
    (fuel : Nat) : loop guard body (fuel + 1) s = loop guard body fuel s' := by
  rw [loop, if_pos hg, hb]

theorem loop_left {s' : σ} {r : ρ} (hg : guard s = true)
    (hb : body s = some (s', some r)) (fuel : Nat) :
    loop guard body (fuel + 1) s = .ok (some r) := by
  rw [loop, if_pos hg, hb]

theorem loop_fault (hg : guard s = true) (hb : body s = none) (fuel : Nat) :
    loop guard body (fuel + 1) s = .error .fault := by
  rw [loop, if_pos hg, hb]

/-- With more fuel the loop goes on from a reached state. -/
theorem Reached.loop_eq (h : Reached guard body s t) :
    ∃ k, ∀ fuel, loop guard body (fuel + k) s = loop guard body fuel t := by
  induction h with
  | start => exact ⟨0, fun _ => rfl⟩
  | next _ hg hb ih =>
      obtain ⟨k, hk⟩ := ih
      refine ⟨k + 1, ?_⟩
      intro fuel
      rw [Nat.add_comm k 1, ← Nat.add_assoc, hk, loop_goes hg hb]

/-- **No fault** is committed exactly if the body has none in a reached state. -/
theorem loop_fault_iff :
    (∀ fuel, loop guard body fuel s ≠ .error .fault)
      ↔ ∀ t, Reached guard body s t → guard t = true → body t ≠ none := by
  constructor
  · intro h t ht hg hb
    obtain ⟨k, hk⟩ := ht.loop_eq
    exact h (1 + k) ((hk 1).trans (loop_fault hg hb 0))
  · intro h fuel
    induction fuel generalizing s with
    | zero =>
        rw [loop]
        split
        · exact fun h => nomatch h
        · exact fun h => nomatch h
    | succ fuel ih =>
        by_cases hg : guard s = true
        · cases hb : body s with
          | none => exact absurd hb (h s .start hg)
          | some p =>
              obtain ⟨s', r⟩ := p
              cases r with
              | some r =>
                  rw [loop_left hg hb]
                  exact fun h => nomatch h
              | none =>
                  rw [loop_goes hg hb]
                  exact ih (fun t ht => h t (ht.ahead hg hb))
        · rw [loop_done (Bool.eq_false_iff.mpr hg)]
          exact fun h => nomatch h

/-- **A measure that goes down** wherever the loop goes on is fuel enough. -/
theorem loop_returns (μ : σ → Nat)
    (hpos : ∀ t, Reached guard body s t → guard t = true → 0 < μ t)
    (hdown : ∀ t t', Reached guard body s t → guard t = true → body t = some (t', none) →
      μ t' < μ t) {fuel : Nat} (hfuel : μ s ≤ fuel) :
    loop guard body fuel s ≠ .error .fuel := by
  induction fuel generalizing s with
  | zero =>
      have hg : guard s = false := by
        refine Bool.eq_false_iff.mpr ?_
        intro hg
        have := hpos s .start hg
        omega
      rw [loop_done hg]
      exact fun h => nomatch h
  | succ fuel ih =>
      by_cases hg : guard s = true
      · cases hb : body s with
        | none =>
            rw [loop_fault hg hb]
            exact fun h => nomatch h
        | some p =>
            obtain ⟨s', r⟩ := p
            cases r with
            | some r =>
                rw [loop_left hg hb]
                exact fun h => nomatch h
            | none =>
                rw [loop_goes hg hb]
                have hlt := hdown s s' .start hg hb
                exact ih (fun t ht => hpos t (ht.ahead hg hb))
                  (fun t t' ht => hdown t t' (ht.ahead hg hb)) (by omega)
      · rw [loop_done (Bool.eq_false_iff.mpr hg)]
        exact fun h => nomatch h

end GuardedLoop
