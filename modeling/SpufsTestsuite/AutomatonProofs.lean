import Mathlib

/-! # Partial automata — runs over a list of inputs

    A program that waits for one input after the other is a partial step
    function: `none` says that the program does not take this input in this
    state.  A run over a list of inputs takes every one of them.

    Three rules turn facts about a step into facts about a run: what every step
    keeps holds at the end (`run_preserves`), whoever leaves a set of states
    leaves it at one step (`run_leaves`), and a run is defined where an
    invariant and the input allow every step (`run_takes`). -/

namespace Automaton

variable {σ α : Type} {step : σ → α → Option σ}

/-- The state after the inputs. -/
def run (step : σ → α → Option σ) : σ → List α → Option σ
  | s, [] => some s
  | s, a :: as => (step s a).bind (fun s' => run step s' as)

theorem run_cons {s s' : σ} {a : α} {as : List α} :
    run step s (a :: as) = some s'
      ↔ ∃ s₁, step s a = some s₁ ∧ run step s₁ as = some s' :=
  Option.bind_eq_some_iff

/-- **A run keeps what every step keeps.** -/
theorem run_preserves {P : σ → Prop}
    (hstep : ∀ {s a s'}, step s a = some s' → P s → P s')
    {s s' : σ} {as : List α} (h : run step s as = some s') (hP : P s) : P s' := by
  induction as generalizing s with
  | nil => exact Option.some.inj h ▸ hP
  | cons a as ih =>
      obtain ⟨s₁, hs, hr⟩ := run_cons.mp h
      exact ih hr (hstep hs hP)

/-- **A run leaves a set of states at one step**, before which every step has
    stayed inside. -/
theorem run_leaves {P : σ → Prop} {s s' : σ} {as : List α}
    (h : run step s as = some s') (hP : P s) (hP' : ¬ P s') :
    ∃ pre a post s₁ s₂, as = pre ++ a :: post ∧ run step s pre = some s₁
      ∧ (∀ b ∈ pre, ∃ u v, P u ∧ step u b = some v ∧ P v)
      ∧ P s₁ ∧ step s₁ a = some s₂ ∧ ¬ P s₂ ∧ run step s₂ post = some s' := by
  induction as generalizing s with
  | nil => exact absurd (Option.some.inj h ▸ hP) hP'
  | cons a as ih =>
      obtain ⟨s₁, hs, hr⟩ := run_cons.mp h
      by_cases hP₁ : P s₁
      · obtain ⟨pre, b, post, u, v, rfl, hpre, hin, hu, hstep, hv, hpost⟩ :=
          ih hr hP₁
        refine ⟨a :: pre, b, post, u, v, rfl, run_cons.mpr ⟨s₁, hs, hpre⟩, ?_, hu,
          hstep, hv, hpost⟩
        intro c hc
        rcases List.mem_cons.mp hc with rfl | hc
        · exact ⟨s, s₁, hP, hs, hP₁⟩
        · exact hin c hc
      · refine ⟨[], a, as, s, s₁, rfl, rfl, ?_, hP, hs, hP₁, hr⟩
        intro c hc
        exact nomatch hc

/-- A state that takes no input ends every run. -/
theorem run_stuck {s s' : σ} {as : List α} (hs : ∀ a, step s a = none)
    (h : run step s as = some s') : as = [] ∧ s' = s := by
  cases as with
  | nil => exact ⟨rfl, (Option.some.inj h).symm⟩
  | cons a as =>
      obtain ⟨s₁, h₁, -⟩ := run_cons.mp h
      rw [hs a] at h₁
      exact nomatch h₁

/-! ## The steps of a run -/

/-- In the run over the inputs, `a` is the next input in the state `u`. -/
def Takes (step : σ → α → Option σ) (s : σ) (as : List α) (u : σ) (a : α) : Prop :=
  ∃ pre post, as = pre ++ a :: post ∧ run step s pre = some u

theorem takes_cons {s s' u : σ} {a b : α} {as : List α} (h : step s b = some s') :
    Takes step s (b :: as) u a ↔ (u = s ∧ a = b) ∨ Takes step s' as u a := by
  constructor
  · rintro ⟨pre, post, has, hrun⟩
    cases pre with
    | nil => exact Or.inl ⟨(Option.some.inj hrun).symm, (List.cons.inj has).1.symm⟩
    | cons c pre =>
        obtain ⟨rfl, rfl⟩ := List.cons.inj has
        obtain ⟨s₁, h₁, hpre⟩ := run_cons.mp hrun
        obtain rfl := Option.some.inj (h₁.symm.trans h)
        exact Or.inr ⟨pre, post, rfl, hpre⟩
  · rintro (⟨rfl, rfl⟩ | ⟨pre, post, rfl, hpre⟩)
    · exact ⟨[], as, rfl, rfl⟩
    · exact ⟨b :: pre, post, rfl, run_cons.mpr ⟨s', h, hpre⟩⟩

/-- The first input is taken in the first state. -/
theorem takes_head (step : σ → α → Option σ) (s : σ) (a : α) (as : List α) :
    Takes step s (a :: as) s a := ⟨[], as, rfl, rfl⟩

/-- An input of a run is taken. -/
theorem Takes.defined {s s' u : σ} {as : List α} {a : α} (h : run step s as = some s')
    (ht : Takes step s as u a) : ∃ v, step u a = some v := by
  induction as generalizing s with
  | nil =>
      obtain ⟨pre, post, hnil, -⟩ := ht
      exact absurd hnil.symm (List.append_ne_nil_of_right_ne_nil pre (List.cons_ne_nil a post))
  | cons b as ih =>
      obtain ⟨s₁, hs, hr⟩ := run_cons.mp h
      rcases (takes_cons hs).mp ht with ⟨rfl, rfl⟩ | ht
      · exact ⟨s₁, hs⟩
      · exact ih hr ht

/-- **A run is defined** where the invariant and the input allow every step, and
    the invariant holds wherever an input is taken. -/
theorem run_takes {Inv : σ → Prop} {C : σ → α → Prop}
    (hstep : ∀ {s a}, Inv s → C s a → ∃ s', step s a = some s' ∧ Inv s')
    {s : σ} {as : List α} (hs : Inv s) (hC : ∀ u a, Takes step s as u a → C u a) :
    (∃ s', run step s as = some s' ∧ Inv s') ∧ ∀ u a, Takes step s as u a → Inv u := by
  induction as generalizing s with
  | nil =>
      refine ⟨⟨s, rfl, hs⟩, ?_⟩
      rintro u a ⟨pre, post, hnil, -⟩
      exact absurd hnil.symm (List.append_ne_nil_of_right_ne_nil pre (List.cons_ne_nil a post))
  | cons a as ih =>
      obtain ⟨s₁, h₁, hs₁⟩ := hstep hs (hC s a (takes_head step s a as))
      obtain ⟨⟨s', hrun, hs'⟩, hall⟩ :=
        ih hs₁ (fun u b hb => hC u b ((takes_cons h₁).mpr (Or.inr hb)))
      refine ⟨⟨s', run_cons.mpr ⟨s₁, h₁, hrun⟩, hs'⟩, ?_⟩
      intro u b hb
      rcases (takes_cons h₁).mp hb with ⟨rfl, -⟩ | hb
      · exact hs
      · exact hall u b hb

end Automaton
