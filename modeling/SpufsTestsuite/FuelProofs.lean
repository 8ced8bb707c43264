import Mathlib

/-! # Fuel — what a computation returns with any amount from some on

    A recursion without a measure is given fuel, and `none` stands both for a
    fault and for fuel that ran out.  The two part when the fuel grows: a
    computation returns `r` if it does so with every amount from some on. -/

namespace Fuel

variable {α β : Type}

/-- With fuel enough the computation returns `r`. -/
def Returns (f : Nat → Option α) (r : α) : Prop := ∃ n, ∀ m, n ≤ m → f m = some r

theorem Returns.pure (r : α) : Returns (fun _ => some r) r := ⟨0, fun _ _ => rfl⟩

/-- No computation returns two things. -/
theorem Returns.unique {f : Nat → Option α} {r s : α} (hr : Returns f r) (hs : Returns f s) :
    r = s := by
  obtain ⟨n, hn⟩ := hr
  obtain ⟨k, hk⟩ := hs
  have h := (hn (n + k) (by omega)).symm.trans (hk (n + k) (by omega))
  exact Option.some.inj h

theorem Returns.congr {f g : Nat → Option α} {r : α} (h : Returns f r) (hfg : ∀ n, g n = f n) :
    Returns g r := by
  obtain ⟨n, hn⟩ := h
  exact ⟨n, fun m hm => (hfg m).trans (hn m hm)⟩

/-- One after the other, with the same fuel for both. -/
theorem Returns.bind {f : Nat → Option α} {g : Nat → α → Option β} {r : α} {s : β}
    (hf : Returns f r) (hg : Returns (fun n => g n r) s) :
    Returns (fun n => (f n).bind (g n)) s := by
  obtain ⟨n, hn⟩ := hf
  obtain ⟨k, hk⟩ := hg
  refine ⟨n + k, ?_⟩
  intro m hm
  show (f m).bind (g m) = some s
  rw [hn m (by omega), Option.bind_some]
  exact hk m (by omega)

/-- What is made of a result without any fuel. -/
theorem Returns.out {f : Nat → Option α} {g : Nat → Option β} {r : α} (h : Returns f r) (k : α → β)
    (hfg : ∀ n, g n = (f n).bind (fun a => some (k a))) : Returns g (k r) :=
  (h.bind (g := fun _ a => some (k a)) (Returns.pure (k r))).congr hfg

/-- A recursive call has one less. -/
theorem Returns.step {f g : Nat → Option α} {r : α} (h : Returns g r)
    (hfg : ∀ n, f (n + 1) = g n) : Returns f r := by
  obtain ⟨n, hn⟩ := h
  refine ⟨n + 1, ?_⟩
  intro m hm
  obtain ⟨k, rfl⟩ := Nat.exists_eq_add_of_le' hm
  rw [← Nat.add_assoc, hfg]
  exact hn _ (by omega)

end Fuel
