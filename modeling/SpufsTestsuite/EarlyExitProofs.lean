import Mathlib

/-! # Early exit — loops that may return from the middle

    A loop goes through a list and in each turn either leaves with a value or
    goes on.  What the loop does is then decided by the first element it
    leaves at: the turns in front of it have all been taken (`walk_goes`), its
    own turn is the last one (`walk_leaves`), and nothing behind it is looked
    at. -/

namespace EarlyExit

/-- What one turn emits, and the value it leaves the loop with, if any. -/
structure Turn (ω ρ : Type) where
  out : List ω
  ret : Option ρ

variable {α ω ρ : Type}

/-- The turns of the loop, one after the other. -/
def walk (turn : α → Turn ω ρ) : List α → Turn ω ρ
  | [] => ⟨[], none⟩
  | x :: xs =>
      match (turn x).ret with
      | some r => ⟨(turn x).out, some r⟩
      | none => ⟨(turn x).out ++ (walk turn xs).out, (walk turn xs).ret⟩

variable {turn : α → Turn ω ρ}

theorem walk_stop {x : α} {r : ρ} (h : (turn x).ret = some r) (xs : List α) :
    walk turn (x :: xs) = ⟨(turn x).out, some r⟩ := by
  rw [walk, h]

theorem walk_step {x : α} (h : (turn x).ret = none) (xs : List α) :
    walk turn (x :: xs)
      = ⟨(turn x).out ++ (walk turn xs).out, (walk turn xs).ret⟩ := by
  rw [walk, h]

/-- The turns in front of the rest of the loop have all been taken. -/
theorem walk_append {pre : List α} (hpre : ∀ x ∈ pre, (turn x).ret = none)
    (post : List α) :
    walk turn (pre ++ post)
      = ⟨pre.flatMap (fun x => (turn x).out) ++ (walk turn post).out,
          (walk turn post).ret⟩ := by
  induction pre with
  | nil => rfl
  | cons x pre ih =>
      have hx : (turn x).ret = none := hpre x List.mem_cons_self
      have htail : ∀ y ∈ pre, (turn y).ret = none := by
        intro y hy
        exact hpre y (List.mem_cons_of_mem _ hy)
      rw [List.cons_append, walk_step hx, ih htail, List.flatMap_cons,
        List.append_assoc]

/-- **A loop that nothing leaves** takes every turn. -/
theorem walk_goes {xs : List α} (h : ∀ x ∈ xs, (turn x).ret = none) :
    walk turn xs = ⟨xs.flatMap (fun x => (turn x).out), none⟩ := by
  have hw := walk_append h []
  rw [List.append_nil] at hw
  rw [hw]
  simp [walk]

/-- **A loop that is left** takes its last turn at the first element that
    leaves it. -/
theorem walk_leaves {pre post : List α} {x : α} {r : ρ}
    (hpre : ∀ y ∈ pre, (turn y).ret = none) (hx : (turn x).ret = some r) :
    walk turn (pre ++ x :: post)
      = ⟨pre.flatMap (fun y => (turn y).out) ++ (turn x).out, some r⟩ := by
  rw [walk_append hpre, walk_stop hx]

/-- Every loop is of one of the two kinds. -/
theorem leaves_or_goes (turn : α → Turn ω ρ) (xs : List α) :
    (∀ x ∈ xs, (turn x).ret = none)
      ∨ ∃ pre x post r, xs = pre ++ x :: post
          ∧ (∀ y ∈ pre, (turn y).ret = none) ∧ (turn x).ret = some r := by
  cases h : xs.findSome? (fun x => (turn x).ret) with
  | none =>
      left
      intro x hx
      exact List.findSome?_eq_none_iff.mp h x hx
  | some r =>
      right
      obtain ⟨pre, x, post, hxs, hx, hpre⟩ := List.findSome?_eq_some_iff.mp h
      exact ⟨pre, x, post, r, hxs, hpre, hx⟩

/-- Loops whose turns leave alike, and emit alike as far as `f` looks, do so
    as a whole. -/
theorem walk_congr {β : Type} {f : ω → β} {turn turn' : α → Turn ω ρ} {xs : List α}
    (h : ∀ x ∈ xs, (turn x).ret = (turn' x).ret
      ∧ (turn x).out.map f = (turn' x).out.map f) :
    (walk turn xs).ret = (walk turn' xs).ret
      ∧ (walk turn xs).out.map f = (walk turn' xs).out.map f := by
  induction xs with
  | nil => exact ⟨rfl, rfl⟩
  | cons x xs ih =>
      obtain ⟨hret, hout⟩ := h x List.mem_cons_self
      obtain ⟨hrets, houts⟩ := ih (fun y hy => h y (List.mem_cons_of_mem _ hy))
      cases hx : (turn x).ret with
      | some r =>
          rw [walk_stop hx, walk_stop (hret.symm.trans hx)]
          exact ⟨rfl, hout⟩
      | none =>
          rw [walk_step hx, walk_step (hret.symm.trans hx)]
          refine ⟨hrets, ?_⟩
          rw [List.map_append, List.map_append, hout, houts]

/-! ## The elements the loop gets to -/

/-- The elements up to the first one that satisfies `p`, with that one. -/
def upTo (p : α → Bool) : List α → List α
  | [] => []
  | x :: xs => if p x then [x] else x :: upTo p xs

theorem upTo_eq_self {p : α → Bool} {xs : List α} (h : ∀ x ∈ xs, p x = false) :
    upTo p xs = xs := by
  induction xs with
  | nil => rfl
  | cons x xs ih =>
      have hx : ¬ p x = true := Bool.eq_false_iff.mp (h x List.mem_cons_self)
      rw [upTo, if_neg hx, ih (fun y hy => h y (List.mem_cons_of_mem _ hy))]

theorem upTo_append_cons {p : α → Bool} {pre post : List α} {x : α}
    (hpre : ∀ y ∈ pre, p y = false) (hx : p x = true) :
    upTo p (pre ++ x :: post) = pre ++ [x] := by
  induction pre with
  | nil => exact if_pos hx
  | cons y pre ih =>
      have hy : ¬ p y = true := Bool.eq_false_iff.mp (hpre y List.mem_cons_self)
      rw [List.cons_append, upTo, if_neg hy,
        ih (fun z hz => hpre z (List.mem_cons_of_mem _ hz)), List.cons_append]

theorem flatMap_upTo_map {β γ : Type} (f : β → α) (p : α → Bool) (g : α → List γ)
    (xs : List β) :
    (upTo p (xs.map f)).flatMap g
      = (upTo (fun x => p (f x)) xs).flatMap (fun x => g (f x)) := by
  induction xs with
  | nil => rfl
  | cons x xs ih =>
      rw [List.map_cons, upTo, upTo]
      cases p (f x) with
      | true => rfl
      | false =>
          rw [if_neg Bool.false_ne_true, if_neg Bool.false_ne_true, List.flatMap_cons,
            List.flatMap_cons, ih]

/-- Elements that emit nothing and are not stopped at can be left out. -/
theorem flatMap_upTo_filter {γ : Type} (q p : α → Bool) (g : α → List γ) (xs : List α) :
    (upTo (fun x => q x && p x) xs).flatMap (fun x => if q x then g x else [])
      = (upTo p (xs.filter q)).flatMap g := by
  induction xs with
  | nil => rfl
  | cons x xs ih =>
      rw [upTo, List.filter_cons]
      cases hq : q x with
      | false =>
          rw [Bool.false_and, if_neg Bool.false_ne_true, List.flatMap_cons, hq, ih]
          rfl
      | true =>
          rw [Bool.true_and, if_pos rfl, upTo]
          cases hp : p x with
          | true => simp [hq]
          | false =>
              rw [if_neg Bool.false_ne_true, if_neg Bool.false_ne_true,
                List.flatMap_cons, List.flatMap_cons, hq, ih]
              rfl

/-- **The loop, said once**: it emits what the turns up to the first that
    leaves emit, and it returns what that turn returns. -/
theorem walk_eq (xs : List α) :
    walk turn xs
      = ⟨(upTo (fun x => (turn x).ret.isSome) xs).flatMap (fun x => (turn x).out),
          xs.findSome? (fun x => (turn x).ret)⟩ := by
  rcases leaves_or_goes turn xs with h | ⟨pre, x, post, r, rfl, hpre, hx⟩
  · rw [walk_goes h, upTo_eq_self (by intro x hx; rw [h x hx]; rfl),
      List.findSome?_eq_none_iff.mpr h]
  · rw [walk_leaves hpre hx,
      upTo_append_cons (by intro y hy; rw [hpre y hy]; rfl) (by rw [hx]; rfl),
      List.findSome?_eq_some_iff.mpr ⟨pre, x, post, rfl, hx, hpre⟩,
      List.flatMap_append]
    simp

/-- Whatever holds of all that the loop emits holds turn by turn. -/
theorem forall_walk_out {P : ω → Prop} {xs : List α} :
    (∀ e ∈ (walk turn xs).out, P e)
      ↔ ∀ x ∈ upTo (fun x => (turn x).ret.isSome) xs, ∀ e ∈ (turn x).out, P e := by
  rw [walk_eq]
  constructor
  · intro h x hx e he
    exact h e (List.mem_flatMap.mpr ⟨x, hx, he⟩)
  · intro h e he
    obtain ⟨x, hx, hex⟩ := List.mem_flatMap.mp he
    exact h x hx e hex

theorem mem_upTo_range' {p : Nat → Bool} {s n i : Nat} :
    i ∈ upTo p (List.range' s n)
      ↔ s ≤ i ∧ i < s + n ∧ ∀ j, s ≤ j → j < i → p j = false := by
  induction n generalizing s with
  | zero =>
      constructor
      · intro h
        exact nomatch h
      · rintro ⟨h1, h2, -⟩
        omega
  | succ n ih =>
      rw [List.range'_succ, upTo]
      cases hs : p s with
      | true =>
          rw [if_pos rfl, List.mem_singleton]
          constructor
          · rintro rfl
            exact ⟨Nat.le_refl _, by omega, fun j hj hlt => by omega⟩
          · rintro ⟨h1, -, h3⟩
            by_cases hi : s = i
            · exact hi.symm
            · exact absurd (h3 s (Nat.le_refl _) (by omega)) (by rw [hs]; decide)
      | false =>
          rw [if_neg Bool.false_ne_true, List.mem_cons, ih]
          constructor
          · rintro (rfl | ⟨h1, h2, h3⟩)
            · exact ⟨Nat.le_refl _, by omega, fun j hj hlt => by omega⟩
            · refine ⟨by omega, by omega, fun j hj hlt => ?_⟩
              by_cases hsj : s = j
              · exact hsj ▸ hs
              · exact h3 j (by omega) hlt
          · rintro ⟨h1, h2, h3⟩
            by_cases hi : i = s
            · exact Or.inl hi
            · exact Or.inr ⟨by omega, by omega, fun j hj hlt => h3 j (by omega) hlt⟩

/-- **A counting loop gets to `i`** when no smaller index has left it. -/
theorem mem_upTo_range {p : Nat → Bool} {n i : Nat} :
    i ∈ upTo p (List.range n) ↔ i < n ∧ ∀ j < i, p j = false := by
  rw [List.range_eq_range', mem_upTo_range']
  constructor
  · rintro ⟨-, h2, h3⟩
    exact ⟨by omega, fun j hj => h3 j (Nat.zero_le _) hj⟩
  · rintro ⟨h2, h3⟩
    exact ⟨Nat.zero_le _, by omega, fun j _ hj => h3 j hj⟩

/-! ## Loops that are left at a test

    Where a test says which turns leave, the loop is decided by the first
    element that passes the test; and where they all leave with one value, by
    whether there is such an element. -/

section AtTest

variable {stops : α → Bool} {value : α → ρ} {v : ρ} {xs : List α}

theorem walk_find (h : ∀ x ∈ xs, (turn x).ret = if stops x then some (value x) else none) :
    (walk turn xs).ret = (xs.find? stops).map value := by
  induction xs with
  | nil => rfl
  | cons x xs ih =>
      have hx := h x List.mem_cons_self
      rw [List.find?_cons]
      cases hs : stops x with
      | true =>
          rw [hs, if_pos rfl] at hx
          rw [walk_stop hx]
          rfl
      | false =>
          rw [hs, if_neg Bool.false_ne_true] at hx
          rw [walk_step hx]
          exact ih (fun y hy => h y (List.mem_cons_of_mem _ hy))

theorem walk_ret (h : ∀ x ∈ xs, (turn x).ret = if stops x then some v else none) :
    (walk turn xs).ret = if xs.any stops then some v else none := by
  rw [walk_find h, ← List.isSome_find?]
  cases xs.find? stops <;> rfl

/-- What is kept of the output is what is kept of the turns up to the one the
    loop is left at. -/
theorem walk_out {β : Type} {f : ω → Option β} {g : α → List β}
    (h : ∀ x ∈ xs, (turn x).ret = if stops x then some v else none)
    (hg : ∀ x ∈ xs, (turn x).out.filterMap f = g x) :
    (walk turn xs).out.filterMap f = (upTo stops xs).flatMap g := by
  induction xs with
  | nil => rfl
  | cons x xs ih =>
      have hx := h x List.mem_cons_self
      have hgx := hg x List.mem_cons_self
      rw [upTo]
      cases hs : stops x with
      | true =>
          rw [hs, if_pos rfl] at hx
          rw [walk_stop hx, hgx, if_pos rfl, List.flatMap_singleton]
      | false =>
          rw [hs, if_neg Bool.false_ne_true] at hx
          rw [walk_step hx, List.filterMap_append, hgx, if_neg Bool.false_ne_true,
            List.flatMap_cons]
          exact congrArg (g x ++ ·) (ih (fun y hy => h y (List.mem_cons_of_mem _ hy))
            (fun y hy => hg y (List.mem_cons_of_mem _ hy)))

end AtTest

end EarlyExit
