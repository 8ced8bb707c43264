import Mathlib
import SpufsTestsuite.ForestClearProofs

/-! # Walks through a forest

    Down: a node, then what its children list, one after the other, as far as a
    limit on the depth lets it (`Lists`).  What the limit lets through is listed
    once, with its depth.

    Up: from a node to its parent, and on to the first one that satisfies a
    condition (`Nearest`). -/

set_option linter.unusedSectionVars false

open Relation (ReflTransGen TransGen)

namespace Forest

variable {α : Type} [DecidableEq α] {F : Forest α} {a b c p x : α} {d i j k : Nat}

/-! ## Down -/

/-- `c` is `j` levels below `a`. -/
inductive Level (F : Forest α) : Nat → α → α → Prop
  | self (a : α) : Level F 0 a a
  | child {j : Nat} {a b c : α} (h : F.Child a b) (rest : Level F j b c) : Level F (j + 1) a c

theorem Level.is_below (h : F.Level j a c) : F.Below a c := by
  induction h with
  | self a => exact .refl
  | child h _ ih => exact .head h ih

theorem Below.level (h : F.Below a c) : ∃ j, F.Level j a c := by
  induction h using ReflTransGen.head_induction_on with
  | refl => exact ⟨0, .self c⟩
  | head hab _ ih =>
      obtain ⟨j, hj⟩ := ih
      exact ⟨j + 1, .child hab hj⟩

theorem Level.tail (h : F.Level j a b) (hc : F.Child b c) : F.Level (j + 1) a c := by
  induction h with
  | self a => exact .child hc (.self c)
  | child hab _ ih => exact .child hab (ih hc)

theorem Level.cases_tail (h : F.Level (j + 1) a c) : ∃ b, F.Level j a b ∧ F.Child b c := by
  generalize hk : j + 1 = k at h
  induction h generalizing j with
  | self a => omega
  | @child i a e c hae hrest ih =>
      obtain rfl : j = i := by omega
      cases j with
      | zero =>
          cases hrest
          exact ⟨a, .self a, hae⟩
      | succ j =>
          obtain ⟨b, hb, hbc⟩ := ih rfl
          exact ⟨b, .child hae hb, hbc⟩

/-- The rows below, in the order of a walk; at the depths in `stop` a node is
    listed without its children. -/
inductive Lists (F : Forest α) (stop : Nat → Bool) : Nat → List α → List (α × Nat) → Prop
  | nil (d : Nat) : Lists F stop d [] []
  | leaf {d : Nat} {a : α} {r : List α} {l : List (α × Nat)} (hd : stop d = true)
      (rest : Lists F stop d r l) : Lists F stop d (a :: r) ((a, d) :: l)
  | node {d : Nat} {a : α} {r : List α} {l m : List (α × Nat)} (hd : stop d = false)
      (below : Lists F stop (d + 1) (F.kids a) l) (rest : Lists F stop d r m) :
      Lists F stop d (a :: r) ((a, d) :: (l ++ m))

variable {stop : Nat → Bool} {r : List α} {l : List (α × Nat)}

/-- What is listed: the nodes below the row, if no limit is met on the way. -/
theorem Lists.mem (h : Lists F stop d r l) : (c, k) ∈ l ↔
    ∃ a ∈ r, ∃ j, F.Level j a c ∧ k = d + j ∧ ∀ i, i < j → stop (d + i) = false := by
  induction h with
  | nil d => simp
  | @leaf d a r l hd _ ih =>
      rw [List.mem_cons, ih]
      constructor
      · rintro (h | ⟨b, hb, hlevel⟩)
        · obtain ⟨rfl, rfl⟩ := Prod.mk.inj h
          exact ⟨c, List.mem_cons_self .., 0, .self c, rfl, fun i hi => absurd hi (by omega)⟩
        · exact ⟨b, List.mem_cons_of_mem a hb, hlevel⟩
      · rintro ⟨b, hb, j, hj, rfl, hstop⟩
        rcases List.mem_cons.mp hb with rfl | hb
        · cases hj with
          | self => exact .inl rfl
          | @child j _ _ _ _ _ =>
              have h0 := hstop 0 (by omega)
              rw [Nat.add_zero, hd] at h0
              cases h0
        · exact .inr ⟨b, hb, j, hj, rfl, hstop⟩
  | @node d a r l m hd _ _ ihl ihm =>
      rw [List.mem_cons, List.mem_append, ihl, ihm]
      constructor
      · rintro (h | ⟨b, hb, j, hj, rfl, hstop⟩ | ⟨b, hb, hlevel⟩)
        · obtain ⟨rfl, rfl⟩ := Prod.mk.inj h
          exact ⟨c, List.mem_cons_self .., 0, .self c, rfl, fun i hi => absurd hi (by omega)⟩
        · refine ⟨a, List.mem_cons_self .., j + 1, .child (F.mem_kids.mp hb) hj, by omega, ?_⟩
          intro i hi
          cases i with
          | zero => exact hd
          | succ i =>
              have hi := hstop i (by omega)
              rwa [Nat.add_assoc, Nat.add_comm 1 i] at hi
        · exact ⟨b, List.mem_cons_of_mem a hb, hlevel⟩
      · rintro ⟨b, hb, j, hj, rfl, hstop⟩
        rcases List.mem_cons.mp hb with rfl | hb
        · cases hj with
          | self => exact .inl rfl
          | @child j _ e _ he hrest =>
              refine .inr (.inl ⟨e, F.mem_kids.mpr he, j, hrest, by omega, ?_⟩)
              intro i hi
              have hi := hstop (i + 1) (by omega)
              rwa [Nat.add_comm i 1, ← Nat.add_assoc] at hi
        · exact .inr (.inr ⟨b, hb, j, hj, rfl, hstop⟩)

/-- Everybody listed stands below the row. -/
theorem Lists.is_below (h : Lists F stop d r l) (hc : c ∈ l.map Prod.fst) :
    ∃ a ∈ r, F.Below a c := by
  obtain ⟨⟨c, k⟩, hmem, rfl⟩ := List.mem_map.mp hc
  obtain ⟨a, ha, j, hj, -⟩ := h.mem.mp hmem
  exact ⟨a, ha, hj.is_below⟩

/-- Siblings are not below each other. -/
theorem kids_separate (ha : a ∈ F.kids p) (hb : b ∈ F.kids p) (h : F.Below a b) : a = b := by
  rcases ReflTransGen.cases_tail h with hba | ⟨e, hae, heb⟩
  · exact hba.symm
  · obtain rfl := Option.some.inj (heb.symm.trans (F.mem_kids.mp hb))
    exact absurd hae (not_below_child (F.mem_kids.mp ha))

/-- What the rest of a row lists is not below its first one. -/
theorem Lists.rest_not_below (h : Lists F stop d r l) (hnd : (a :: r).Nodup)
    (hsep : ∀ e ∈ a :: r, ∀ b ∈ a :: r, F.Below e b → e = b) (hc : c ∈ l.map Prod.fst) :
    ¬ F.Below a c := by
  intro hac
  obtain ⟨b, hb, hbc⟩ := h.is_below hc
  have hmem := List.mem_cons_of_mem a hb
  rcases below_total hac hbc with hab | hba
  · exact (List.nodup_cons.mp hnd).1 (hsep a (List.mem_cons_self ..) b hmem hab ▸ hb)
  · exact (List.nodup_cons.mp hnd).1 (hsep b hmem a (List.mem_cons_self ..) hba ▸ hb)

/-- Nobody is listed twice, if nobody in the row is below another one. -/
theorem Lists.nodup (h : Lists F stop d r l) (hnd : r.Nodup)
    (hsep : ∀ a ∈ r, ∀ b ∈ r, F.Below a b → a = b) : (l.map Prod.fst).Nodup := by
  induction h with
  | nil d => exact List.nodup_nil
  | @leaf d a r l _ rest ih =>
      have hih := ih (List.nodup_cons.mp hnd).2
        (fun e he b hb => hsep e (List.mem_cons_of_mem a he) b (List.mem_cons_of_mem a hb))
      exact List.nodup_cons.mpr ⟨fun hc => rest.rest_not_below hnd hsep hc .refl, hih⟩
  | @node d a r l m _ below rest ihl ihm =>
      have hl := ihl (F.nodup a) (fun e he b hb => kids_separate he hb)
      have hm := ihm (List.nodup_cons.mp hnd).2
        (fun e he b hb => hsep e (List.mem_cons_of_mem a he) b (List.mem_cons_of_mem a hb))
      have hla {c : α} (hc : c ∈ l.map Prod.fst) : ∃ b, F.Child a b ∧ F.Below b c := by
        obtain ⟨b, hb, hbc⟩ := below.is_below hc
        exact ⟨b, F.mem_kids.mp hb, hbc⟩
      rw [List.map_cons, List.map_append]
      refine List.nodup_cons.mpr ⟨fun ha => ?_, List.nodup_append.mpr ⟨hl, hm, ?_⟩⟩
      · rcases List.mem_append.mp ha with ha | ha
        · obtain ⟨b, hab, hba⟩ := hla ha
          exact not_below_child hab hba
        · exact rest.rest_not_below hnd hsep ha .refl
      · rintro c hc _ hcm rfl
        obtain ⟨b, hab, hbc⟩ := hla hc
        exact rest.rest_not_below hnd hsep hcm (.head hab hbc)

theorem Lists.cons {m : List (α × Nat)} (ha : Lists F stop d [a] l) (hr : Lists F stop d r m) :
    Lists F stop d (a :: r) (l ++ m) := by
  cases ha with
  | leaf hd rest =>
      cases rest
      exact .leaf hd hr
  | @node _ _ _ l' m' hd below rest =>
      cases rest
      rw [List.append_nil]
      exact .node hd below hr

/-- Without a limit a node lists what is below it. -/
theorem Lists.mem_below (h : Lists F (fun _ => false) d [a] l) :
    c ∈ l.map Prod.fst ↔ F.Below a c := by
  constructor
  · intro hc
    obtain ⟨b, hb, hbc⟩ := h.is_below hc
    rwa [List.mem_singleton.mp hb] at hbc
  · intro hb
    obtain ⟨j, hj⟩ := Below.level hb
    exact List.mem_map.mpr
      ⟨(c, d + j), h.mem.mpr ⟨a, List.mem_singleton_self a, j, hj, rfl, fun _ _ => rfl⟩, rfl⟩

theorem Lists.nodup_single (h : Lists F stop d [a] l) : (l.map Prod.fst).Nodup := by
  refine h.nodup (List.nodup_singleton a) ?_
  intro b hb c hc _
  rw [List.mem_singleton.mp hb, List.mem_singleton.mp hc]

open Classical in
/-- A sum over what a node lists is the sum over what is below it. -/
theorem Lists.sum_eq (h : Lists F (fun _ => false) d [a] l) (ha : a ∈ F.nodes) (f : α → Nat) :
    ((l.map Prod.fst).map f).sum = ∑ c ∈ F.nodes.filter (F.Below a), f c := by
  have hset : F.nodes.filter (F.Below a) = (l.map Prod.fst).toFinset := by
    ext c
    rw [Finset.mem_filter, List.mem_toFinset, h.mem_below]
    exact ⟨And.right, fun hb => ⟨hb.node' ha, hb⟩⟩
  rw [hset, List.sum_toFinset f h.nodup_single]

/-! ## Up -/

open Classical in
theorem weight_le (F : Forest α) (a : α) : F.weight a ≤ F.nodes.card :=
  Finset.card_le_card (Finset.filter_subset _ _)

/-- What holds of a node as soon as it holds of its parent holds of all. -/
theorem parent_induction {C : α → Prop} (step : ∀ a, (∀ p, F.parent a = some p → C p) → C a)
    (a : α) : C a := by
  refine (measure (fun a => F.nodes.card - F.weight a)).wf.induction a (fun b ih => ?_)
  refine step b (fun p hp => ih p ?_)
  show F.nodes.card - F.weight p < F.nodes.card - F.weight b
  have hlt := weight_child hp
  have hle := F.weight_le p
  omega

/-- The first one on the way up that satisfies the condition. -/
inductive Nearest (F : Forest α) (sat : α → Prop) : α → Option α → Prop
  | here {a : α} (h : sat a) : Nearest F sat a (some a)
  | up {a p : α} {r : Option α} (h : ¬ sat a) (hp : F.parent a = some p)
      (rest : Nearest F sat p r) : Nearest F sat a r
  | root {a : α} (h : ¬ sat a) (hp : F.parent a = none) : Nearest F sat a none

variable {sat : α → Prop}

theorem Nearest.some (h : Nearest F sat a (some b)) :
    F.Below b a ∧ sat b ∧ ∀ c, F.Below c a → sat c → F.Below c b := by
  generalize hr : Option.some b = r at h
  induction h with
  | here h =>
      obtain rfl := Option.some.inj hr
      exact ⟨.refl, h, fun c hc _ => hc⟩
  | @up a p r h hp _ ih =>
      obtain ⟨hb, hsat, hfirst⟩ := ih hr
      refine ⟨hb.tail hp, hsat, fun c hc hs => ?_⟩
      rcases ReflTransGen.cases_tail hc with hac | ⟨e, hce, hea⟩
      · exact absurd (hac ▸ hs) h
      · obtain rfl := Option.some.inj (hea.symm.trans hp)
        exact hfirst c hce hs
  | root h hp => cases hr

theorem Nearest.none (h : Nearest F sat a none) : ∀ c, F.Below c a → ¬ sat c := by
  generalize hr : (Option.none : Option α) = r at h
  induction h with
  | here h => cases hr
  | @up a p r h hp _ ih =>
      intro c hc
      rcases ReflTransGen.cases_tail hc with hac | ⟨e, hce, hea⟩
      · exact hac ▸ h
      · obtain rfl := Option.some.inj (hea.symm.trans hp)
        exact ih hr c hce
  | root h hp =>
      intro c hc
      exact below_root hp hc ▸ h

end Forest
