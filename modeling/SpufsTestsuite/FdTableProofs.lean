import Mathlib

/-! # Descriptor tables — the numbers a process has open

    A table says for every number what is open there; only finitely many are
    open, so there is a lowest free number, and the calls that open something
    take it.  A pipe takes two numbers, the lower one for its read end.

    A table is determined by its look-ups (`FdTable.ext_get`), and every call
    is described by what it does to them. -/

/-- What is open at each number, for finitely many numbers. -/
structure FdTable (α : Type) where
  get : Nat → Option α
  finite : ∃ b, ∀ n, b ≤ n → get n = none

namespace FdTable

variable {α : Type} {t t' : FdTable α} {n m : Nat}

theorem ext_get (h : ∀ n, t.get n = t'.get n) : t = t' := by
  obtain ⟨f, hf⟩ := t
  obtain ⟨g, hg⟩ := t'
  have hfg : f = g := funext h
  subst hfg
  rfl

/-- Something is open at the number. -/
def IsOpen (t : FdTable α) (n : Nat) : Prop := (t.get n).isSome = true

instance (t : FdTable α) (n : Nat) : Decidable (t.IsOpen n) :=
  inferInstanceAs (Decidable ((t.get n).isSome = true))

theorem isOpen_iff : t.IsOpen n ↔ ∃ f, t.get n = some f := Option.isSome_iff_exists

theorem not_isOpen : ¬ t.IsOpen n ↔ t.get n = none := by
  rw [IsOpen, Bool.not_eq_true, Option.isSome_eq_false_iff, Option.isNone_iff_eq_none]

/-- Nothing is open. -/
def empty : FdTable α := ⟨fun _ => none, 0, fun _ _ => rfl⟩

@[simp] theorem empty_get (n : Nat) : (empty : FdTable α).get n = none := rfl

theorem not_isOpen_empty (n : Nat) : ¬ (empty : FdTable α).IsOpen n :=
  not_isOpen.mpr (empty_get n)

/-! ## The lowest free number -/

theorem exists_free (t : FdTable α) : ∃ n, ¬ t.IsOpen n := by
  obtain ⟨b, hb⟩ := t.finite
  exact ⟨b, not_isOpen.mpr (hb b (Nat.le_refl b))⟩

def lowest (t : FdTable α) : Nat := Nat.find t.exists_free

theorem lowest_free (t : FdTable α) : ¬ t.IsOpen t.lowest := Nat.find_spec t.exists_free

/-- **Everything below the lowest free number is open.** -/
theorem isOpen_of_lt (h : n < t.lowest) : t.IsOpen n :=
  not_not.mp (Nat.find_min t.exists_free h)

theorem lowest_le (h : ¬ t.IsOpen n) : t.lowest ≤ n := Nat.find_min' t.exists_free h

/-- All numbers below a bound are open when the lowest free number is not
    among them. -/
theorem le_lowest_iff : n ≤ t.lowest ↔ ∀ m < n, t.IsOpen m := by
  constructor
  · intro h m hm
    exact isOpen_of_lt (Nat.lt_of_lt_of_le hm h)
  · intro h
    by_contra hlt
    exact t.lowest_free (h _ (Nat.lt_of_not_le hlt))

/-! ## The calls -/

/-- The table with another entry at a number. -/
def set (t : FdTable α) (n : Nat) (v : Option α) : FdTable α where
  get := fun m => if m = n then v else t.get m
  finite := by
    obtain ⟨b, hb⟩ := t.finite
    refine ⟨max b (n + 1), ?_⟩
    intro m hm
    have hne : m ≠ n := by omega
    rw [if_neg hne]
    exact hb m (by omega)

@[simp] theorem set_get (t : FdTable α) (n : Nat) (v : Option α) (m : Nat) :
    (t.set n v).get m = if m = n then v else t.get m := rfl

/-- `close`; on a number that is not open it does nothing. -/
def close (t : FdTable α) (n : Nat) : FdTable α := t.set n none

@[simp] theorem close_get (t : FdTable α) (n m : Nat) :
    (t.close n).get m = if m = n then none else t.get m := rfl

/-- `dup2`; it fails when the old number is not open, and does nothing when the
    two numbers are one. -/
def dup2 (t : FdTable α) (old new : Nat) : Option (FdTable α) :=
  (t.get old).map (fun f => t.set new (some f))

theorem dup2_eq {f : α} (h : t.get n = some f) (m : Nat) :
    t.dup2 n m = some (t.set m (some f)) := by
  rw [dup2, h]
  rfl

/-- `open`: the number, and the table behind it. -/
def openFile (t : FdTable α) (f : α) : Nat × FdTable α := (t.lowest, t.set t.lowest (some f))

/-- What is open behind `open`. -/
theorem isOpen_openFile {f : α} :
    (t.openFile f).2.IsOpen n ↔ n = t.lowest ∨ t.IsOpen n := by
  rw [openFile, IsOpen, set_get]
  by_cases h : n = t.lowest
  · rw [if_pos h]
    exact iff_of_true rfl (Or.inl h)
  · rw [if_neg h]
    exact (or_iff_right h).symm

/-- The numbers of a pipe, and the table behind it. -/
structure Pipe (α : Type) where
  readEnd : Nat
  writeEnd : Nat
  table : FdTable α

/-- `pipe`: the read end takes the lowest free number, the write end the next
    one. -/
def pipe (t : FdTable α) (r w : α) : Pipe α :=
  let read := t.openFile r
  let write := read.2.openFile w
  ⟨read.1, write.1, write.2⟩

section Pipes

variable (t : FdTable α) (r w : α)

theorem pipe_readEnd : (t.pipe r w).readEnd = t.lowest := rfl

theorem pipe_get (n : Nat) :
    (t.pipe r w).table.get n
      = if n = (t.pipe r w).writeEnd then some w
        else if n = (t.pipe r w).readEnd then some r else t.get n := rfl

/-- The write end was free, and is above the read end. -/
theorem pipe_writeEnd :
    ¬ t.IsOpen (t.pipe r w).writeEnd ∧ (t.pipe r w).readEnd < (t.pipe r w).writeEnd := by
  have hfree : ¬ (t.openFile r).2.IsOpen (t.pipe r w).writeEnd :=
    (t.openFile r).2.lowest_free
  rw [isOpen_openFile, not_or] at hfree
  refine ⟨hfree.2, ?_⟩
  have hle := lowest_le hfree.2
  have hne : (t.pipe r w).writeEnd ≠ (t.pipe r w).readEnd := hfree.1
  rw [pipe_readEnd] at hne ⊢
  omega

/-- The write end is at least `n` when all but one of the numbers below are
    open. -/
theorem le_writeEnd_iff {n : Nat} :
    n ≤ (t.pipe r w).writeEnd ↔ ∀ m < n, m = (t.pipe r w).readEnd ∨ t.IsOpen m := by
  have hle : n ≤ (t.openFile r).2.lowest ↔ _ := le_lowest_iff
  simp only [isOpen_openFile] at hle
  exact hle

/-- **The write end is above the first three numbers** when two of them are
    open. -/
theorem three_le_writeEnd :
    3 ≤ (t.pipe r w).writeEnd ↔ (t.IsOpen 0 ∧ (t.IsOpen 1 ∨ t.IsOpen 2))
      ∨ (t.IsOpen 1 ∧ t.IsOpen 2) := by
  rw [le_writeEnd_iff, pipe_readEnd]
  have hfree := t.lowest_free
  constructor
  · intro h
    have h0 := h 0 (by decide)
    have h1 := h 1 (by decide)
    have h2 := h 2 (by decide)
    grind
  · intro h m hm
    -- a free number among two open ones is the lowest
    have hlow : ¬ t.IsOpen m → t.lowest ≤ m := lowest_le
    by_contra hno
    rw [not_or] at hno
    have hlt : t.lowest < m := by
      have := hlow hno.2
      omega
    have hm3 : m = 1 ∨ m = 2 := by omega
    grind

end Pipes

end FdTable
