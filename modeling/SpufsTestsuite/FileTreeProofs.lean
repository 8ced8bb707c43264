import Mathlib

/-! # Paths in a directory tree without symbolic links

    A place in the tree is the list of the names that lead to it, the innermost
    first, so that `..` is the tail and the root is its own parent.  A path is
    looked up component by component: an empty name and `.` stay, `..` goes up,
    and every other name has to exist; each step starts from a directory.

    From two places the same components lead to two places that differ only in
    what lies above (`resolve_above`).  So a path that exists from the root
    leads to the same place from elsewhere exactly when it climbs up to the
    root on its way (`resolve_eq_root_iff`). -/

namespace FileTree

/-- A name, in bytes. -/
abbrev Name := List UInt8

/-- The names that lead to a place from the root, the innermost first. -/
abbrev Place := List Name

/-- `/`, `.` and `..`. -/
def slash : UInt8 := 47

def dot : Name := [46]

def dotdot : Name := [46, 46]

/-- The name of an entry: not empty, no slash, and none of the two dots. -/
def Proper (c : Name) : Prop := c ≠ [] ∧ c ≠ dot ∧ c ≠ dotdot ∧ slash ∉ c

instance (c : Name) : Decidable (Proper c) := inferInstanceAs (Decidable (_ ∧ _))

/-- What is at a place. -/
inductive Kind (φ : Type)
  | dir
  | file (f : φ)
  deriving DecidableEq

def Kind.isDir {φ : Type} : Kind φ → Bool
  | .dir => true
  | .file _ => false

end FileTree

open FileTree in
/-- A tree: what is at each place, and the entries of each directory. -/
structure FileTree (φ : Type) where
  kind : Place → Option (Kind φ)
  names : Place → List Name
  root_dir : kind [] = some .dir
  parent_dir : ∀ {c p}, (kind (c :: p)).isSome = true → kind p = some .dir
  proper : ∀ {c p}, (kind (c :: p)).isSome = true → Proper c
  mem_names : ∀ {c p}, c ∈ names p ↔ (kind (c :: p)).isSome = true

namespace FileTree

variable {φ : Type} {T T' : FileTree φ} {p q r anc : Place} {c : Name} {cs ds : List Name}

/-! ## Resolution -/

/-- One component. -/
def stepTo (T : FileTree φ) (p : Place) (c : Name) : Option Place :=
  if (T.kind p).any Kind.isDir then
    if c = [] ∨ c = dot then some p
    else if c = dotdot then some p.tail
    else if (T.kind (c :: p)).isSome then some (c :: p) else none
  else none

/-- All components, one after the other. -/
def resolve (T : FileTree φ) : Place → List Name → Option Place
  | p, [] => some p
  | p, c :: cs => (T.stepTo p c).bind fun q => T.resolve q cs

theorem any_isDir {o : Option (Kind φ)} : o.any Kind.isDir = true ↔ o = some .dir := by
  match o with
  | none => simp
  | some .dir => simp [Kind.isDir]
  | some (.file f) => simp [Kind.isDir]

/-- What one component does, from a directory. -/
inductive Steps (T : FileTree φ) (p : Place) (c : Name) : Place → Prop
  | stay (h : c = [] ∨ c = dot) : Steps T p c p
  | up (h : c = dotdot) : Steps T p c p.tail
  | down (h : Proper c) (hsome : (T.kind (c :: p)).isSome = true) : Steps T p c (c :: p)

theorem stepTo_cases (h : T.stepTo p c = some q) : T.kind p = some .dir ∧ Steps T p c q := by
  rw [stepTo] at h
  split at h
  · next hdir =>
      refine ⟨any_isDir.mp hdir, ?_⟩
      split at h
      · next hstay => exact Option.some.inj h ▸ .stay hstay
      · split at h
        · next hup => exact Option.some.inj h ▸ .up hup
        · split at h
          · next hsome => exact Option.some.inj h ▸ .down (T.proper hsome) hsome
          · exact nomatch h
  · exact nomatch h

/-- `..` leads from a directory to its parent. -/
theorem stepTo_dotdot (h : T.kind p = some .dir) : T.stepTo p dotdot = some p.tail := by
  rw [stepTo, if_pos (any_isDir.mpr h), if_neg (by decide), if_pos rfl]

theorem resolve_append :
    T.resolve p (cs ++ ds) = (T.resolve p cs).bind fun q => T.resolve q ds := by
  induction cs generalizing p with
  | nil => rfl
  | cons c cs ih =>
      rw [List.cons_append, resolve, resolve]
      cases T.stepTo p c with
      | none => rfl
      | some q => exact ih

/-- A path that ends in the name of an entry ends at it. -/
theorem resolve_snoc (hc : Proper c) (h : T.resolve p (cs ++ [c]) = some q) :
    ∃ d, T.resolve p cs = some d ∧ q = c :: d := by
  rw [resolve_append] at h
  obtain ⟨d, hd, hstep⟩ := Option.bind_eq_some_iff.mp h
  obtain ⟨q', hq', hq⟩ := Option.bind_eq_some_iff.mp hstep
  obtain rfl := Option.some.inj hq
  refine ⟨d, hd, ?_⟩
  cases (stepTo_cases hq').2 with
  | stay hs => exact (hs.elim hc.1 hc.2.1).elim
  | up hs => exact (hc.2.2.1 hs).elim
  | down _ _ => rfl

/-! ## Two starts -/

/-- One component from two places, one of them below the other's names: what
    lies above stays, or loses its innermost name when the path goes beyond the
    place of the start. -/
theorem stepTo_above (h : T.stepTo p c = some q) (h' : T.stepTo (p ++ anc) c = some r) :
    ∃ anc', r = q ++ anc' ∧ (anc' = anc ∨ (q = [] ∧ anc' = anc.tail)) := by
  obtain ⟨-, hs⟩ := stepTo_cases h
  obtain ⟨-, hs'⟩ := stepTo_cases h'
  have hdots : ¬ (dotdot = [] ∨ dotdot = dot) := by decide
  cases hs with
  | stay hc =>
      cases hs' with
      | stay _ => exact ⟨anc, rfl, Or.inl rfl⟩
      | up hup => exact absurd (hup ▸ hc) hdots
      | down hp _ => exact (hc.elim hp.1 hp.2.1).elim
  | up hc =>
      cases hs' with
      | stay hstay => exact absurd (hc ▸ hstay) hdots
      | up _ =>
          cases p with
          | nil => exact ⟨anc.tail, rfl, Or.inr ⟨rfl, rfl⟩⟩
          | cons x p => exact ⟨anc, rfl, Or.inl rfl⟩
      | down hp _ => exact (hp.2.2.1 hc).elim
  | down hp _ =>
      cases hs' with
      | stay hstay => exact (hstay.elim hp.1 hp.2.1).elim
      | up hup => exact (hp.2.2.1 hup).elim
      | down _ _ => exact ⟨anc, rfl, Or.inl rfl⟩

/-- **From two starts the same components** lead to places that agree but for
    what lies above. -/
theorem resolve_above (h : T.resolve p cs = some q) (h' : T.resolve (p ++ anc) cs = some r) :
    ∃ anc', r = q ++ anc' := by
  induction cs generalizing p anc with
  | nil => exact ⟨anc, by rw [← Option.some.inj h, ← Option.some.inj h']⟩
  | cons c cs ih =>
      obtain ⟨p₁, h₁, hp₁⟩ := Option.bind_eq_some_iff.mp h
      obtain ⟨r₁, h₂, hr₁⟩ := Option.bind_eq_some_iff.mp h'
      obtain ⟨anc', rfl, -⟩ := stepTo_above h₁ h₂
      exact ih hp₁ hr₁

/-- They meet only where nothing lies above, from the start or once the root
    has been reached. -/
theorem resolve_meets (h : T.resolve p cs = some q) (h' : T.resolve (p ++ anc) cs = some q) :
    anc = [] ∨ ∃ pre, pre <+: cs ∧ T.resolve (p ++ anc) pre = some [] := by
  induction cs generalizing p anc with
  | nil =>
      have heq : p = p ++ anc :=
        (Option.some.inj h).trans (Option.some.inj h').symm
      exact Or.inl (List.self_eq_append_right.mp heq)
  | cons c cs ih =>
      obtain ⟨p₁, h₁, hp₁⟩ := Option.bind_eq_some_iff.mp h
      obtain ⟨r₁, h₂, hr₁⟩ := Option.bind_eq_some_iff.mp h'
      obtain ⟨anc', rfl, hanc⟩ := stepTo_above h₁ h₂
      rcases ih hp₁ hr₁ with hnil | ⟨pre, hpre, hres⟩
      · rcases hanc with heq | ⟨hp, -⟩
        · exact Or.inl (heq ▸ hnil)
        · -- the root has been reached with this component
          refine Or.inr ⟨[c], ⟨cs, rfl⟩, ?_⟩
          rw [resolve, h₂, hp, hnil]
          rfl
      · refine Or.inr ⟨c :: pre, List.cons_prefix_cons.mpr ⟨rfl, hpre⟩, ?_⟩
        rw [resolve, h₂]
        exact hres

/-- **A path that exists from the root leads to the same place from elsewhere**
    exactly when it climbs up to the root on its way. -/
theorem resolve_eq_root_iff (h : T.resolve [] cs = some q) :
    T.resolve p cs = some q ↔ ∃ pre, pre <+: cs ∧ T.resolve p pre = some [] := by
  constructor
  · intro h'
    rcases resolve_meets (p := []) h h' with rfl | hpre
    · exact ⟨[], List.nil_prefix, rfl⟩
    · exact hpre
  · rintro ⟨pre, ⟨post, rfl⟩, hpre⟩
    rw [resolve_append] at h ⊢
    obtain ⟨d, hd, hpost⟩ := Option.bind_eq_some_iff.mp h
    obtain ⟨anc', hanc⟩ := resolve_above (p := []) hd hpre
    have hroot : d = [] := (List.append_eq_nil_iff.mp hanc.symm).1
    rw [hpre, Option.bind_some, ← hroot]
    exact hpost

/-! ## Paths -/

/-- The components of a path. -/
def components : List UInt8 → List Name
  | [] => [[]]
  | b :: s =>
      if b = slash then [] :: components s
      else
        match components s with
        | [] => [[b]]
        | c :: cs => (b :: c) :: cs

theorem components_ne_nil (s : List UInt8) : components s ≠ [] := by
  cases s with
  | nil => exact List.cons_ne_nil _ _
  | cons b s =>
      rw [components]
      split
      · exact List.cons_ne_nil _ _
      · split <;> exact List.cons_ne_nil _ _

theorem components_append (s t : List UInt8) :
    components (s ++ slash :: t) = components s ++ components t := by
  induction s with
  | nil => exact if_pos rfl
  | cons b s ih =>
      rw [List.cons_append, components, components, ih]
      by_cases hb : b = slash
      · rw [if_pos hb, if_pos hb, List.cons_append]
      · rw [if_neg hb, if_neg hb]
        cases hs : components s with
        | nil => exact absurd hs (components_ne_nil s)
        | cons c cs => rfl

theorem components_name {c : Name} (h : slash ∉ c) : components c = [c] := by
  induction c with
  | nil => rfl
  | cons b c ih =>
      have hb : ¬ b = slash := fun heq => h (heq ▸ List.mem_cons_self)
      rw [components, if_neg hb, ih (fun hc => h (List.mem_cons_of_mem _ hc))]

/-- The path starts at the root. -/
def Absolute (path : List UInt8) : Prop := path.head? = some slash

instance (path : List UInt8) : Decidable (Absolute path) :=
  inferInstanceAs (Decidable (path.head? = some slash))

variable {path : List UInt8}

/-- The place a path names, for a process in the directory `cwd`; the empty
    path names nothing. -/
def lookup (T : FileTree φ) (cwd : Place) (path : List UInt8) : Option Place :=
  if path = [] then none
  else T.resolve (if Absolute path then [] else cwd) (components path)

theorem lookup_eq (h : T.lookup p path = some q) :
    T.resolve (if Absolute path then [] else p) (components path) = some q := by
  rw [lookup] at h
  split at h
  · exact nomatch h
  · exact h

/-- The path of an entry leads through its directory. -/
theorem lookup_entry (hc : Proper c) (hne : path ≠ [])
    (h : T.lookup p (path ++ slash :: c) = some q) :
    ∃ d, T.lookup p path = some d ∧ q = c :: d := by
  have habs : Absolute (path ++ slash :: c) ↔ Absolute path := by
    rw [Absolute, List.head?_append_of_ne_nil _ hne, Absolute]
  have hres := lookup_eq h
  rw [components_append, components_name hc.2.2.2] at hres
  simp only [habs] at hres
  obtain ⟨d, hd, hq⟩ := resolve_snoc hc hres
  exact ⟨d, (if_neg hne).trans hd, hq⟩

/-- **A path behind `../`** is looked up from the parent, absolute or not. -/
theorem lookup_dotdot (hdir : T.kind (c :: p) = some .dir) :
    T.lookup (c :: p) (dotdot ++ slash :: path) = T.resolve p (components path) := by
  have hne : ¬ dotdot ++ slash :: path = [] := List.append_ne_nil_of_left_ne_nil (by decide) _
  have hrel : ¬ Absolute (dotdot ++ slash :: path) := by
    intro h
    exact absurd (Option.some.inj h) (by decide)
  rw [lookup, if_neg hne, if_neg hrel, components_append, components_name (by decide),
    List.singleton_append, resolve, stepTo_dotdot hdir]
  rfl

/-! ## A new directory -/

/-- `mkdir`, where it succeeds. -/
def mkdir (T : FileTree φ) (p : Place) (c : Name) (hdir : T.kind p = some .dir)
    (hc : Proper c) : FileTree φ where
  kind := fun q => if q = c :: p then some .dir else T.kind q
  names := fun q => if q = p then c :: T.names q else T.names q
  root_dir := (if_neg (List.cons_ne_nil c p).symm).trans T.root_dir
  parent_dir := by
    intro d q h
    by_cases hq : d :: q = c :: p
    · have hqp : q = p := (List.cons.inj hq).2
      rw [hqp, if_neg (List.cons_ne_self c p).symm]
      exact hdir
    · rw [if_neg hq] at h
      have hq' := T.parent_dir h
      by_cases hqc : q = c :: p
      · exact if_pos hqc
      · rw [if_neg hqc]
        exact hq'
  proper := by
    intro d q h
    by_cases hq : d :: q = c :: p
    · exact (List.cons.inj hq).1 ▸ hc
    · rw [if_neg hq] at h
      exact T.proper h
  mem_names := by
    intro d q
    by_cases hqp : q = p
    · rw [if_pos hqp, List.mem_cons, T.mem_names, hqp]
      by_cases hd : d = c
      · rw [hd, if_pos rfl]
        exact iff_of_true (Or.inl rfl) rfl
      · rw [if_neg (fun h => hd (List.cons.inj h).1)]
        exact or_iff_right hd
    · rw [if_neg hqp, T.mem_names, if_neg (fun h => hqp (List.cons.inj h).2)]

/-- The tree has everything the other one has. -/
def Extends (T' T : FileTree φ) : Prop := ∀ p k, T.kind p = some k → T'.kind p = some k

/-- A new directory takes nothing away. -/
theorem mkdir_extends (hdir : T.kind p = some .dir) (hc : Proper c)
    (hnew : T.kind (c :: p) = none) : (T.mkdir p c hdir hc).Extends T := by
  intro q k hk
  have hne : ¬ q = c :: p := fun heq => by
    rw [heq, hnew] at hk
    exact nomatch hk
  exact (if_neg hne).trans hk

theorem mkdir_dir (hdir : T.kind p = some .dir) (hc : Proper c) :
    (T.mkdir p c hdir hc).kind (c :: p) = some .dir := if_pos rfl

theorem Extends.resolve (h : T'.Extends T) (hres : T.resolve p cs = some q) :
    T'.resolve p cs = some q := by
  induction cs generalizing p with
  | nil => exact hres
  | cons c cs ih =>
      obtain ⟨r, hr, hrest⟩ := Option.bind_eq_some_iff.mp hres
      obtain ⟨hdir, hs⟩ := stepTo_cases hr
      have hdir' : (T'.kind p).any Kind.isDir = true := any_isDir.mpr (h p _ hdir)
      have hstep : T'.stepTo p c = some r := by
        rw [stepTo, if_pos hdir']
        cases hs with
        | stay hc => exact if_pos hc
        | up hc => rw [if_neg (by rw [hc]; decide), if_pos hc]
        | down hc hsome =>
            obtain ⟨k, hk⟩ := Option.isSome_iff_exists.mp hsome
            rw [if_neg (fun h => h.elim hc.1 hc.2.1), if_neg hc.2.2.1, h _ _ hk]
            rfl
      rw [FileTree.resolve, hstep]
      exact ih hrest

/-- **A path that names something names it in the larger tree.** -/
theorem Extends.lookup (h : T'.Extends T)
    (hl : T.lookup p path = some q) : T'.lookup p path = some q := by
  rw [FileTree.lookup] at hl ⊢
  split at hl
  · exact nomatch hl
  · next hne =>
      rw [if_neg hne]
      exact h.resolve hl

end FileTree
