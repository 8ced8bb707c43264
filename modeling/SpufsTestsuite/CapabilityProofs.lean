import SpufsTestsuite.CStringProofs

/-! # Capabilities — the table of probe functions and what it remembers

    `bin/capabilities.c` keeps a table of named probe functions, asks each of
    them when its capability is first looked up, and remembers the answer.

    A name is looked up by comparing it in memory (`capAvailable`); on a string
    this is a lookup by name (`capLookup`).  The table itself only ever moves
    from fresh entries to remembered answers (`Reached.remembers`). -/

namespace SpufsCapability

open CString

/-! ## The probe functions -/

/-- The system calls of the probe functions, on a world of any kind. -/
structure Kernel (W : Type) where
  getuid : W → Nat × W
  /-- Whether `stat` returned 0. -/
  stat : Bytes → W → Bool × W
  /-- `open` for reading. -/
  openRead : Bytes → W → Int × W
  /-- What the local variable holds after a `read` of one byte into it. -/
  readByte : Int → W → UInt8 × W
  close : Int → W → W
  system : Bytes → W → W

section Probes

variable {W : Type}

def capAlways (w : W) : Int × W := (1, w)

def capNever (w : W) : Int × W := (0, w)

variable (K : Kernel W)

def capRoot (w : W) : Int × W :=
  let (uid, w) := K.getuid w
  (if uid = 0 then 1 else 0, w)

def capAffinity (w : W) : Int × W :=
  let (found, w) := K.stat (str "/sys/devices/system/node") w
  (if found then 1 else 0, w)

def capHugepages (w : W) : Int × W :=
  let (fd, w) := K.openRead (str "/proc/sys/vm/nr_hugepages") w
  if fd < 0 then (0, w)
  else
    let (buf, w) := K.readByte fd w
    (if buf ≠ 48 then 1 else 0, K.close fd w)

def capSputrace (w : W) : Int × W :=
  let (root, w) := capRoot K w
  -- we need to be root to access sputrace
  if root = 0 then (0, w)
  else
    let (found, w) := K.stat (str "/proc/sputrace") w
    if found then (1, w)
    else
      -- ok, we may be able to load the sputrace module and retry
      let (found, w) := K.stat (str "/proc/sputrace")
        (K.system (str "/sbin/modprobe sputrace") w)
      (if found then 1 else 0, w)

/-! ## The table -/

/-- `struct capability`. -/
structure Capability (W : Type) where
  name     : Bytes
  fn       : W → Int × W
  internal : Bool
  value    : Int
  valid    : Bool

/-- An entry that has not been asked for yet. -/
def Capability.fresh (name : Bytes) (fn : W → Int × W) (internal : Bool) :
    Capability W :=
  ⟨name, fn, internal, 0, false⟩

/-- `caps`, as the program starts with it. -/
def caps : List (Capability W) :=
  [.fresh (str "always") capAlways true,
   .fresh (str "never") capNever true,
   .fresh (str "root") (capRoot K) false,
   .fresh (str "affinity") (capAffinity K) false,
   .fresh (str "hugepages") (capHugepages K) false,
   .fresh (str "sputrace") (capSputrace K) false]

end Probes

section Lookup

variable {W : Type}

/-- `__cap_available`: the answer, the entry and the world after it. -/
def memoCapAvailable (c : Capability W) (w : W) : Int × Capability W × W :=
  if c.valid then (c.value, c, w)
  else ((c.fn w).1, { c with value := (c.fn w).1, valid := true }, (c.fn w).2)

/-- The table and the world. -/
structure CapState (W : Type) where
  table : List (Capability W)
  world : W

/-- An entry in front of a table. -/
def CapState.cons (c : Capability W) (cs : CapState W) : CapState W :=
  ⟨c :: cs.table, cs.world⟩

/-- `cap_available` on the name at the head of the memory. -/
def capAvailable (name : Bytes) : List (Capability W) → W →
    Option (Int × CapState W)
  | [], w => some (0, ⟨[], w⟩)
  | c :: table, w =>
      match streq name c.name with
      | none => none
      | some true =>
          let (v, c, w) := memoCapAvailable c w
          some (v, ⟨c :: table, w⟩)
      | some false =>
          (capAvailable name table w).map (fun r => (r.1, r.2.cons c))

/-- `print_capabilities`. -/
def printCapabilities : List (Capability W) → W → Bytes × CapState W
  | [], w => ([], ⟨[], w⟩)
  | c :: table, w =>
      if c.internal then
        let (out, cs) := printCapabilities table w
        (out, cs.cons c)
      else
        let (v, c, w) := memoCapAvailable c w
        let (out, cs) := printCapabilities table w
        (c.name ++ List.replicate (20 - c.name.length) 32 ++ str ": "
          ++ (if v ≠ 0 then str "yes" else str "no") ++ str "\n" ++ out, cs.cons c)

/-- The lookup of a name that is a string. -/
def capLookup (name : Bytes) : List (Capability W) → W → Int × CapState W
  | [], w => (0, ⟨[], w⟩)
  | c :: table, w =>
      if name = c.name then
        let (v, c, w) := memoCapAvailable c w
        (v, ⟨c :: table, w⟩)
      else
        let (v, cs) := capLookup name table w
        (v, cs.cons c)

/-- On a string `cap_available` is the lookup of the name. -/
theorem capAvailable_string {name : Bytes} (r : Bytes) {table : List (Capability W)}
    (w : W) (h0 : (0 : UInt8) ∉ name) (ht : ∀ c ∈ table, (0 : UInt8) ∉ c.name) :
    capAvailable (name ++ 0 :: r) table w = some (capLookup name table w) := by
  induction table with
  | nil => rfl
  | cons c table ih =>
      rw [capAvailable, streq_append_zero r h0 (ht c List.mem_cons_self),
        ih (fun d hd => ht d (List.mem_cons_of_mem _ hd)), capLookup]
      by_cases hn : name = c.name
      · rw [if_pos hn, beq_iff_eq.mpr hn]
      · rw [if_neg hn, beq_eq_false_iff_ne.mpr hn]
        rfl

/-- A name that is not in the table is unavailable, and nothing is asked. -/
theorem capLookup_unknown {name : Bytes} {table : List (Capability W)} (w : W)
    (h : name ∉ table.map Capability.name) :
    capLookup name table w = (0, ⟨table, w⟩) := by
  induction table with
  | nil => rfl
  | cons c table ih =>
      rw [List.map_cons] at h
      rw [capLookup, if_neg (List.ne_of_not_mem_cons h),
        ih (List.not_mem_of_not_mem_cons h)]
      rfl

@[simp] theorem memoCapAvailable_name (c : Capability W) (w : W) :
    (memoCapAvailable c w).2.1.name = c.name := by
  rw [memoCapAvailable]
  by_cases hv : c.valid = true
  · rw [if_pos hv]
  · rw [if_neg hv]

/-- A lookup keeps the names of the table. -/
theorem capLookup_names {name : Bytes} {table : List (Capability W)} (w : W) :
    (capLookup name table w).2.table.map Capability.name
      = table.map Capability.name := by
  induction table with
  | nil => rfl
  | cons c table ih =>
      rw [capLookup]
      split
      · show (memoCapAvailable c w).2.1.name :: table.map Capability.name = _
        rw [memoCapAvailable_name, List.map_cons]
      · exact congrArg (c.name :: ·) ih

/-! ## What the table remembers -/

/-- The entry `c` is the entry `c₀` of the initial table, or that entry with an
    answer of its probe function. -/
structure Remembers (c c₀ : Capability W) : Prop where
  name  : c.name = c₀.name
  fn    : c.fn = c₀.fn
  value : c.valid = true → ∃ w, c.value = (c₀.fn w).1

theorem memoCapAvailable_remembers {c c₀ : Capability W} (w : W)
    (h : Remembers c c₀) : Remembers (memoCapAvailable c w).2.1 c₀ := by
  rw [memoCapAvailable]
  by_cases hv : c.valid = true
  · rw [if_pos hv]
    exact h
  · rw [if_neg hv]
    exact ⟨h.name, h.fn, fun _ => ⟨w, by rw [← h.fn]⟩⟩

theorem capLookup_remembers {name : Bytes} {table base : List (Capability W)} (w : W)
    (h : List.Forall₂ Remembers table base) :
    List.Forall₂ Remembers (capLookup name table w).2.table base := by
  induction h with
  | nil => exact List.Forall₂.nil
  | cons hc hcs ih =>
      rw [capLookup]
      split
      · exact List.Forall₂.cons (memoCapAvailable_remembers w hc) hcs
      · exact List.Forall₂.cons hc ih

theorem printCapabilities_remembers {table base : List (Capability W)} (w : W)
    (h : List.Forall₂ Remembers table base) :
    List.Forall₂ Remembers (printCapabilities table w).2.table base := by
  induction h generalizing w with
  | nil => exact List.Forall₂.nil
  | cons hc hcs ih =>
      rw [printCapabilities]
      split
      · exact List.Forall₂.cons hc (ih w)
      · exact List.Forall₂.cons (memoCapAvailable_remembers w hc) (ih _)

/-- The states a run can bring the table into: lookups and listings, and
    whatever else the world does in between. -/
inductive Reached (K : Kernel W) : CapState W → Prop
  | start (w : W) : Reached K ⟨caps K, w⟩
  | lookup {cs : CapState W} (name : Bytes) (h : Reached K cs) :
      Reached K (capLookup name cs.table cs.world).2
  | print {cs : CapState W} (h : Reached K cs) :
      Reached K (printCapabilities cs.table cs.world).2
  | elapse {cs : CapState W} (w : W) (h : Reached K cs) : Reached K ⟨cs.table, w⟩

/-- **A reached table remembers answers and nothing else.** -/
theorem Reached.remembers {K : Kernel W} {cs : CapState W} (h : Reached K cs) :
    List.Forall₂ Remembers cs.table (caps K) := by
  induction h with
  | start w =>
      have hfresh : ∀ {l : List (Capability W)}, (∀ c ∈ l, c.valid = false) →
          List.Forall₂ Remembers l l := by
        intro l hl
        induction l with
        | nil => exact List.Forall₂.nil
        | cons c l ih =>
            refine List.Forall₂.cons ⟨rfl, rfl, ?_⟩
              (ih (fun d hd => hl d (List.mem_cons_of_mem _ hd)))
            intro hv
            rw [hl c List.mem_cons_self] at hv
            exact nomatch hv
      refine hfresh ?_
      intro c hc
      simp only [caps, List.mem_cons, List.not_mem_nil, or_false] at hc
      rcases hc with rfl | rfl | rfl | rfl | rfl | rfl <;> rfl
  | lookup name _ ih => exact capLookup_remembers _ ih
  | print _ ih => exact printCapabilities_remembers _ ih
  | elapse w _ ih => exact ih

/-- The names of the table. -/
def capNames : List Bytes :=
  [str "always", str "never", str "root", str "affinity", str "hugepages",
    str "sputrace"]

theorem Reached.names {K : Kernel W} {cs : CapState W} (h : Reached K cs) :
    cs.table.map Capability.name = capNames := by
  have hmap : ∀ {l l₀ : List (Capability W)}, List.Forall₂ Remembers l l₀ →
      l.map Capability.name = l₀.map Capability.name := by
    intro l l₀ hl
    induction hl with
    | nil => rfl
    | cons hc _ ih => rw [List.map_cons, List.map_cons, ih, hc.name]
  exact hmap h.remembers

theorem Reached.nul_free {K : Kernel W} {cs : CapState W} (h : Reached K cs) :
    ∀ c ∈ cs.table, (0 : UInt8) ∉ c.name := by
  intro c hc
  have hmem : c.name ∈ capNames := h.names ▸ List.mem_map_of_mem hc
  have hall : ∀ n ∈ capNames, (0 : UInt8) ∉ n := by decide
  exact hall _ hmem

/-- `always` is available at every time. -/
theorem Reached.always {K : Kernel W} {cs : CapState W} (h : Reached K cs) :
    (capLookup (str "always") cs.table cs.world).1 = 1 := by
  have hrem := h.remembers
  cases htab : cs.table with
  | nil => rw [htab] at hrem; exact nomatch hrem
  | cons c table =>
      rw [htab, caps, List.forall₂_cons] at hrem
      obtain ⟨hc, -⟩ := hrem
      have hname : str "always" = c.name := hc.name.symm
      rw [capLookup, if_pos hname]
      show (memoCapAvailable c cs.world).1 = 1
      rw [memoCapAvailable]
      by_cases hv : c.valid = true
      · obtain ⟨w, hw⟩ := hc.value hv
        rw [if_pos hv, hw]
        rfl
      · rw [if_neg hv, hc.fn]
        rfl

end Lookup

end SpufsCapability
