import SpufsTestsuite.GuardedLoopProofs
import SpufsTestsuite.NoteWalkProofs

/-! # The progress of `parse_notes` — how far a header moves the offset

    The loop of `parse_notes` is a guarded loop over offsets (`noteLoop_loop`).
    A header moves the offset by its own size and the two padded sizes, and
    the sum is one of 32 bits: sizes with the top bit set take the offset back,
    or leave it where it is.

    Every iteration makes progress, and the loop comes to an end, exactly if
    no header on the way does that (`parseNotes_progress`). -/

namespace SpufsNoteProgress

open CString Image EarlyExit GuardedLoop SpufsNoteCheck SpufsNoteWalk

/-! ## The loop over offsets -/

/-- `offset < notes_size`, which compares as unsigned. -/
def inSection (size : Nat) (offset : Int) : Bool := decide (toUnsigned offset < size)

@[simp] theorem inSection_iff {size : Nat} {offset : Int} :
    inSection size offset = true ↔ toUnsigned offset < size := decide_eq_true_iff

@[simp] theorem inSection_eq_false {size : Nat} {offset : Int} :
    inSection size offset = false ↔ ¬ toUnsigned offset < size := decide_eq_false_iff_not

/-- An iteration: the next offset, and the value `parse_notes` returns. -/
def iteration (H : Host) (opts : Options) (m : Bytes) (notes : Int) (size : Nat)
    (offset : Int) : Option (Int × Option Int) :=
  (noteTurn H opts m notes size offset).map (fun p => (p.1, p.2.ret))

/-- The offsets that the loop gets to. -/
abbrev Offset (H : Host) (opts : Options) (m : Bytes) (notes : Int) (size : Nat) :
    Int → Prop :=
  Reached (inSection size) (iteration H opts m notes size) 0

/-- The reason, as one of a run. -/
def stuck : Stop → Stuck
  | .fault => .fault
  | .fuel => .fuel

/-- What `parse_notes` makes of the end of its loop. -/
def afterLoop (opts : Options) : Except Stop (Option Int) → Except Stuck Int
  | .error why => .error (stuck why)
  | .ok (some rc) => .ok rc
  | .ok none => (notesEnd opts).ret

section Loop

variable {H : Host} {opts : Options} {m : Bytes} {notes : Int} {size : Nat}

/-- **The loop of `parse_notes` is the guarded loop over offsets.** -/
theorem noteLoop_loop (fuel : Nat) (offset : Int) :
    (noteLoop H opts m notes size fuel offset).ret
      = afterLoop opts (loop (inSection size) (iteration H opts m notes size) fuel offset) := by
  induction fuel generalizing offset with
  | zero =>
      by_cases h : toUnsigned offset < size
      · rw [noteLoop, if_pos h, loop, if_pos (inSection_iff.mpr h)]
        rfl
      · rw [noteLoop_done h, loop_done (inSection_eq_false.mpr h)]
        rfl
  | succ fuel ih =>
      by_cases h : toUnsigned offset < size
      · rw [loop, if_pos (inSection_iff.mpr h), iteration]
        cases ht : noteTurn H opts m notes size offset with
        | none =>
            rw [noteLoop, if_pos h, ht]
            rfl
        | some p =>
            obtain ⟨offset', t⟩ := p
            rw [noteLoop_turn h ht, Option.map_some]
            cases hret : t.ret with
            | some rc => rfl
            | none => exact ih offset'
      · rw [noteLoop_done h, loop_done (inSection_eq_false.mpr h)]
        rfl

theorem notesEnd_ret_ne (opts : Options) (why : Stuck) :
    (notesEnd opts).ret ≠ .error why := by
  rw [notesEnd]
  split
  · exact fun h => by cases h
  · exact fun h => by cases h

/-- A run is stuck for the reason for which its loop is. -/
theorem parseNotes_stuck {fuel : Nat} {why : Stop} :
    (parseNotes H opts fuel m notes size).ret = .error (stuck why)
      ↔ loop (inSection size) (iteration H opts m notes size) fuel 0 = .error why := by
  rw [parseNotes, noteLoop_loop]
  match loop (inSection size) (iteration H opts m notes size) fuel 0 with
  | .error why' => cases why <;> cases why' <;> simp [afterLoop, stuck]
  | .ok (some rc) => simp [afterLoop]
  | .ok none => simp [afterLoop, notesEnd_ret_ne]

/-! ## How far a header moves the offset -/

/-- A conversion to `int` takes away multiples of 2^32. -/
theorem toInt_eq_add (x : Int) : ∃ k, toInt x = x + 2 ^ 32 * k :=
  ⟨-Int.bdiv x (2 ^ 32), by rw [toInt, Int.bmod_eq_self_sub_mul_bdiv]; omega⟩

/-- So does a conversion to `size_t`. -/
theorem sizeT_eq_add (x : Int) : ∃ k, H.sizeT x = x + 2 ^ 32 * k := by
  rw [Host.sizeT]
  cases H.wide with
  | true => exact ⟨-2 ^ 32 * (x / 2 ^ 64), by rw [if_pos rfl]; omega⟩
  | false => exact ⟨-(x / 2 ^ 32), by rw [if_neg Bool.false_ne_true]; omega⟩

/-- What the header and its padded sizes add to the offset, as an `int`. -/
def advance (namesz descsz : Nat) : Int :=
  toInt (12 + pad (toInt namesz) + pad (toInt descsz))

/-- Behind an iteration that goes on the offset has moved by that much, modulo
    2^32. -/
theorem iteration_advance {offset offset' : Int}
    (h : iteration H opts m notes size offset = some (offset', none)) :
    ∃ namesz descsz, nNamesz H m (notes + offset) = some namesz
      ∧ nDescsz H m (notes + offset) = some descsz
      ∧ Fits H size offset namesz descsz
      ∧ offset' = toInt (offset + advance namesz descsz) := by
  obtain ⟨⟨o, t⟩, ht, heq⟩ := Option.map_eq_some_iff.mp h
  obtain ⟨rfl, hret⟩ := Prod.mk.inj heq
  obtain ⟨namesz, descsz, hname, hdesc, ⟨msg, -, rfl⟩ | ⟨hfits, type, u, -, -, ho, -⟩⟩ :=
    noteTurn_cases ht
  · exact nomatch hret
  · refine ⟨namesz, descsz, hname, hdesc, hfits, ?_⟩
    have hlo := toInt_bounds (offset + advance namesz descsz)
    have hlo' := toInt_bounds (H.sizeT
      (offset + (12 + pad (toInt namesz) + pad (toInt descsz))))
    obtain ⟨k₁, h₁⟩ := toInt_eq_add (H.sizeT
      (offset + (12 + pad (toInt namesz) + pad (toInt descsz))))
    obtain ⟨k₂, h₂⟩ := @sizeT_eq_add H
      (offset + (12 + pad (toInt namesz) + pad (toInt descsz)))
    obtain ⟨k₃, h₃⟩ := toInt_eq_add (offset + advance namesz descsz)
    obtain ⟨k₄, h₄⟩ := toInt_eq_add (12 + pad (toInt namesz) + pad (toInt descsz))
    rw [← advance] at h₄
    rw [ho]
    omega

/-! ## Progress -/

/-- **The loop makes progress**: an iteration that does not return increases
    the offset, and there are at most as many as the section has bytes. -/
structure Progress (H : Host) (opts : Options) (m : Bytes) (notes : Int) (size : Nat) :
    Prop where
  increases : ∀ offset offset', Offset H opts m notes size offset →
    inSection size offset = true →
    iteration H opts m notes size offset = some (offset', none) → offset < offset'
  returns : ∀ fuel, size ≤ fuel →
    (parseNotes H opts fuel m notes size).ret ≠ .error .fuel

/-- The header is taken, and moves the offset forwards: not by a sum of sizes
    that is negative or 0 as an `int`, and not past the largest `int`. -/
def MovesForwards (H : Host) (m : Bytes) (notes offset : Int) : Prop :=
  ∀ namesz descsz, nNamesz H m (notes + offset) = some namesz →
    nDescsz H m (notes + offset) = some descsz →
    0 < advance namesz descsz ∧ offset + advance namesz descsz < 2 ^ 31

/-- A header that moves forwards is left for a larger offset. -/
theorem MovesForwards.lt {offset offset' : Int} (h : MovesForwards H m notes offset)
    (h0 : 0 ≤ offset) (hit : iteration H opts m notes size offset = some (offset', none)) :
    offset < offset' := by
  obtain ⟨namesz, descsz, hname, hdesc, -, ho⟩ := iteration_advance hit
  obtain ⟨hpos, hlt⟩ := h namesz descsz hname hdesc
  obtain ⟨k, hk⟩ := toInt_eq_add (offset + advance namesz descsz)
  have hlo := toInt_bounds (offset + advance namesz descsz)
  omega

/-- A header that is left for a larger offset moves forwards. -/
theorem movesForwards_of_lt {offset offset' : Int} (h0 : 0 ≤ offset)
    (hit : iteration H opts m notes size offset = some (offset', none))
    (hlt : offset < offset') : MovesForwards H m notes offset := by
  intro namesz descsz hname hdesc
  obtain ⟨namesz', descsz', hname', hdesc', -, ho⟩ := iteration_advance hit
  obtain rfl := Option.some.inj (hname.symm.trans hname')
  obtain rfl := Option.some.inj (hdesc.symm.trans hdesc')
  obtain ⟨k, hk⟩ := toInt_eq_add (offset + advance namesz descsz)
  have hlo := toInt_bounds (offset + advance namesz descsz)
  have hlo' : -2 ^ 31 ≤ advance namesz descsz ∧ advance namesz descsz < 2 ^ 31 :=
    toInt_bounds _
  omega

/-- Where iterations increase the offset, it is an `int` that is not negative. -/
theorem Offset.bounds {offset : Int} (h : Offset H opts m notes size offset)
    (hinc : ∀ o o', Offset H opts m notes size o → 0 ≤ o → inSection size o = true →
      iteration H opts m notes size o = some (o', none) → o < o') :
    0 ≤ offset ∧ offset < 2 ^ 31 := by
  induction h with
  | start => exact ⟨Int.le_refl 0, by decide⟩
  | next h hg hb ih =>
      have hlt := hinc _ _ h ih.1 hg hb
      obtain ⟨namesz, descsz, -, -, -, ho⟩ := iteration_advance hb
      refine ⟨by omega, ?_⟩
      rw [ho]
      exact (toInt_bounds _).2

/-- **Progress is made exactly if every header that is passed moves forwards**,
    whatever the section holds. -/
theorem parseNotes_progress (H : Host) (opts : Options) (m : Bytes) (notes : Int)
    (size : Nat) :
    Progress H opts m notes size
      ↔ ∀ offset offset', Offset H opts m notes size offset → inSection size offset = true →
          iteration H opts m notes size offset = some (offset', none) →
          MovesForwards H m notes offset := by
  constructor
  · intro h offset offset' hr hg hit
    obtain ⟨h0, -⟩ := Offset.bounds hr (fun o o' ho _ => h.increases o o' ho)
    exact movesForwards_of_lt h0 hit (h.increases offset offset' hr hg hit)
  · intro h
    have hbounds : ∀ offset, Offset H opts m notes size offset →
        0 ≤ offset ∧ offset < 2 ^ 31 := by
      intro offset hr
      exact Offset.bounds hr (fun o o' ho h0 hg hit => (h o o' ho hg hit).lt h0 hit)
    have hinc : ∀ o o', Offset H opts m notes size o → inSection size o = true →
        iteration H opts m notes size o = some (o', none) → o < o' :=
      fun o o' ho hg hit => (h o o' ho hg hit).lt (hbounds o ho).1 hit
    have hin : ∀ o, Offset H opts m notes size o → inSection size o = true → o < size := by
      intro o ho hg
      have hlt := inSection_iff.mp hg
      have hb := hbounds o ho
      rw [toUnsigned] at hlt
      omega
    refine ⟨hinc, ?_⟩
    intro fuel hfuel hstuck
    have hloop : loop (inSection size) (iteration H opts m notes size) fuel 0
        = .error .fuel := parseNotes_stuck.mp hstuck
    -- the measure is what is left of the section
    refine loop_returns (fun o : Int => ((size : Int) - o).toNat) ?_ ?_ ?_ hloop
    · intro o ho hg
      have hlt := hin o ho hg
      show 0 < ((size : Int) - o).toNat
      omega
    · intro o o' ho hg hit
      have hlt := hinc o o' ho hg hit
      have hlt' := hin o ho hg
      show ((size : Int) - o').toNat < ((size : Int) - o).toNat
      omega
    · show ((size : Int) - 0).toNat ≤ fuel
      omega

end Loop

/-- A section of one header: its name size is -12, which takes the 12 bytes of
    the header back. -/
def stuckSection : Bytes := [255, 255, 255, 244, 0, 0, 0, 0, 0, 0, 0, 0]

/-- Nothing to look for. -/
def noArg : Arg := ⟨[], List.not_mem_nil⟩

/-- **The loop stands still**: it goes on from the header to the header, and
    does not return with any fuel. -/
theorem parseNotes_stands_still :
    iteration ⟨true, true⟩ ⟨.listNotes, noArg, noArg⟩ stuckSection 0 12 0 = some (0, none)
      ∧ ∀ fuel, (parseNotes ⟨true, true⟩ ⟨.listNotes, noArg, noArg⟩ fuel stuckSection 0
          12).ret = .error .fuel := by
  have hit : iteration ⟨true, true⟩ ⟨.listNotes, noArg, noArg⟩ stuckSection 0 12 0
      = some (0, none) := by decide +kernel
  refine ⟨hit, ?_⟩
  intro fuel
  refine parseNotes_stuck.mpr (show loop _ _ fuel 0 = .error .fuel from ?_)
  induction fuel with
  | zero => rfl
  | succ fuel ih => rw [loop_goes (by decide) hit, ih]

end SpufsNoteProgress
