import SpufsTestsuite.NoteProgressProofs

/-! # The bounds of `parse_notes` — what is read outside of the section

    The image is the section and nothing else, so that a run which reads a byte
    outside of it is stuck with a fault.

    A header is read before it is known to fit, and a name is read as a string
    although only `n_namesz` bounds it.  `HeaderInside` says for one header
    what has to hold for its reads to stay in the section; a run stays in it
    exactly if this holds of every header it gets to (`parseNotes_inside`). -/

namespace SpufsNoteBounds

open CString Image EarlyExit GuardedLoop SpufsNoteCheck SpufsNoteSection SpufsNoteWalk
open SpufsNoteProgress

/-! ## What a header asks for -/

/-- The descriptor lies in the section, or is empty. -/
def DescInside (size : Nat) (offset : Int) (namesz descsz : Nat) : Prop :=
  descsz = 0 ∨ (0 ≤ offset + 12 + pad (toInt namesz)
    ∧ offset + 12 + pad (toInt namesz) + descsz ≤ size)

/-- For a name that is `SPU/` and then `s`, up to the end of the section: where
    the name is taken as a string its NUL is in the section; a comparison with
    the name asked for is decided there; and a descriptor that is written lies
    there. -/
def SpuInside (opts : Options) (size : Nat) (offset : Int) (namesz descsz : Nat)
    (s : Bytes) : Prop :=
  match opts.action with
  | .listNotes | .checkNotes | .checkFd => (0 : UInt8) ∈ s
  | .dumpNote =>
      ¬ str "SPU/" ++ s <+: opts.dumpNoteName.bytes
        ∧ (opts.dumpNoteName.bytes ++ [0] <+: str "SPU/" ++ s
          ∨ ¬ s <+: opts.dumpNoteName.bytes)
        ∧ (opts.dumpNoteName.bytes ++ [0] <+: str "SPU/" ++ s
            ∨ opts.dumpNoteName.bytes ++ [0] <+: s →
          DescInside size offset namesz descsz)
  | .findExec => True

/-- What is read for the header at this offset lies in the section: its two
    sizes; if they pass the checks, its type; and if it can be one of an SPU
    note, as much of the name as decides that, and what the action reads. -/
structure HeaderInside (H : Host) (opts : Options) (m : Bytes) (offset : Int) : Prop where
  sizes : offset + 8 ≤ m.length
  note : ∀ namesz descsz, nNamesz H m offset = some namesz →
    nDescsz H m offset = some descsz → Fits H m.length offset namesz descsz →
    offset + 12 ≤ m.length
      ∧ (nType H m offset = some 1 → 5 ≤ namesz →
          ¬ tailFrom m (offset + 12) <+: str "SPU"
            ∧ ∀ s, tailFrom m (offset + 12) = str "SPU/" ++ s →
              SpuInside opts m.length offset namesz descsz s)

section Reads

variable {H : Host} {opts : Options} {m : Bytes} {offset : Int} {namesz descsz : Nat}

/-- A conversion to `size_t` that arrives below 2^31 was exact. -/
theorem sizeT_exact {x : Int} {size : Nat} (hlo : -2 ^ 31 ≤ x) (hhi : x < 2 ^ 32)
    (hsize : size < 2 ^ 31) (h : H.sizeT x ≤ size) : 0 ≤ x ∧ x ≤ size := by
  rw [Host.sizeT] at h
  cases hw : H.wide with
  | true =>
      rw [hw, if_pos rfl] at h
      omega
  | false =>
      rw [hw, if_neg Bool.false_ne_true] at h
      omega

/-- The descriptor `check_hex_note` looks at lies in the section. -/
theorem fits_desc (h0 : 0 ≤ offset) (h12 : offset + 12 ≤ m.length)
    (hlen : m.length < 2 ^ 31) (h : Fits H m.length offset namesz 19) :
    0 ≤ offset + 12 + pad (toInt namesz)
      ∧ offset + 12 + pad (toInt namesz) + 19 ≤ m.length := by
  have hlo := pad_ge (toInt namesz)
  have hhi : pad (toInt namesz) < 2 ^ 31 := by
    have hb := toInt_bounds (toInt namesz + 3)
    rw [pad]
    omega
  have h20 : pad (toInt (19 : Nat)) = 20 := by decide
  obtain ⟨h₁, h₂⟩ := h
  rw [h20] at h₂
  have hx := sizeT_exact (by omega) (by omega) hlen h₁
  have hy := sizeT_exact (by omega) (by omega) hlen h₂
  omega

theorem noteDesc_eq (hname : nNamesz H m offset = some namesz) :
    noteDesc H m offset = some (offset + 12 + pad (toInt namesz)) := by
  rw [noteDesc, hname]
  rfl

theorem dumpDesc_isSome (hname : nNamesz H m offset = some namesz)
    (hdesc : nDescsz H m offset = some descsz) :
    (dumpDesc H m offset).isSome = true ↔ DescInside m.length offset namesz descsz := by
  rw [dumpDesc, noteDesc_eq hname, hdesc]
  simp only [Option.bind_some, Option.isSome_map]
  exact load_isSome

/-- Where the name has a NUL, `check_note` reads the section only. -/
theorem checkNote_isSome (hname : nNamesz H m offset = some namesz)
    (hdesc : nDescsz H m offset = some descsz) (h0 : 0 ≤ offset)
    (h12 : offset + 12 ≤ m.length) (hlen : m.length < 2 ^ 31)
    (hfits : Fits H m.length offset namesz descsz) :
    (checkNote H m offset).isSome = true ↔ (0 : UInt8) ∈ tailFrom m (offset + 12) := by
  constructor
  · intro h
    obtain ⟨v, hv⟩ := Option.isSome_iff_exists.mp h
    obtain ⟨name, hn, -⟩ := Option.bind_eq_some_iff.mp hv
    exact cstr_isSome_iff.mp (Option.isSome_iff_exists.mpr ⟨name, hn⟩)
  · intro h
    obtain ⟨name, hn⟩ := cstr_isSome h
    have hcheck : Checkable H m offset name descsz := by
      refine ⟨hn, hdesc, _, noteDesc_eq hname, ?_⟩
      rintro rfl
      obtain ⟨hlo, hhi⟩ := fits_desc h0 h12 hlen hfits
      exact holds_inside hlo hhi
    obtain ⟨v, hv⟩ := checkNote_total hcheck
    rw [hv]
    rfl

theorem checkFd_isSome {s : Bytes} (fd : Arg)
    (hspu : tailFrom m (offset + 12) = str "SPU/" ++ s) :
    (SpufsNoteCheck.checkFd m offset fd).isSome = true ↔ (0 : UInt8) ∈ s := by
  constructor
  · intro h
    obtain ⟨v, hv⟩ := Option.isSome_iff_exists.mp h
    obtain ⟨name, hn, -⟩ := Option.bind_eq_some_iff.mp hv
    have hmem : (0 : UInt8) ∈ tailFrom m (offset + 12) :=
      cstr_isSome_iff.mp (Option.isSome_iff_exists.mpr ⟨name, hn⟩)
    rw [hspu] at hmem
    exact (List.mem_append.mp hmem).resolve_left (by decide)
  · intro h
    obtain ⟨s', hs'⟩ := cstr_isSome h
    obtain ⟨r, rfl, hno⟩ := cstr_eq_some.mp hs'
    have hn : nameOf m offset = some (str "SPU/" ++ s') := by
      rw [nameOf, noteName, hspu, ← List.append_assoc]
      refine cstr_append_zero r ?_
      rw [List.mem_append]
      exact fun h => h.elim (by decide) hno
    obtain ⟨v, hv, -⟩ := checkFd_name fd hn hno
    rw [hv]
    rfl

/-- **What an action reads of an SPU note.** -/
theorem spuNote_isSome {s : Bytes} (hname : nNamesz H m offset = some namesz)
    (hdesc : nDescsz H m offset = some descsz) (h0 : 0 ≤ offset)
    (h12 : offset + 12 ≤ m.length) (hlen : m.length < 2 ^ 31)
    (hfits : Fits H m.length offset namesz descsz)
    (hspu : tailFrom m (offset + 12) = str "SPU/" ++ s) :
    (spuNote H opts m offset).isSome = true
      ↔ SpuInside opts m.length offset namesz descsz s := by
  have hshort : tailFrom m (noteName offset + 4) = s := by
    have hadd := tailFrom_add (m := m) (show 0 ≤ offset + 12 by omega) 4
    rw [hspu] at hadd
    exact hadd
  have hmem : (0 : UInt8) ∈ tailFrom m (offset + 12) ↔ (0 : UInt8) ∈ s := by
    rw [hspu, List.mem_append]
    exact or_iff_right (by decide)
  rw [spuNote, SpuInside]
  cases hact : opts.action with
  | listNotes =>
      dsimp only
      rw [hdesc, hshort, Option.bind_some, Option.isSome_map]
      exact cstr_isSome_iff
  | checkNotes =>
      dsimp only
      rw [Option.isSome_map, checkNote_isSome hname hdesc h0 h12 hlen hfits, hmem]
  | checkFd =>
      dsimp only
      rw [Option.isSome_map]
      exact checkFd_isSome opts.fd hspu
  | dumpNote =>
      dsimp only
      rw [hshort, show tailFrom m (noteName offset) = str "SPU/" ++ s from hspu,
        ← streq_eq_true, ← streq_eq_true, ← streq_eq_none, ← streq_eq_none,
        ← dumpDesc_isSome hname hdesc]
      cases streq (str "SPU/" ++ s) opts.dumpNoteName.bytes with
      | none => simp
      | some full =>
          cases full with
          | true => simp
          | false =>
              cases streq s opts.dumpNoteName.bytes with
              | none => simp
              | some short => cases short <;> simp
  | findExec =>
      exact ⟨fun _ => trivial, fun _ => rfl⟩

/-- **What is read for a header**, behind the checks. -/
theorem noteBody_isSome {type : Nat} (hname : nNamesz H m offset = some namesz)
    (hdesc : nDescsz H m offset = some descsz) (h0 : 0 ≤ offset)
    (h12 : offset + 12 ≤ m.length) (hlen : m.length < 2 ^ 31)
    (hfits : Fits H m.length offset namesz descsz) :
    (noteBody H opts m offset ⟨namesz, descsz, type⟩).isSome = true
      ↔ (type = 1 → 5 ≤ namesz → ¬ tailFrom m (offset + 12) <+: str "SPU"
          ∧ ∀ s, tailFrom m (offset + 12) = str "SPU/" ++ s →
            SpuInside opts m.length offset namesz descsz s) := by
  rw [noteBody]
  by_cases htype : type = 1
  · rw [if_neg (not_not_intro htype)]
    by_cases hsz : namesz < (str "SPU/").length + 1
    · rw [if_pos hsz]
      have h5 : ¬ 5 ≤ namesz := Nat.not_le.mpr hsz
      simp [h5]
    · rw [if_neg hsz, show tailFrom m (noteName offset) = tailFrom m (offset + 12) from rfl]
      have h5 : 5 ≤ namesz := Nat.not_lt.mp hsz
      have hpre : startsWith (str "SPU/") (tailFrom m (offset + 12)) = none
          ↔ tailFrom m (offset + 12) <+: str "SPU" := by
        rw [startsWith_eq_none, show str "SPU" = (str "SPU/").take 3 from rfl,
          List.prefix_take_iff]
        exact and_congr_right (fun _ => Nat.lt_succ_iff)
      simp only [htype, h5, true_implies, ← hpre]
      cases hspu : startsWith (str "SPU/") (tailFrom m (offset + 12)) with
      | none => simp
      | some spu =>
          cases spu with
          | true =>
              obtain ⟨s, hs⟩ := startsWith_true.mp hspu
              rw [Option.bind_some, if_pos rfl,
                spuNote_isSome hname hdesc h0 h12 hlen hfits hs, hs]
              simp
          | false =>
              have hno : ∀ s, tailFrom m (offset + 12) ≠ str "SPU/" ++ s := by
                intro s hs
                rw [startsWith_true.mpr ⟨s, hs⟩] at hspu
                cases hspu
              simp [hno]
  · rw [if_pos htype]
    simp [htype]

/-- **The reads for one header** stay in the section exactly if it is inside. -/
theorem noteTurn_isSome (h0 : 0 ≤ offset) (hlen : m.length < 2 ^ 31) :
    (noteTurn H opts m 0 m.length offset).isSome = true ↔ HeaderInside H opts m offset := by
  rw [noteTurn]
  dsimp only
  rw [Int.zero_add]
  have hsizes : (nNamesz H m offset).isSome = true ∧ (nDescsz H m offset).isSome = true
      ↔ offset + 8 ≤ m.length := by
    rw [nNamesz, nDescsz, loadNat_isSome (by decide), loadNat_isSome (by decide)]
    omega
  cases hname : nNamesz H m offset with
  | none =>
      rw [hname] at hsizes
      refine ⟨(fun h => by cases h), fun h => ?_⟩
      cases (hsizes.mpr h.sizes).1
  | some namesz =>
      cases hdesc : nDescsz H m offset with
      | none =>
          rw [hname, hdesc] at hsizes
          refine ⟨(fun h => by cases h), fun h => ?_⟩
          cases (hsizes.mpr h.sizes).2
      | some descsz =>
          have h8 : offset + 8 ≤ m.length := hsizes.mp (by rw [hname, hdesc]; exact ⟨rfl, rfl⟩)
          have hinside : HeaderInside H opts m offset ↔
              (Fits H m.length offset namesz descsz → offset + 12 ≤ m.length
                ∧ (nType H m offset = some 1 → 5 ≤ namesz →
                    ¬ tailFrom m (offset + 12) <+: str "SPU"
                      ∧ ∀ s, tailFrom m (offset + 12) = str "SPU/" ++ s →
                        SpuInside opts m.length offset namesz descsz s)) := by
            constructor
            · intro h
              exact h.note namesz descsz hname hdesc
            · intro h
              refine ⟨h8, ?_⟩
              intro a b ha hb
              obtain rfl := Option.some.inj (hname.symm.trans ha)
              obtain rfl := Option.some.inj (hdesc.symm.trans hb)
              exact h
          rw [hinside, Option.bind_some, Option.bind_some]
          by_cases hfits : Fits H m.length offset namesz descsz
          · rw [if_neg (Int.not_lt.mpr hfits.1), if_neg (Int.not_lt.mpr hfits.2)]
            have htypes : (nType H m offset).isSome = true ↔ offset + 12 ≤ m.length := by
              rw [nType, loadNat_isSome (by decide)]
              omega
            cases htype : nType H m offset with
            | none =>
                rw [htype] at htypes
                refine ⟨(fun h => by cases h), fun h => ?_⟩
                cases htypes.mpr (h hfits).1
            | some type =>
                have h12 : offset + 12 ≤ m.length := htypes.mp (by rw [htype]; rfl)
                rw [Option.bind_some, Option.isSome_map,
                  noteBody_isSome hname hdesc h0 h12 hlen hfits]
                simp [hfits, h12]
          · have hmsg : ¬ H.sizeT (offset + 12 + pad (toInt namesz)) > m.length →
                H.sizeT (offset + 12 + pad (toInt namesz) + pad (toInt descsz)) > m.length := by
              intro h₁
              by_contra h₂
              exact hfits ⟨Int.not_lt.mp h₁, Int.not_lt.mp h₂⟩
            refine ⟨fun _ h => absurd h hfits, fun _ => ?_⟩
            split
            · rfl
            · next h₁ =>
                rw [if_pos (hmsg h₁)]
                rfl

theorem sizeT_nonneg (x : Int) : 0 ≤ H.sizeT x := by
  rw [Host.sizeT]
  cases H.wide with
  | true => exact Int.emod_nonneg x (by decide)
  | false => exact Int.emod_nonneg x (by decide)

/-- In a section below 2^31 bytes the checks keep the offset from wrapping. -/
theorem iteration_nonneg {offset' : Int} (hlen : m.length < 2 ^ 31)
    (h : iteration H opts m 0 m.length offset = some (offset', none)) : 0 ≤ offset' := by
  obtain ⟨namesz, descsz, -, -, ⟨-, hfits⟩, ho⟩ := iteration_advance h
  have hlo := toInt_bounds (offset + advance namesz descsz)
  have hnonneg := @sizeT_nonneg H (offset + 12 + pad (toInt namesz) + pad (toInt descsz))
  obtain ⟨k₁, h₁⟩ := toInt_eq_add (offset + advance namesz descsz)
  obtain ⟨k₂, h₂⟩ := @sizeT_eq_add H (offset + 12 + pad (toInt namesz) + pad (toInt descsz))
  obtain ⟨k₃, h₃⟩ := toInt_eq_add (12 + pad (toInt namesz) + pad (toInt descsz))
  rw [← advance] at h₃
  omega

end Reads

/-- **`parse_notes` stays in its section exactly if every header it gets to is
    inside**, for every content of less than 2^31 bytes and every action. -/
theorem parseNotes_inside (H : Host) (opts : Options) {m : Bytes}
    (hlen : m.length < 2 ^ 31) :
    (∀ fuel, (parseNotes H opts fuel m 0 m.length).ret ≠ .error .fault)
      ↔ ∀ offset, Offset H opts m 0 m.length offset → inSection m.length offset = true →
          HeaderInside H opts m offset := by
  have hstuck : (∀ fuel, (parseNotes H opts fuel m 0 m.length).ret ≠ .error .fault)
      ↔ ∀ fuel, loop (inSection m.length) (iteration H opts m 0 m.length) fuel 0
          ≠ .error .fault :=
    forall_congr' (fun fuel => not_congr (@parseNotes_stuck H opts m 0 m.length fuel .fault))
  have hturn : ∀ offset, Offset H opts m 0 m.length offset →
      (iteration H opts m 0 m.length offset ≠ none ↔ HeaderInside H opts m offset) := by
    intro offset ho
    have h0 : 0 ≤ offset := Reached.preserves ho (Int.le_refl 0)
      (fun _ _ _ _ hb => iteration_nonneg hlen hb)
    rw [← noteTurn_isSome h0 hlen, iteration, ← Option.isSome_iff_ne_none,
      Option.isSome_map]
  rw [hstuck, loop_fault_iff]
  exact forall₂_congr (fun offset ho => imp_congr_right (fun _ => hturn offset ho))

theorem parseNotes_inside_sample :
    (∀ fuel, (parseNotes ⟨true, true⟩ ⟨.checkNotes, noArg, noArg⟩ fuel
        (encodeNotes true [sampleNote]) 0 (encodeNotes true [sampleNote]).length).ret
          ≠ .error .fault)
      ↔ ∀ offset, Offset ⟨true, true⟩ ⟨.checkNotes, noArg, noArg⟩
          (encodeNotes true [sampleNote]) 0 (encodeNotes true [sampleNote]).length offset →
          inSection (encodeNotes true [sampleNote]).length offset = true →
          HeaderInside ⟨true, true⟩ ⟨.checkNotes, noArg, noArg⟩
            (encodeNotes true [sampleNote]) offset :=
  parseNotes_inside ⟨true, true⟩ ⟨.checkNotes, noArg, noArg⟩ (by decide)

/-- A section that ends within a header. -/
def shortSection : Bytes := [0, 0, 0, 4]

/-- **A short section**: `n_descsz` is read behind its end. -/
theorem parseNotes_outside :
    (parseNotes ⟨true, true⟩ ⟨.listNotes, noArg, noArg⟩ 1 shortSection 0
      shortSection.length).ret = .error .fault := by
  decide +kernel

end SpufsNoteBounds
