import SpufsTestsuite.NoteDescProofs

/-! # The names `check_note` accepts

    A note of a context is named `SPU/`, the number of the context's
    descriptor, a slash, and a file.  `check_note` takes the file from the
    last slash on and the digits from the fourth byte on; where the last slash
    is the one of the prefix, or stands right behind it, there are no digits
    to look at, and the name passes (`checkNote_noteName`). -/

namespace SpufsNoteName

open CString Image SpufsNoteCheck SpufsNoteSection SpufsNoteDesc

/-- The names of the notes of a context. -/
def NoteName (name : Bytes) : Prop :=
  ∃ digits file : Bytes, name = str "SPU/" ++ (digits ++ 47 :: file)
    ∧ digits ≠ [] ∧ (∀ c ∈ digits, isdigit c = true) ∧ (47 : UInt8) ∉ file

/-- The descriptor is valid for the file the name ends in. -/
def ValidFor (name desc : Bytes) : Prop :=
  ∀ dir file : Bytes, name = dir ++ 47 :: file → (47 : UInt8) ∉ file → ValidDesc file desc

/-- A list that has an element is split at its last occurrence. -/
theorem eq_append_last {s : Bytes} (hs : (47 : UInt8) ∈ s) :
    ∃ dir file : Bytes, s = dir ++ 47 :: file ∧ (47 : UInt8) ∉ file := by
  obtain ⟨file, dir, hrev, hfile⟩ :=
    List.eq_append_cons_of_mem (List.mem_reverse.mpr hs)
  refine ⟨dir.reverse, file.reverse, ?_, fun h => hfile (List.mem_reverse.mp h)⟩
  rw [← List.reverse_reverse s, hrev, List.reverse_append, List.reverse_cons,
    List.append_assoc, List.singleton_append]

theorem append_last_inj {dir dir' file file' : Bytes} (hfile : (47 : UInt8) ∉ file)
    (hfile' : (47 : UInt8) ∉ file') (h : dir ++ 47 :: file = dir' ++ 47 :: file') :
    dir = dir' ∧ file = file' := by
  have hs := splitLastSlash_append dir hfile
  rw [h, splitLastSlash_append dir' hfile'] at hs
  have hs := Prod.mk.inj (Option.some.inj hs)
  exact ⟨hs.1.symm, hs.2.symm⟩

/-- The last slash of a name of a context is the one behind the digits. -/
theorem noteName_last {dir file : Bytes} (hfile : (47 : UInt8) ∉ file) :
    NoteName (str "SPU/" ++ (dir ++ 47 :: file))
      ↔ dir ≠ [] ∧ ∀ c ∈ dir, isdigit c = true := by
  constructor
  · rintro ⟨digits, file', heq, hne, hall, hfile'⟩
    obtain ⟨rfl, -⟩ := append_last_inj hfile hfile' (List.append_cancel_left heq)
    exact ⟨hne, hall⟩
  · rintro ⟨hne, hall⟩
    exact ⟨dir, file, rfl, hne, hall, hfile⟩

theorem noteName_mem {s : Bytes} (h : NoteName (str "SPU/" ++ s)) : (47 : UInt8) ∈ s := by
  obtain ⟨digits, file, heq, -⟩ := h
  rw [List.append_cancel_left heq]
  exact List.mem_append_right _ List.mem_cons_self

/-- The last slash stands at the beginning, or another one does, or none. -/
theorem last_first_iff {dir file : Bytes} (hfile : (47 : UInt8) ∉ file) :
    (∀ file' : Bytes, dir ++ 47 :: file = 47 :: file' → (47 : UInt8) ∈ file')
      ↔ dir ≠ [] := by
  cases dir with
  | nil => exact iff_of_false (fun h => hfile (h file rfl)) (fun h => h rfl)
  | cons c dir =>
      refine iff_of_true ?_ (List.cons_ne_nil c dir)
      intro file' heq
      rw [← (List.cons.inj heq).2]
      exact List.mem_append_right _ List.mem_cons_self

section Name

variable {H : Host} {m : Bytes} {nhdr : Int} {s desc : Bytes}

/-- Without a second slash, the file is what stands behind the prefix. -/
theorem checkNote_short (h : Readable H m nhdr (str "SPU/" ++ s) desc)
    (hd : ValidFor (str "SPU/" ++ s) desc) (hs : (47 : UInt8) ∉ s) :
    Passes (checkNote H m nhdr) := by
  have hsplit : splitLastSlash (str "SPU/" ++ s) = some (str "SPU", s) :=
    splitLastSlash_append (str "SPU") hs
  rw [checkNote, h.name_eq, Option.bind_some, hsplit]
  exact checkFile_valid h (hd (str "SPU") s rfl hs)

/-- With a second slash, what stands in front of the last one has to be
    digits. -/
theorem checkNote_long {dir file : Bytes}
    (h : Readable H m nhdr (str "SPU/" ++ (dir ++ 47 :: file)) desc)
    (hd : ValidFor (str "SPU/" ++ (dir ++ 47 :: file)) desc)
    (hfile : (47 : UInt8) ∉ file) :
    Passes (checkNote H m nhdr) ↔ ∀ c ∈ dir, isdigit c = true := by
  have hname : str "SPU/" ++ (dir ++ 47 :: file) = (str "SPU/" ++ dir) ++ 47 :: file := by
    rw [List.append_assoc]
  rw [checkNote_passes h hfile, and_iff_left (checkFile_valid h (hd _ _ hname hfile))]

/-- `check_fd` needs a second slash. -/
theorem checkFd_short (hname : nameOf m nhdr = some (str "SPU/" ++ s))
    (hs : (47 : UInt8) ∉ s) (fd : Arg) : ¬ Passes (checkFd m nhdr fd) := by
  obtain ⟨r, -, h0⟩ := cstr_eq_some.mp hname
  obtain ⟨v, hv, hrc⟩ := checkFd_name fd hname (fun h => h0 (List.mem_append_right _ h))
  intro hp
  rw [hv] at hp
  obtain ⟨rest, rfl, -⟩ := hrc.mp (Option.some.inj hp)
  exact hs (List.mem_append_right _ List.mem_cons_self)

end Name

/-- **`check_note` accepts the names of the notes of a context**, and `check_fd`
    none with a slash too few, exactly when there is a second slash and it is
    not both right behind the first and the last one. -/
theorem checkNote_noteName {H : Host} {m : Bytes} {nhdr : Int} {s desc : Bytes}
    (h : Readable H m nhdr (str "SPU/" ++ s) desc)
    (hd : ValidFor (str "SPU/" ++ s) desc) :
    ((Passes (checkNote H m nhdr) ↔ NoteName (str "SPU/" ++ s))
        ∧ ((47 : UInt8) ∉ s → ∀ fd, ¬ Passes (checkFd m nhdr fd)))
      ↔ (47 : UInt8) ∈ s ∧ ∀ file : Bytes, s = 47 :: file → (47 : UInt8) ∈ file := by
  rw [and_iff_left (checkFd_short h.name_eq)]
  by_cases hs : (47 : UInt8) ∈ s
  · obtain ⟨dir, file, rfl, hfile⟩ := eq_append_last hs
    rw [checkNote_long h hd hfile, noteName_last hfile, and_iff_right hs,
      last_first_iff hfile]
    by_cases hdir : dir = []
    · rw [hdir]
      simp
    · exact iff_of_true (and_iff_right hdir).symm hdir
  · refine iff_of_false ?_ (fun hc => hs hc.1)
    intro hiff
    exact hs (noteName_mem (hiff.mp (checkNote_short h hd hs)))

/-! ## A name without a context -/

/-- A note of the file `signal1`, of no context. -/
def bareNote : Note where
  type := 1
  name := str "SPU/signal1"
  namePad := []
  desc := [1, 2, 3, 4]
  descPad := []
  type_lt := spuType_lt
  noNul := by decide
  namePad_length := rfl
  descPad_length := rfl

/-- The memory that holds the note and nothing else. -/
def bareImage : Bytes := bareNote.encode true

theorem bareNote_readable :
    Readable ⟨true, true⟩ bareImage 0 (str "SPU/" ++ str "signal1") bareNote.desc :=
  readable_note (n := bareNote) ⟨[], [], (List.append_nil _).symm, rfl⟩ (by decide)

theorem bareNote_valid : ValidFor (str "SPU/" ++ str "signal1") bareNote.desc := by
  intro dir file heq hfile
  have hname : str "SPU" ++ 47 :: str "signal1" = dir ++ 47 :: file := heq
  obtain ⟨-, rfl⟩ := append_last_inj (by decide) hfile hname
  exact Or.inl ⟨by decide, rfl⟩

theorem checkNote_noteName_sample :
    Readable ⟨true, true⟩ bareImage 0 (str "SPU/" ++ str "signal1") bareNote.desc
      ∧ ValidFor (str "SPU/" ++ str "signal1") bareNote.desc
      ∧ (((Passes (checkNote ⟨true, true⟩ bareImage 0)
              ↔ NoteName (str "SPU/" ++ str "signal1"))
          ∧ ((47 : UInt8) ∉ str "signal1" → ∀ fd, ¬ Passes (checkFd bareImage 0 fd)))
        ↔ (47 : UInt8) ∈ str "signal1"
          ∧ ∀ file : Bytes, str "signal1" = 47 :: file → (47 : UInt8) ∈ file) :=
  ⟨bareNote_readable, bareNote_valid, checkNote_noteName bareNote_readable bareNote_valid⟩

/-- `SPU/signal1` passes `check_note`. -/
theorem checkNote_noteName_bare :
    (Readable ⟨true, true⟩ bareImage 0 (str "SPU/" ++ str "signal1") bareNote.desc
      ∧ Passes (checkNote ⟨true, true⟩ bareImage 0)
      ∧ ¬ NoteName (str "SPU/" ++ str "signal1"))
    ∧ ¬ ∀ (H : Host) (m : Bytes) (nhdr : Int) (s desc : Bytes),
      Readable H m nhdr (str "SPU/" ++ s) desc → ValidFor (str "SPU/" ++ s) desc →
      ((Passes (checkNote H m nhdr) ↔ NoteName (str "SPU/" ++ s))
        ∧ ((47 : UInt8) ∉ s → ∀ fd, ¬ Passes (checkFd m nhdr fd))) := by
  have hpass : Passes (checkNote ⟨true, true⟩ bareImage 0) := by
    rw [Passes]
    decide +kernel
  have hbare : ¬ NoteName (str "SPU/" ++ str "signal1") := by
    intro hname
    exact absurd (noteName_mem hname) (by decide)
  refine ⟨⟨bareNote_readable, hpass, hbare⟩, ?_⟩
  intro h
  have hname := (h ⟨true, true⟩ bareImage 0 (str "signal1") bareNote.desc
    bareNote_readable bareNote_valid).1
  exact hbare (hname.mp hpass)

end SpufsNoteName
