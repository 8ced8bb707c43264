import SpufsTestsuite.ParseElfProofs

/-! # Core files — the input parse-core is written for

    A core file passes the checks of `parse_elf` and has a program header
    table; each header describes a segment, and the segments of type
    `PT_NOTE` are note sections.  For such a file `parse_elf` is the loop over
    its segments (`parseElf_core`), and every turn of it is `parse_section` on
    the segment (`parseEntry_segment`). -/

namespace SpufsCoreFile

open CString Image EarlyExit SpufsNoteCheck SpufsNoteSection SpufsNoteWalk SpufsParseElf

/-- `EI_CLASS` of a class. -/
def identOf : ElfClass → UInt8
  | .class32 => 1
  | .class64 => 2

/-- A segment as its header describes it; the notes of it, where it is a note
    section. -/
structure Segment where
  type : Nat
  offset : Nat
  filesz : Nat
  notes : List Note

/-- `PT_NOTE`. -/
def Segment.isNotes (s : Segment) : Bool := s.type == 4

/-- `PT_LOAD`. -/
def Segment.isLoad (s : Segment) : Bool := s.type == 1

/-- What stands for a segment behind the end of the table. -/
def noSegment : Segment := ⟨0, 0, 0, []⟩

/-- The program header at this place describes the segment and passes the
    checks of its entry. -/
structure SegmentAt (L : Layout) (H : Host) (file : Bytes) (phdr : Nat) (s : Segment) :
    Prop where
  offset_eq : loadNat H.big file (phdr + L.pOffset) L.width = some s.offset
  filesz_eq : loadNat H.big file (phdr + L.pFilesz) L.width = some s.filesz
  type_eq : loadNat H.big file phdr 4 = some s.type
  offset_le : s.offset ≤ file.length
  sum_le : L.add s.offset s.filesz ≤ file.length
  notes_at : s.isNotes = true → Holds file s.offset (encodeNotes H.big s.notes)
  notes_length : s.isNotes = true → s.filesz = (encodeNotes H.big s.notes).length
  notes_lt : s.isNotes = true → s.filesz < 2 ^ 31

/-- The file passes the checks of `parse_elf`, and these are its segments. -/
structure CoreFile (cls : ElfClass) (H : Host) (file : Bytes) (segs : List Segment) :
    Prop where
  length_lt : file.length < 2 ^ 32
  magic_eq : load file 0 4 = some elfmag
  data_eq : loadByte file 5 = some 2
  version_eq : loadByte file 6 = some 1
  class_eq : loadByte file 4 = some (identOf cls)
  table : ∃ phoff, PassesHeader cls.layout H file phoff segs.length
    ∧ ∀ i s, segs[i]? = some s →
        SegmentAt cls.layout H file (phoff + i * cls.layout.phdrSize) s

/-! ## The headers by their index -/

section Table

variable {segs : List Segment}

/-- The indices of the table lead through its segments in order. -/
theorem range_segments (segs : List Segment) :
    (List.range segs.length).map (fun i => segs.getD i noSegment) = segs := by
  refine List.ext_getElem (by simp) ?_
  intro i hi hj
  simp [List.getD_eq_getElem?_getD, hj]

theorem segment_at {i : Nat} (hi : i ∈ List.range segs.length) :
    segs[i]? = some (segs.getD i noSegment) := by
  rw [List.getD_eq_getElem?_getD, List.getElem?_eq_getElem (List.mem_range.mp hi)]
  rfl

theorem segment_mem {i : Nat} (hi : i ∈ List.range segs.length) :
    segs.getD i noSegment ∈ segs :=
  List.mem_of_getElem? (segment_at hi)

end Table

/-! ## The loop over the segments -/

section Parse

variable {cls : ElfClass} {L : Layout} {H : Host} {opts : Options} {fuel : Nat}
variable {file : Bytes} {segs : List Segment} {s : Segment}

/-- The identification decides which of the two parsers is called. -/
theorem parseElf_ident (hmagic : load file 0 4 = some elfmag)
    (hdata : loadByte file 5 = some 2) (hversion : loadByte file 6 = some 1)
    (hclass : loadByte file 4 = some (identOf cls)) (mapSize : Nat) :
    parseElf H opts fuel file mapSize = parseElfAs cls H opts fuel file mapSize := by
  rw [parseElf, hmagic, need, if_neg (not_not_intro rfl), hdata, need,
    if_neg (not_not_intro rfl), hversion, need, if_neg (not_not_intro rfl), hclass, need]
  cases cls with
  | class32 => exact if_pos rfl
  | class64 => exact (if_neg (by decide)).trans (if_pos rfl)

/-- **`parse_elf` on a core file is the loop over its segments.** -/
theorem parseElf_core (core : CoreFile cls H file segs) {phoff : Nat}
    (h : PassesHeader cls.layout H file phoff segs.length) :
    parseElf H opts fuel file file.length
      = parseEntries cls.layout H opts fuel file file.length phoff segs.length := by
  rw [parseElf_ident core.magic_eq core.data_eq core.version_eq core.class_eq,
    parseElfAs_eq, h.parse]

/-- A turn of the loop hands the segment out. -/
theorem parseEntry_segment {phoff i : Nat}
    (h : SegmentAt L H file (phoff + i * L.phdrSize) s) :
    parseEntry L H opts fuel file file.length phoff i
      = .after [.entry (phoff + i * L.phdrSize) L.phdrSize,
          .segment s.offset s.filesz (toInt s.filesz)]
        (parseSection H opts fuel file s.offset (toInt s.filesz) (toInt s.type)) := by
  rw [parseEntry, h.offset_eq, need, if_neg (Nat.not_lt.mpr h.offset_le), h.filesz_eq,
    need, if_neg (Nat.not_lt.mpr h.sum_le), h.type_eq, need, Run.after_after,
    List.singleton_append]

/-- The type arrives in `parse_section` as it is. -/
theorem toInt_type_iff {phdr : Nat} (h : SegmentAt L H file phdr s) (k : Nat)
    (hk : k < 2 ^ 31) : toInt s.type = k ↔ s.type = k := by
  have hlt := loadNat_lt (by decide) h.type_eq
  constructor
  · intro heq
    have hu := toUnsigned_toInt (n := s.type) (by omega)
    rw [heq, toUnsigned_eq (by omega) (by omega)] at hu
    omega
  · intro heq
    rw [heq]
    exact toInt_eq (by omega) (by omega)

/-- A segment of notes is walked as the section it is. -/
theorem parseSection_notes {phdr : Nat} (h : SegmentAt L H file phdr s)
    (hs : s.isNotes = true) (hfuel : s.notes.length ≤ fuel) :
    ∃ r, Walked H opts file (place s.offset s.notes) r
      ∧ parseSection H opts fuel file s.offset (toInt s.filesz) (toInt s.type)
        = ⟨r.trace, r.ret.map (fun rc => if rc ≠ 0 then -1 else 1)⟩ := by
  have htype : toInt s.type = 4 := (toInt_type_iff h 4 (by decide)).mpr (beq_iff_eq.mp hs)
  have hlen := h.notes_length hs
  have hlt := h.notes_lt hs
  have hsize : (toUnsigned (toInt s.filesz)).toNat = (encodeNotes H.big s.notes).length := by
    rw [toUnsigned_toInt (by omega), Int.toNat_natCast, hlen]
  refine ⟨_, parseNotes_walked (h.notes_at hs) (by omega) hfuel, ?_⟩
  rw [parseSection, htype, hsize, if_neg (by simp), if_pos rfl]

/-- A segment that is neither compared with the magic nor walked goes by. -/
theorem parseSection_other {phdr : Nat} (h : SegmentAt L H file phdr s)
    (hs : s.isNotes = false) (hload : ¬ (toInt s.type = 1 ∧ opts.action = .findExec)) :
    parseSection H opts fuel file s.offset (toInt s.filesz) (toInt s.type) = ⟨[], .ok 1⟩ := by
  have htype : ¬ toInt s.type = 4 := by
    intro heq
    have h4 : s.type = 4 := (toInt_type_iff h 4 (by decide)).mp heq
    rw [Segment.isNotes, h4] at hs
    exact nomatch hs
  rw [parseSection, if_neg hload, if_neg htype]

end Parse

/-! ## A file with segments of different kinds -/

/-- Notes of the process and of a context, an executable, the table itself, and
    notes once more. -/
def mixedSegments : List Segment :=
  [⟨4, 180, 56, [coreNote, sampleNote]⟩, ⟨1, 236, 8, []⟩, ⟨6, 52, 128, []⟩,
    ⟨4, 244, 24, [emptyNote]⟩]

/-- An entry of the table of an ELFCLASS32 file. -/
def entry32 (type offset filesz : UInt8) : Bytes :=
  [0, 0, 0, type, 0, 0, 0, offset] ++ List.replicate 8 0 ++ [0, 0, 0, filesz]
    ++ List.replicate 12 0

def mixedHeaders : Bytes :=
  elfmag ++ [1, 2, 1] ++ List.replicate 9 0 ++ [0, 4, 0, 20, 0, 0, 0, 1]
    ++ List.replicate 4 0 ++ [0, 0, 0, 52] ++ List.replicate 10 0 ++ [0, 32, 0, 4]
    ++ List.replicate 6 0
    ++ entry32 4 180 56 ++ entry32 1 236 8 ++ entry32 6 52 128 ++ entry32 4 244 24

def mixedFile : Bytes :=
  mixedHeaders ++ (encodeNotes true [coreNote, sampleNote]
    ++ (elfmag ++ [1, 2, 1, 0] ++ encodeNotes true [emptyNote]))

theorem mixedFile_core : CoreFile .class32 ⟨true, true⟩ mixedFile mixedSegments where
  length_lt := by decide +kernel
  magic_eq := by decide +kernel
  data_eq := by decide +kernel
  version_eq := by decide +kernel
  class_eq := by decide +kernel
  table := by
    refine ⟨52, ⟨by decide +kernel, by decide +kernel, by decide +kernel,
      by decide +kernel, by decide +kernel, by decide +kernel⟩, ?_⟩
    intro i s hs
    match i with
    | 0 =>
        rw [← Option.some.inj hs]
        exact ⟨by decide +kernel, by decide +kernel, by decide +kernel,
          by decide +kernel, by decide +kernel,
          fun _ => ⟨mixedHeaders, elfmag ++ [1, 2, 1, 0] ++ encodeNotes true [emptyNote],
            rfl, by decide +kernel⟩,
          fun _ => by decide +kernel, fun _ => by decide +kernel⟩
    | 1 =>
        rw [← Option.some.inj hs]
        exact ⟨by decide +kernel, by decide +kernel, by decide +kernel,
          by decide +kernel, by decide +kernel, fun h => (nomatch h),
          fun h => (nomatch h), fun h => (nomatch h)⟩
    | 2 =>
        rw [← Option.some.inj hs]
        exact ⟨by decide +kernel, by decide +kernel, by decide +kernel,
          by decide +kernel, by decide +kernel, fun h => (nomatch h),
          fun h => (nomatch h), fun h => (nomatch h)⟩
    | 3 =>
        rw [← Option.some.inj hs]
        exact ⟨by decide +kernel, by decide +kernel, by decide +kernel,
          by decide +kernel, by decide +kernel,
          fun _ => ⟨mixedHeaders ++ encodeNotes true [coreNote, sampleNote] ++ elfmag
            ++ [1, 2, 1, 0], [], by
              rw [List.append_nil, mixedFile]
              simp only [List.append_assoc], by decide +kernel⟩,
          fun _ => by decide +kernel, fun _ => by decide +kernel⟩
    | i + 4 => exact nomatch hs

end SpufsCoreFile
