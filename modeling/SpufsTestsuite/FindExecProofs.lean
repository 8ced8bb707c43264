import SpufsTestsuite.CoreFileProofs

/-! # `--find-exec` — the first LOAD segment of a core file

    `parse_section` compares the first four bytes of a LOAD segment with
    `ELFMAG` and ends the loop there, so the first LOAD header decides
    (`parseElf_exec`).  It does not ask for the size of the segment, and behind
    a table without LOAD headers the loop ends with the 0 of the other actions.

    The answer is the right one when there is a LOAD header, and the first one
    is of four bytes at least or does not point at the magic
    (`parseElf_findExec`). -/

namespace SpufsFindExec

open CString Image EarlyExit SpufsNoteCheck SpufsNoteSection SpufsNoteWalk SpufsParseElf
open SpufsCoreFile

/-- What a LOAD segment at this offset makes of the run. -/
def execValue (file : Bytes) (offset : Nat) : Except Stuck Int :=
  match load file offset 4 with
  | none => .error .fault
  | some bytes => .ok (if bytes = elfmag then 0 else -1)

theorem execValue_zero {file : Bytes} {offset : Nat} :
    execValue file offset = .ok 0 ↔ load file offset 4 = some elfmag := by
  rw [execValue]
  cases load file offset 4 with
  | none => exact ⟨fun h => (nomatch h), fun h => (nomatch h)⟩
  | some bytes =>
      dsimp only
      by_cases hb : bytes = elfmag
      · rw [if_pos hb, hb]
        exact ⟨fun _ => rfl, fun _ => rfl⟩
      · rw [if_neg hb]
        constructor
        · intro h
          exact absurd (Except.ok.inj h) (by decide)
        · intro h
          exact absurd (Option.some.inj h) hb

section Exec

variable {cls : ElfClass} {L : Layout} {H : Host} {opts : Options} {fuel : Nat}
variable {file : Bytes} {segs : List Segment} {s : Segment}

/-- A LOAD segment decides; notes and whatever else is there do not. -/
theorem parseSection_exec (hact : opts.action = .findExec) {phdr : Nat}
    (h : SegmentAt L H file phdr s) (hfuel : s.notes.length ≤ fuel) :
    (parseSection H opts fuel file s.offset (toInt s.filesz) (toInt s.type)).ret
      = if s.isLoad then execValue file s.offset else .ok 1 := by
  have hone : toInt s.type = 1 ↔ s.type = 1 := toInt_type_iff h 1 (by decide)
  by_cases hload : s.type = 1
  · have hs : s.isLoad = true := beq_iff_eq.mpr hload
    rw [parseSection, if_pos ⟨hone.mpr hload, hact⟩, if_pos hs, execValue]
    cases load file s.offset 4 <;> rfl
  · have hs : ¬ s.isLoad = true := fun hs => hload (beq_iff_eq.mp hs)
    rw [if_neg hs]
    cases hnotes : s.isNotes with
    | true =>
        obtain ⟨q, hq, hr⟩ := @parseSection_notes L H opts _ _ _ _ h hnotes hfuel
        rw [hr, hq.exec hact]
        rfl
    | false =>
        rw [parseSection_other h hnotes (fun hc => hload (hone.mp hc.1))]

/-- One turn of the loop over the program headers leaves at a LOAD segment. -/
theorem entryTurn_exec (hact : opts.action = .findExec) {phoff i : Nat}
    (h : SegmentAt L H file (phoff + i * L.phdrSize) s) (hfuel : s.notes.length ≤ fuel) :
    (entryTurn L H opts fuel file file.length phoff i).ret
      = if s.isLoad then some (execValue file s.offset) else none := by
  have hr := parseSection_exec hact h hfuel
  rw [entryTurn]
  dsimp only
  rw [parseEntry_segment h, Run.after_ret, hr]
  cases s.isLoad with
  | false => rfl
  | true =>
      rw [if_pos rfl, if_pos rfl, execValue]
      cases load file s.offset 4 with
      | none => rfl
      | some bytes =>
          dsimp only
          by_cases hb : bytes = elfmag
          · rw [if_pos hb]
            rfl
          · rw [if_neg hb]
            rfl

/-- **`--find-exec` on a core file**: the first LOAD segment decides, and a
    table without one passes. -/
theorem parseElf_exec (core : CoreFile cls H file segs) (hact : opts.action = .findExec)
    (hfuel : ∀ s ∈ segs, s.notes.length ≤ fuel) :
    (parseElf H opts fuel file file.length).ret
      = ((segs.find? Segment.isLoad).map (fun s => execValue file s.offset)).getD
          (.ok 0) := by
  obtain ⟨phoff, hpass, hsegs⟩ := core.table
  have hturn := fun i hi => entryTurn_exec hact (hsegs i _ (segment_at hi))
    (hfuel _ (segment_mem hi))
  have hfind : (segs.find? Segment.isLoad).map (fun s => execValue file s.offset)
      = ((List.range segs.length).find? (fun i => (segs.getD i noSegment).isLoad)).map
          (fun i => execValue file (segs.getD i noSegment).offset) := by
    conv_lhs => rw [← range_segments segs]
    rw [List.find?_map, Option.map_map]
    rfl
  rw [parseElf_core core hpass, parseEntries]
  dsimp only
  rw [walk_find hturn, hfind]

end Exec

/-! ## The executable of the dump -/

/-- What `--find-exec` is there for: the first LOAD segment has the beginning
    of an executable. -/
def FirstLoadIsElf (file : Bytes) (segs : List Segment) : Prop :=
  ∃ s, segs.find? Segment.isLoad = some s ∧ 4 ≤ s.filesz
    ∧ load file s.offset 4 = some elfmag

/-- **`--find-exec` tells whether the first LOAD segment begins an
    executable** exactly when there is a LOAD segment, and the first one has
    the four bytes that are compared or does not lie at them. -/
theorem parseElf_findExec {cls : ElfClass} {H : Host} (opts : Options) {fuel : Nat}
    {file : Bytes} {segs : List Segment} (core : CoreFile cls H file segs)
    (hact : opts.action = .findExec) (hfuel : ∀ s ∈ segs, s.notes.length ≤ fuel) :
    ((parseElf H opts fuel file file.length).ret = .ok 0 ↔ FirstLoadIsElf file segs)
      ↔ ∃ s, segs.find? Segment.isLoad = some s
          ∧ (4 ≤ s.filesz ∨ load file s.offset 4 ≠ some elfmag) := by
  rw [parseElf_exec core hact hfuel]
  cases hfind : segs.find? Segment.isLoad with
  | none =>
      have hnot : ¬ FirstLoadIsElf file segs := by
        rintro ⟨s, hs, -⟩
        rw [hfind] at hs
        exact nomatch hs
      constructor
      · intro h
        exact absurd (h.mp rfl) hnot
      · rintro ⟨s, hs, -⟩
        exact nomatch hs
  | some s =>
      have hfirst : FirstLoadIsElf file segs
          ↔ 4 ≤ s.filesz ∧ load file s.offset 4 = some elfmag := by
        constructor
        · rintro ⟨q, hq, h⟩
          rw [hfind] at hq
          exact Option.some.inj hq ▸ h
        · intro h
          exact ⟨s, hfind, h⟩
      rw [Option.map_some, Option.getD_some, execValue_zero, hfirst]
      constructor
      · intro h
        refine ⟨s, rfl, ?_⟩
        by_cases hmagic : load file s.offset 4 = some elfmag
        · exact Or.inl (h.mp hmagic).1
        · exact Or.inr hmagic
      · rintro ⟨q, hq, h⟩
        rw [← Option.some.inj hq] at h
        exact ⟨fun hmagic => ⟨h.resolve_right (not_not_intro hmagic), hmagic⟩, fun h => h.2⟩

def execOptions : Options where
  action := .findExec
  dumpNoteName := ⟨[], noNul_nil⟩
  fd := ⟨[], noNul_nil⟩

theorem parseElf_findExec_sample :
    CoreFile .class32 ⟨true, true⟩ mixedFile mixedSegments ∧
      (((parseElf ⟨true, true⟩ execOptions 2 mixedFile mixedFile.length).ret = .ok 0
          ↔ FirstLoadIsElf mixedFile mixedSegments)
        ↔ ∃ s, mixedSegments.find? Segment.isLoad = some s
          ∧ (4 ≤ s.filesz ∨ load mixedFile s.offset 4 ≠ some elfmag)) :=
  ⟨mixedFile_core, parseElf_findExec execOptions mixedFile_core rfl (by decide +kernel)⟩

/-! ## A file whose LOAD segment is empty -/

/-- An empty LOAD segment, at the beginning of the file. -/
def emptyLoad : List Segment := [⟨1, 0, 0, []⟩]

/-- An ELFCLASS32 file with this segment only. -/
def emptyLoadFile : Bytes :=
  elfmag ++ [1, 2, 1] ++ List.replicate 9 0 ++ [0, 4, 0, 20, 0, 0, 0, 1]
    ++ List.replicate 4 0 ++ [0, 0, 0, 52] ++ List.replicate 10 0 ++ [0, 32, 0, 1]
    ++ List.replicate 6 0 ++ [0, 0, 0, 1] ++ List.replicate 28 0

theorem emptyLoadFile_core : CoreFile .class32 ⟨true, true⟩ emptyLoadFile emptyLoad where
  length_lt := by decide +kernel
  magic_eq := by decide +kernel
  data_eq := by decide +kernel
  version_eq := by decide +kernel
  class_eq := by decide +kernel
  table := by
    refine ⟨52, ⟨by decide +kernel, by decide +kernel, by decide +kernel,
      by decide +kernel, by decide +kernel, by decide +kernel⟩, ?_⟩
    intro i s hs
    match i with
    | 0 =>
        rw [← Option.some.inj hs]
        exact ⟨by decide +kernel, by decide +kernel, by decide +kernel,
          by decide +kernel, by decide +kernel, fun h => (nomatch h),
          fun h => (nomatch h), fun h => (nomatch h)⟩
    | i + 1 => exact nomatch hs

/-- The segment has no bytes, and the magic of the core file is taken for
    that of an executable. -/
theorem parseElf_findExec_empty :
    (CoreFile .class32 ⟨true, true⟩ emptyLoadFile emptyLoad
      ∧ (parseElf ⟨true, true⟩ execOptions 0 emptyLoadFile emptyLoadFile.length).ret = .ok 0
      ∧ ¬ FirstLoadIsElf emptyLoadFile emptyLoad)
    ∧ ¬ ∀ (cls : ElfClass) (H : Host) (opts : Options) (fuel : Nat) (file : Bytes)
      (segs : List Segment), CoreFile cls H file segs → opts.action = .findExec →
      (∀ s ∈ segs, s.notes.length ≤ fuel) →
      ((parseElf H opts fuel file file.length).ret = .ok 0 ↔ FirstLoadIsElf file segs) := by
  have hzero : (parseElf ⟨true, true⟩ execOptions 0 emptyLoadFile
    emptyLoadFile.length).ret = .ok 0 := by decide +kernel
  have hempty : ¬ FirstLoadIsElf emptyLoadFile emptyLoad := by
    rintro ⟨s, hs, hsize, -⟩
    rw [← Option.some.inj hs] at hsize
    exact absurd hsize (by decide)
  refine ⟨⟨emptyLoadFile_core, hzero, hempty⟩, ?_⟩
  intro h
  have hexec := h .class32 ⟨true, true⟩ execOptions 0 emptyLoadFile emptyLoad
    emptyLoadFile_core rfl (by decide)
  exact hempty (hexec.mp hzero)

end SpufsFindExec
