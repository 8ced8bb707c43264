import SpufsTestsuite.CoreFileProofs

/-! # `--print-note` — one note out of a whole core file

    `parse_notes` returns 0 where it has printed the note and -1 where its
    section lacks it; `parse_section` turns the 0 into "more to check" and
    keeps the -1.  So the loop over the segments prints the note of every
    section that has it, up to the first section that lacks it, and fails
    there (`parseElf_dump`).

    That is the first note of the file, once, exactly when the file has one
    section only, or none of its sections has the note
    (`parseElf_printNote`). -/

namespace SpufsPrintNote

open CString Image EarlyExit SpufsNoteCheck SpufsNoteSection SpufsNoteWalk SpufsParseElf
open SpufsCoreFile

/-- The note sections of a core file, in the order of the program headers. -/
def noteSections (segs : List Segment) : List (List Note) :=
  (segs.filter Segment.isNotes).map Segment.notes

/-- What a section has printed. -/
def printed (name : Bytes) (ns : List Note) : List Bytes :=
  ((firstNamed name ns).map Note.desc).toList

/-- The section has no note of this name. -/
def lacks (name : Bytes) (ns : List Note) : Bool := (firstNamed name ns).isNone

section Dump

variable {cls : ElfClass} {L : Layout} {H : Host} {opts : Options} {fuel : Nat}
variable {file : Bytes} {segs : List Segment} {s : Segment}

/-- **A section that lacks the note ends the loop**; one that has it prints it
    and does not. -/
theorem parseSection_dump (hact : opts.action = .dumpNote) {phdr : Nat}
    (h : SegmentAt L H file phdr s) (hfuel : s.notes.length ≤ fuel) :
    let r := parseSection H opts fuel file s.offset (toInt s.filesz) (toInt s.type)
    written r.trace
        = (if s.isNotes then printed opts.dumpNoteName.bytes s.notes else [])
      ∧ r.ret = .ok (if s.isNotes && lacks opts.dumpNoteName.bytes s.notes then -1
          else 1) := by
  intro r
  cases hs : s.isNotes with
  | false =>
      have hload : ¬ (toInt s.type = 1 ∧ opts.action = .findExec) := by
        rw [hact]
        exact fun hc => nomatch hc.2
      have hr : r = ⟨[], .ok 1⟩ := parseSection_other h hs hload
      rw [hr]
      exact ⟨rfl, rfl⟩
  | true =>
      obtain ⟨q, hq, hr⟩ := @parseSection_notes L H opts _ _ _ _ h hs hfuel
      obtain ⟨hw, hret, -⟩ := hq.dump hact
      have hr' : r = ⟨q.trace, q.ret.map (fun rc => if rc ≠ 0 then -1 else 1)⟩ := hr
      rw [hr', hret]
      refine ⟨hw, ?_⟩
      rw [lacks]
      cases firstNamed opts.dumpNoteName.bytes s.notes <;> rfl

/-- One turn of the loop over the program headers. -/
theorem entryTurn_dump (hact : opts.action = .dumpNote) {phoff i : Nat}
    (h : SegmentAt L H file (phoff + i * L.phdrSize) s) (hfuel : s.notes.length ≤ fuel) :
    (entryTurn L H opts fuel file file.length phoff i).out.filterMap Event.stdout?
        = (if s.isNotes then printed opts.dumpNoteName.bytes s.notes else [])
      ∧ (entryTurn L H opts fuel file file.length phoff i).ret
        = if s.isNotes && lacks opts.dumpNoteName.bytes s.notes then some (.ok (-1))
          else none := by
  obtain ⟨hw, hr⟩ := parseSection_dump hact h hfuel
  rw [entryTurn]
  dsimp only
  rw [parseEntry_segment h, Run.after_trace, Run.after_ret, hr, List.filterMap_append,
    show List.filterMap Event.stdout? [.entry (phoff + i * L.phdrSize) L.phdrSize,
      .segment s.offset s.filesz (toInt s.filesz)] = [] from rfl, List.nil_append]
  rw [written] at hw
  refine ⟨hw, ?_⟩
  cases s.isNotes && lacks opts.dumpNoteName.bytes s.notes <;> rfl

/-- The segments of other types print nothing and end nothing. -/
theorem dump_sections (name : Bytes) (segs : List Segment) :
    (upTo (fun s => s.isNotes && lacks name s.notes) segs).flatMap
        (fun s => if s.isNotes then printed name s.notes else [])
      = (upTo (lacks name) (noteSections segs)).flatMap (printed name) := by
  rw [noteSections, flatMap_upTo_map]
  exact flatMap_upTo_filter Segment.isNotes (fun s => lacks name s.notes)
    (fun s => printed name s.notes) segs

/-- **`--print-note` on a core file**: the sections up to the first that lacks
    the note print it, and the value is -1 when there is such a section. -/
theorem parseElf_dump (core : CoreFile cls H file segs) (hact : opts.action = .dumpNote)
    (hfuel : ∀ s ∈ segs, s.notes.length ≤ fuel) :
    let r := parseElf H opts fuel file file.length
    let sections := noteSections segs
    written r.trace = (upTo (lacks opts.dumpNoteName.bytes) sections).flatMap
        (printed opts.dumpNoteName.bytes)
      ∧ r.ret = .ok (if sections.any (lacks opts.dumpNoteName.bytes) then -1 else 0) := by
  intro r sections
  obtain ⟨phoff, hpass, hsegs⟩ := core.table
  have hrange := range_segments segs
  have hturn := fun i hi => entryTurn_dump hact (hsegs i _ (segment_at hi))
    (hfuel _ (segment_mem hi))
  have hret := fun i hi => (hturn i hi).2
  have hout := fun i hi => (hturn i hi).1
  have hr : r = parseEntries cls.layout H opts fuel file file.length phoff segs.length :=
    parseElf_core core hpass
  rw [hr, parseEntries]
  dsimp only
  constructor
  · have hrun := flatMap_upTo_map (fun i => segs.getD i noSegment)
      (fun s => s.isNotes && lacks opts.dumpNoteName.bytes s.notes)
      (fun s => if s.isNotes then printed opts.dumpNoteName.bytes s.notes else [])
      (List.range segs.length)
    rw [hrange] at hrun
    rw [written, walk_out hret hout, ← hrun]
    exact dump_sections opts.dumpNoteName.bytes segs
  · have hany := List.any_map (f := fun i => segs.getD i noSegment) (l := List.range segs.length)
      (p := fun s => s.isNotes && lacks opts.dumpNoteName.bytes s.notes)
    rw [hrange] at hany
    rw [walk_ret hret]
    have hsame : (List.range segs.length).any (fun i => (segs.getD i noSegment).isNotes
        && lacks opts.dumpNoteName.bytes (segs.getD i noSegment).notes)
        = (noteSections segs).any (lacks opts.dumpNoteName.bytes) := by
      rw [noteSections, List.any_map, List.any_filter]
      exact hany.symm
    rw [hsame]
    cases (noteSections segs).any (lacks opts.dumpNoteName.bytes) <;> rfl

end Dump

/-! ## The first note of the file -/

/-- What `--print-note` is there for: the first note of that name among all
    sections is printed, once, and the value says whether there is one. -/
def PrintsFirst (name : Bytes) (sections : List (List Note)) (r : Run) : Prop :=
  match firstNamed name sections.flatten with
  | some n => written r.trace = [n.desc] ∧ r.ret = .ok 0
  | none => written r.trace = [] ∧ r.ret = .ok (-1)

theorem firstNamed_flatten_cons (name : Bytes) (ns : List Note) (rest : List (List Note)) :
    firstNamed name (ns :: rest).flatten
      = (firstNamed name ns).or (firstNamed name rest.flatten) :=
  List.find?_append

theorem firstNamed_flatten_none {name : Bytes} {sections : List (List Note)} :
    firstNamed name sections.flatten = none
      ↔ ∀ ns ∈ sections, firstNamed name ns = none := by
  induction sections with
  | nil => exact ⟨fun _ ns h => (nomatch h), fun _ => rfl⟩
  | cons ns rest ih =>
      rw [firstNamed_flatten_cons, Option.or_eq_none_iff, ih, List.forall_mem_cons]

/-- A section that has the note prints one descriptor. -/
theorem printed_length {name : Bytes} {ns : List Note} (h : lacks name ns = false) :
    (printed name ns).length = 1 := by
  rw [lacks] at h
  rw [printed]
  cases hf : firstNamed name ns with
  | none => rw [hf] at h; exact nomatch h
  | some n => rfl

section Condition

variable {name : Bytes} {ns ns' : List Note} {rest sections : List (List Note)} {r : Run}

/-- Where no section has the note, the first one ends the loop. -/
theorem printsFirst_none (hne : sections ≠ [])
    (hnone : ∀ ns ∈ sections, firstNamed name ns = none)
    (hw : written r.trace = (upTo (lacks name) sections).flatMap (printed name))
    (hr : r.ret = .ok (if sections.any (lacks name) then -1 else 0)) :
    PrintsFirst name sections r := by
  rw [PrintsFirst, firstNamed_flatten_none.mpr hnone]
  cases sections with
  | nil => exact absurd rfl hne
  | cons ns rest =>
      have hns := hnone ns List.mem_cons_self
      have hlacks : lacks name ns = true := by rw [lacks, hns]; rfl
      rw [upTo, if_pos hlacks, List.flatMap_singleton, printed, hns] at hw
      rw [List.any_cons, hlacks, Bool.true_or, if_pos rfl] at hr
      exact ⟨hw, hr⟩

/-- Where there is one section only, it decides. -/
theorem printsFirst_single
    (hw : written r.trace = (upTo (lacks name) [ns]).flatMap (printed name))
    (hr : r.ret = .ok (if [ns].any (lacks name) then -1 else 0)) :
    PrintsFirst name [ns] r := by
  cases hf : firstNamed name ns with
  | none =>
      have hnone : ∀ ns' ∈ [ns], firstNamed name ns' = none := by
        intro ns' h
        rw [List.mem_singleton.mp h]
        exact hf
      exact printsFirst_none (by simp) hnone hw hr
  | some n =>
      have hlacks : lacks name ns = false := by rw [lacks, hf]; rfl
      have hflat : [ns].flatten = ns := List.append_nil ns
      rw [PrintsFirst, hflat, hf]
      rw [upTo, hlacks, if_neg Bool.false_ne_true, upTo, List.flatMap_singleton, printed,
        hf] at hw
      rw [List.any_cons, hlacks] at hr
      exact ⟨hw, hr⟩

/-- Of two sections and more, one that has the note spoils the answer: another
    one that lacks it makes the value -1, and if none does the note of every
    section is printed. -/
theorem printsFirst_many (hsome : ¬ ∀ q ∈ ns :: ns' :: rest, firstNamed name q = none)
    (hw : written r.trace
      = (upTo (lacks name) (ns :: ns' :: rest)).flatMap (printed name))
    (hr : r.ret = .ok (if (ns :: ns' :: rest).any (lacks name) then -1 else 0)) :
    ¬ PrintsFirst name (ns :: ns' :: rest) r := by
  intro h
  rw [PrintsFirst] at h
  cases hf : firstNamed name (ns :: ns' :: rest).flatten with
  | none => exact hsome (firstNamed_flatten_none.mp hf)
  | some n =>
      rw [hf] at h
      obtain ⟨hone, hzero⟩ := h
      cases hany : (ns :: ns' :: rest).any (lacks name) with
      | true =>
          rw [hr, hany] at hzero
          exact absurd (Except.ok.inj hzero) (by decide)
      | false =>
          have hall := List.any_eq_false.mp hany
          have hns : lacks name ns = false := by
            simpa using hall ns List.mem_cons_self
          have hns' : lacks name ns' = false := by
            simpa using hall ns' (List.mem_cons_of_mem _ List.mem_cons_self)
          have hlen := congrArg List.length (hw.symm.trans hone)
          rw [upTo, hns, if_neg Bool.false_ne_true, upTo, hns',
            if_neg Bool.false_ne_true, List.flatMap_cons, List.flatMap_cons,
            List.length_append, List.length_append, printed_length hns,
            printed_length hns', List.length_singleton] at hlen
          omega

/-- **The condition**, for a run that does what the loop does. -/
theorem printsFirst_iff
    (hw : written r.trace = (upTo (lacks name) sections).flatMap (printed name))
    (hr : r.ret = .ok (if sections.any (lacks name) then -1 else 0)) :
    PrintsFirst name sections r
      ↔ sections.length = 1
        ∨ sections ≠ [] ∧ ∀ ns ∈ sections, firstNamed name ns = none := by
  match sections, hw, hr with
  | [], hw, hr =>
      constructor
      · rintro ⟨-, hret⟩
        rw [hr] at hret
        exact absurd (Except.ok.inj hret) (by simp)
      · rintro (h | ⟨h, -⟩)
        · exact nomatch h
        · exact absurd rfl h
  | [ns], hw, hr => exact ⟨fun _ => Or.inl rfl, fun _ => printsFirst_single hw hr⟩
  | ns :: ns' :: rest, hw, hr =>
      constructor
      · intro h
        by_cases hnone : ∀ q ∈ ns :: ns' :: rest, firstNamed name q = none
        · exact Or.inr ⟨List.cons_ne_nil _ _, hnone⟩
        · exact absurd h (printsFirst_many hnone hw hr)
      · rintro (h | ⟨hne, hnone⟩)
        · exact absurd h (by simp)
        · exact printsFirst_none hne hnone hw hr

end Condition

/-- **`--print-note` prints the first note of the file** exactly when there is
    one note section only, or some and none of them has the note. -/
theorem parseElf_printNote {cls : ElfClass} {H : Host} (opts : Options) {fuel : Nat}
    {file : Bytes} {segs : List Segment} (core : CoreFile cls H file segs)
    (hact : opts.action = .dumpNote) (hfuel : ∀ s ∈ segs, s.notes.length ≤ fuel) :
    PrintsFirst opts.dumpNoteName.bytes (noteSections segs)
        (parseElf H opts fuel file file.length)
      ↔ (noteSections segs).length = 1
        ∨ noteSections segs ≠ []
          ∧ ∀ ns ∈ noteSections segs, firstNamed opts.dumpNoteName.bytes ns = none := by
  obtain ⟨hw, hr⟩ := parseElf_dump core hact hfuel
  exact printsFirst_iff hw hr

theorem parseElf_printNote_sample :
    CoreFile .class32 ⟨true, true⟩ mixedFile mixedSegments ∧
      (PrintsFirst (str "3/mem12") (noteSections mixedSegments)
          (parseElf ⟨true, true⟩ sampleOptions 2 mixedFile mixedFile.length)
        ↔ (noteSections mixedSegments).length = 1
          ∨ noteSections mixedSegments ≠ []
            ∧ ∀ ns ∈ noteSections mixedSegments, firstNamed (str "3/mem12") ns = none) :=
  ⟨mixedFile_core, parseElf_printNote sampleOptions mixedFile_core rfl (by decide +kernel)⟩

/-! ## A file with two sections -/

/-- Two note sections, of which the first has the note `3/mem12`. -/
def twoSegments : List Segment := [⟨4, 116, 32, [sampleNote]⟩, ⟨4, 148, 24, [emptyNote]⟩]

/-- The headers of an ELFCLASS32 file with two note sections. -/
def twoHeaders : Bytes :=
  elfmag ++ [1, 2, 1] ++ List.replicate 9 0 ++ [0, 4, 0, 20, 0, 0, 0, 1]
    ++ List.replicate 4 0 ++ [0, 0, 0, 52] ++ List.replicate 10 0 ++ [0, 32, 0, 2]
    ++ List.replicate 6 0
    ++ [0, 0, 0, 4, 0, 0, 0, 116] ++ List.replicate 8 0 ++ [0, 0, 0, 32]
    ++ List.replicate 12 0
    ++ [0, 0, 0, 4, 0, 0, 0, 148] ++ List.replicate 8 0 ++ [0, 0, 0, 24]
    ++ List.replicate 12 0

def twoSectionsFile : Bytes :=
  twoHeaders ++ (encodeNotes true [sampleNote] ++ encodeNotes true [emptyNote])

theorem twoSectionsFile_core :
    CoreFile .class32 ⟨true, true⟩ twoSectionsFile twoSegments where
  length_lt := by decide +kernel
  magic_eq := by decide +kernel
  data_eq := by decide +kernel
  version_eq := by decide +kernel
  class_eq := by decide +kernel
  table := by
    refine ⟨52, ⟨by decide +kernel, by decide +kernel, by decide +kernel,
      by decide +kernel, by decide +kernel, by decide +kernel⟩, ?_⟩
    intro i s hs
    match i with
    | 0 =>
        rw [← Option.some.inj hs]
        exact ⟨by decide +kernel, by decide +kernel, by decide +kernel,
          by decide +kernel, by decide +kernel,
          fun _ => ⟨twoHeaders, encodeNotes true [emptyNote], rfl, by decide +kernel⟩,
          fun _ => by decide +kernel, fun _ => by decide +kernel⟩
    | 1 =>
        rw [← Option.some.inj hs]
        exact ⟨by decide +kernel, by decide +kernel, by decide +kernel,
          by decide +kernel, by decide +kernel,
          fun _ => ⟨twoHeaders ++ encodeNotes true [sampleNote], [],
            by rw [List.append_nil, List.append_assoc]; rfl, by decide +kernel⟩,
          fun _ => by decide +kernel, fun _ => by decide +kernel⟩
    | i + 2 => exact nomatch hs

/-- The note is printed, and then the second section, which lacks it, makes
    the value -1. -/
theorem parseElf_printNote_two :
    (CoreFile .class32 ⟨true, true⟩ twoSectionsFile twoSegments
      ∧ written (parseElf ⟨true, true⟩ sampleOptions 1 twoSectionsFile
          twoSectionsFile.length).trace = [sampleNote.desc]
      ∧ (parseElf ⟨true, true⟩ sampleOptions 1 twoSectionsFile
          twoSectionsFile.length).ret = .ok (-1))
    ∧ ¬ ∀ (cls : ElfClass) (H : Host) (opts : Options) (fuel : Nat) (file : Bytes)
      (segs : List Segment), CoreFile cls H file segs → opts.action = .dumpNote →
      (∀ s ∈ segs, s.notes.length ≤ fuel) →
      PrintsFirst opts.dumpNoteName.bytes (noteSections segs)
        (parseElf H opts fuel file file.length) := by
  have hfails : (parseElf ⟨true, true⟩ sampleOptions 1 twoSectionsFile
      twoSectionsFile.length).ret = .ok (-1) := by decide +kernel
  refine ⟨⟨twoSectionsFile_core, by decide +kernel, hfails⟩, ?_⟩
  intro h
  have hprints := h .class32 ⟨true, true⟩ sampleOptions 1 twoSectionsFile twoSegments
    twoSectionsFile_core rfl (by decide)
  have hzero : (parseElf ⟨true, true⟩ sampleOptions 1 twoSectionsFile
    twoSectionsFile.length).ret = .ok 0 := hprints.2
  exact absurd (Except.ok.inj (hfails.symm.trans hzero)) (by decide)

end SpufsPrintNote
