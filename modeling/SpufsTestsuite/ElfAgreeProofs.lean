import SpufsTestsuite.CoreFileProofs

/-! # `parse_elf_32` and `parse_elf_64` — two loops, one answer

    The two parsers read their headers at different places and with different
    widths; all the rest of what they look at are segments.  Where two files
    have the same bytes from some place on, and the tables describe the same
    segments behind it, the loops go in lock step (`parseElf_classes`).

    The proof goes through the layers of the program from the inside: a note
    is the same note in both files (`NoteAgrees`), so is a section, so is a
    turn of the loop.  The one point that is not obvious is that the walk does
    not come back in front of its section, where the files may differ: its
    bound checks wrap, and `noteTurn_agree` says where an address that has
    wrapped lies. -/

namespace SpufsElfAgree

open CString Image EarlyExit SpufsNoteCheck SpufsNoteSection SpufsNoteWalk SpufsParseElf
open SpufsCoreFile

/-! ## The same note in both files -/

/-- What a note's functions look at lies where the files agree. -/
structure NoteAgrees (H : Host) (lim : Nat) (m m' : Bytes) (nhdr : Int) : Prop where
  agree : AgreeFrom lim m m'
  nhdr_ge : lim ≤ nhdr
  desc_at : ∀ a, noteDesc H m nhdr = some a → lim ≤ a ∨ a < 0

section Note

variable {H : Host} {opts : Options} {lim : Nat} {m m' : Bytes} {nhdr : Int}

theorem nNamesz_agree (h : AgreeFrom lim m m') (hn : lim ≤ nhdr ∨ nhdr < 0) :
    nNamesz H m nhdr = nNamesz H m' nhdr :=
  h.loadNat hn _ _

theorem nDescsz_agree (h : AgreeFrom lim m m') (hn : lim ≤ nhdr) :
    nDescsz H m nhdr = nDescsz H m' nhdr :=
  h.loadNat (Or.inl (by omega)) _ _

theorem nType_agree (h : AgreeFrom lim m m') (hn : lim ≤ nhdr) :
    nType H m nhdr = nType H m' nhdr :=
  h.loadNat (Or.inl (by omega)) _ _

theorem noteDesc_agree (h : AgreeFrom lim m m') (hn : lim ≤ nhdr) :
    noteDesc H m nhdr = noteDesc H m' nhdr := by
  rw [noteDesc, noteDesc, nNamesz_agree h (Or.inl hn)]

theorem nameOf_agree (h : AgreeFrom lim m m') (hn : lim ≤ nhdr) :
    nameOf m nhdr = nameOf m' nhdr := by
  rw [nameOf, nameOf, h.tailFrom (Or.inl (show lim ≤ noteName nhdr by
    rw [noteName]; omega))]

theorem complain_agree (h : AgreeFrom lim m m') (hn : lim ≤ nhdr) (msg : Bytes → Bytes) :
    complain m nhdr msg = complain m' nhdr msg := by
  rw [complain, complain, nameOf_agree h hn]

theorem hexDigits_agree (h : AgreeFrom lim m m') (hn : lim ≤ nhdr) {desc : Int}
    (hd : lim ≤ desc) (is : List Nat) :
    hexDigits m nhdr desc is = hexDigits m' nhdr desc is := by
  induction is with
  | nil => rfl
  | cons i is ih =>
      rw [hexDigits, hexDigits, h.loadByte (Or.inl (by omega)), ih]
      refine Option.bind_congr ?_
      intro c _
      rw [complain_agree h hn]

theorem checkHexNote_agree (h : NoteAgrees H lim m m' nhdr) :
    checkHexNote H m nhdr = checkHexNote H m' nhdr := by
  rw [checkHexNote, checkHexNote, ← noteDesc_agree h.agree h.nhdr_ge]
  refine Option.bind_congr ?_
  intro desc hdesc
  rw [nDescsz_agree h.agree h.nhdr_ge]
  refine Option.bind_congr ?_
  intro descsz _
  simp only [complain_agree h.agree h.nhdr_ge]
  rcases h.desc_at desc hdesc with hd | hd
  · rw [h.agree.loadByte (Or.inl hd), h.agree.loadByte (Or.inl (by omega)),
      hexDigits_agree h.agree h.nhdr_ge hd]
  · -- a descriptor in front of both files is not read in either
    have hnone : ∀ b : Bytes, loadByte b desc = none := fun b => if_neg (by omega)
    rw [hnone m, hnone m']
    rfl

theorem checkFile_agree (h : NoteAgrees H lim m m' nhdr) (fileName : Bytes)
    {checks : List SpuNoteCheck}
    (hfn : ∀ check ∈ checks, check.fn = none ∨ check.fn = some checkHexNote) :
    checkFile H m nhdr fileName checks = checkFile H m' nhdr fileName checks := by
  induction checks with
  | nil => rfl
  | cons check checks ih =>
      rw [checkFile, checkFile, ih (fun c hc => hfn c (List.mem_cons_of_mem _ hc)),
        nDescsz_agree h.agree h.nhdr_ge]
      simp only [complain_agree h.agree h.nhdr_ge]
      rcases hfn check List.mem_cons_self with hnone | hhex
      · rw [hnone]
      · rw [hhex]
        simp only [checkHexNote_agree h]

theorem checkNote_agree (h : NoteAgrees H lim m m' nhdr) :
    checkNote H m nhdr = checkNote H m' nhdr := by
  rw [checkNote, checkNote, nameOf_agree h.agree h.nhdr_ge]
  refine Option.bind_congr ?_
  intro name _
  cases splitLastSlash name with
  | none => rfl
  | some s =>
      obtain ⟨dir, fileName⟩ := s
      simp only [checkFile_agree h fileName noteChecks_fn]

theorem checkFd_agree (h : AgreeFrom lim m m') (hn : lim ≤ nhdr) (fd : Arg) :
    checkFd m nhdr fd = checkFd m' nhdr fd := by
  rw [checkFd, checkFd, nameOf_agree h hn]

theorem dumpDesc_agree (h : NoteAgrees H lim m m' nhdr) :
    dumpDesc H m nhdr = dumpDesc H m' nhdr := by
  rw [dumpDesc, dumpDesc, ← noteDesc_agree h.agree h.nhdr_ge]
  refine Option.bind_congr ?_
  intro desc hdesc
  rw [nDescsz_agree h.agree h.nhdr_ge]
  refine Option.bind_congr ?_
  intro descsz _
  rw [h.agree.load (h.desc_at desc hdesc)]

/-- **An SPU note means the same in both files.** -/
theorem spuNote_agree (h : NoteAgrees H lim m m' nhdr) :
    spuNote H opts m nhdr = spuNote H opts m' nhdr := by
  have hge := h.nhdr_ge
  have hname : tailFrom m (noteName nhdr) = tailFrom m' (noteName nhdr) :=
    h.agree.tailFrom (Or.inl (by rw [noteName]; omega))
  have hshort : tailFrom m (noteName nhdr + 4) = tailFrom m' (noteName nhdr + 4) :=
    h.agree.tailFrom (Or.inl (by rw [noteName]; omega))
  rw [spuNote, spuNote]
  cases opts.action with
  | listNotes => simp only [nDescsz_agree h.agree hge, hshort]
  | checkNotes => simp only [checkNote_agree h]
  | checkFd => simp only [checkFd_agree h.agree hge]
  | dumpNote => simp only [hname, hshort, dumpDesc_agree h]
  | findExec => rfl

theorem noteBody_agree (h : NoteAgrees H lim m m' nhdr) (hdr : Nhdr) :
    noteBody H opts m nhdr hdr = noteBody H opts m' nhdr hdr := by
  have hge := h.nhdr_ge
  rw [noteBody, noteBody, h.agree.tailFrom (Or.inl (show lim ≤ noteName nhdr by
    rw [noteName]; omega)), spuNote_agree h]

end Note

/-! ## The same walk -/

section Walk

variable {H : Host} {opts : Options} {lim : Nat} {m m' : Bytes} {notes size : Nat}
variable {offset : Int}

/-- **A turn is the same in both files.**  An offset that has left the section
    lies in front of the file, and so does a descriptor that has. -/
theorem noteTurn_agree (h : AgreeFrom lim m m') (hnotes : lim ≤ notes)
    (hsize : notes + size < 2 ^ 32) (hoff : -2 ^ 31 ≤ offset ∧ offset < 2 ^ 31)
    (hlt : toUnsigned offset < size) :
    noteTurn H opts m notes size offset = noteTurn H opts m' notes size offset := by
  rw [toUnsigned] at hlt
  have hnhdr : (lim : Int) ≤ notes + offset ∨ (notes : Int) + offset < 0 := by
    by_cases hneg : 0 ≤ offset
    · exact Or.inl (by omega)
    · exact Or.inr (by omega)
  rw [noteTurn, noteTurn]
  dsimp only
  rw [← nNamesz_agree h hnhdr]
  refine Option.bind_congr ?_
  intro namesz hnamesz
  have hge : (lim : Int) ≤ notes + offset := by
    obtain ⟨bs, hbs, -⟩ := Option.map_eq_some_iff.mp hnamesz
    have h0 := (load_eq_some (by decide) hbs).1
    exact hnhdr.resolve_right (by omega)
  rw [nDescsz_agree h hge]
  refine Option.bind_congr ?_
  intro descsz _
  split
  · rfl
  · next hname =>
      split
      · rfl
      · rw [nType_agree h hge]
        refine Option.bind_congr ?_
        intro type _
        have hpad := pad_ge (toInt namesz)
        have hdesc := sizeT_le (by omega) (by omega) (Int.not_lt.mp hname)
        refine congrArg _ (noteBody_agree ⟨h, hge, ?_⟩ _)
        intro a ha
        rw [noteDesc, hnamesz] at ha
        obtain rfl := Option.some.inj ha
        dsimp only
        omega

/-- The offset behind a turn is an `int`. -/
theorem noteTurn_offset {notes offset offset' : Int} {t : Turn Event Int}
    (h : noteTurn H opts m notes size offset = some (offset', t))
    (hoff : -2 ^ 31 ≤ offset ∧ offset < 2 ^ 31) : -2 ^ 31 ≤ offset' ∧ offset' < 2 ^ 31 := by
  obtain ⟨namesz, descsz, -, -, ⟨msg, rfl, -⟩ | ⟨-, type, u, -, -, rfl, -⟩⟩ :=
    noteTurn_cases h
  · exact hoff
  · exact toInt_bounds _

theorem noteLoop_agree (h : AgreeFrom lim m m') (hnotes : lim ≤ notes)
    (hsize : notes + size < 2 ^ 32) (hoff : -2 ^ 31 ≤ offset ∧ offset < 2 ^ 31)
    (fuel : Nat) :
    noteLoop H opts m notes size fuel offset
      = noteLoop H opts m' notes size fuel offset := by
  induction fuel generalizing offset with
  | zero => rw [noteLoop, noteLoop]
  | succ fuel ih =>
      by_cases hlt : toUnsigned offset < size
      · rw [noteLoop, noteLoop, if_pos hlt, if_pos hlt,
          ← noteTurn_agree h hnotes hsize hoff hlt]
        cases ht : noteTurn H opts m notes size offset with
        | none => rfl
        | some p =>
            obtain ⟨offset', t⟩ := p
            dsimp only
            rw [ih (noteTurn_offset ht hoff)]
      · rw [noteLoop_done hlt, noteLoop_done hlt]

end Walk

/-! ## The same segments -/

/-- A program header, without the rest of what its class keeps in it. -/
structure Phdr where
  type : Nat
  offset : Nat
  filesz : Nat

/-- The program header at this place is `p`. -/
structure PhdrAt (L : Layout) (H : Host) (file : Bytes) (phdr : Nat) (p : Phdr) :
    Prop where
  offset_eq : loadNat H.big file (phdr + L.pOffset) L.width = some p.offset
  filesz_eq : loadNat H.big file (phdr + L.pFilesz) L.width = some p.filesz
  type_eq : loadNat H.big file phdr 4 = some p.type

/-- The file passes the header checks of its class, and its program headers
    are these, in a table that ends at `lim` or before it. -/
structure HasTable (cls : ElfClass) (H : Host) (file : Bytes) (phdrs : List Phdr)
    (lim : Nat) : Prop where
  length_lt : file.length < 2 ^ 32
  lim_le : lim ≤ file.length
  magic_eq : load file 0 4 = some elfmag
  data_eq : loadByte file 5 = some 2
  version_eq : loadByte file 6 = some 1
  class_eq : loadByte file 4 = some (identOf cls)
  table : ∃ phoff, PassesHeader cls.layout H file phoff phdrs.length
    ∧ phoff + cls.layout.phdrSize * phdrs.length ≤ lim
    ∧ ∀ i p, phdrs[i]? = some p →
        PhdrAt cls.layout H file (phoff + i * cls.layout.phdrSize) p

/-- What a program header leads to: nothing of it depends on the class. -/
def segmentRun (H : Host) (opts : Options) (fuel : Nat) (file : Bytes) (i : Nat)
    (p : Phdr) : Run :=
  if p.offset > file.length then
    fail (str "Program header entry " ++ dec i ++ str " starts at 0x" ++ hex 16 p.offset
      ++ str ", which is past end-of-file\n")
  else if p.offset + p.filesz > file.length then
    fail (str "Program header entry " ++ dec i ++ str " ends at 0x" ++ hex 16 p.offset
      ++ str ", which is past end-of-file\n")
  else
    .after [.segment p.offset p.filesz (toInt p.filesz)]
      (parseSection H opts fuel file p.offset (toInt p.filesz) (toInt p.type))

/-- The event, without the place of the program header. -/
def Event.unplaced : Event → Event
  | .entry _ _ => .entry 0 0
  | e => e

/-- The runs return the same and do the same, but for the places at which they
    read their program headers. -/
structure SameRun (r r' : Run) : Prop where
  trace : r.trace.map Event.unplaced = r'.trace.map Event.unplaced
  ret : r.ret = r'.ret

/-- Such runs print the same. -/
theorem SameRun.written {r r' : Run} (h : SameRun r r') :
    written r.trace = written r'.trace := by
  have hmap : ∀ l : List Event,
      SpufsNoteWalk.written l = (l.map Event.unplaced).filterMap Event.stdout? := by
    intro l
    rw [SpufsNoteWalk.written, List.filterMap_map]
    refine List.filterMap_congr ?_
    intro e _
    cases e <;> rfl
  rw [hmap, hmap, h.trace]

section Loop

variable {cls : ElfClass} {L L' : Layout} {H : Host} {opts : Options} {fuel lim : Nat}
variable {file file' : Bytes} {p : Phdr} {phdrs : List Phdr}

theorem parseEntry_phdr {phoff i : Nat} (h : PhdrAt L H file (phoff + i * L.phdrSize) p)
    (hsum : p.offset + p.filesz < 2 ^ 32) :
    parseEntry L H opts fuel file file.length phoff i
      = .after [.entry (phoff + i * L.phdrSize) L.phdrSize]
        (segmentRun H opts fuel file i p) := by
  have hadd : L.add p.offset p.filesz = p.offset + p.filesz :=
    Nat.mod_eq_of_lt (Nat.lt_of_lt_of_le hsum L.two_pow_le)
  rw [parseEntry, h.offset_eq, need, h.filesz_eq, need, h.type_eq, need, hadd,
    segmentRun]

/-- **A segment behind `lim` is the same segment in both files.** -/
theorem segmentRun_agree (h : AgreeFrom lim file file') (hoff : lim ≤ p.offset)
    (hsum : p.offset + p.filesz < 2 ^ 32) (i : Nat) :
    segmentRun H opts fuel file i p = segmentRun H opts fuel file' i p := by
  have hsize : (toUnsigned (toInt p.filesz)).toNat = p.filesz := by
    rw [toUnsigned_toInt (by omega), Int.toNat_natCast]
  have hnotes : parseNotes H opts fuel file p.offset p.filesz
      = parseNotes H opts fuel file' p.offset p.filesz :=
    noteLoop_agree h hoff hsum (by decide) fuel
  rw [segmentRun, segmentRun, h.length_eq, parseSection, parseSection, hsize, hnotes,
    h.load (Or.inl (by omega))]

theorem entryTurn_agree {phoff phoff' i : Nat} (h : AgreeFrom lim file file')
    (hp : PhdrAt L H file (phoff + i * L.phdrSize) p)
    (hp' : PhdrAt L' H file' (phoff' + i * L'.phdrSize) p)
    (hoff : lim ≤ p.offset) (hsum : p.offset + p.filesz < 2 ^ 32) :
    (entryTurn L H opts fuel file file.length phoff i).ret
        = (entryTurn L' H opts fuel file' file'.length phoff' i).ret
      ∧ (entryTurn L H opts fuel file file.length phoff i).out.map Event.unplaced
        = (entryTurn L' H opts fuel file' file'.length phoff' i).out.map
            Event.unplaced := by
  rw [entryTurn, entryTurn, parseEntry_phdr hp hsum, parseEntry_phdr hp' hsum,
    segmentRun_agree h hoff hsum i]
  exact ⟨rfl, rfl⟩

theorem parseElf_table (h : HasTable cls H file phdrs lim) :
    ∃ phoff, parseElf H opts fuel file file.length
        = parseEntries cls.layout H opts fuel file file.length phoff phdrs.length
      ∧ ∀ i p, phdrs[i]? = some p →
        PhdrAt cls.layout H file (phoff + i * cls.layout.phdrSize) p := by
  obtain ⟨phoff, hpass, -, hphdr⟩ := h.table
  refine ⟨phoff, ?_, hphdr⟩
  rw [parseElf_ident h.magic_eq h.data_eq h.version_eq h.class_eq, parseElfAs_eq,
    hpass.parse]

end Loop

/-- **The 32-bit and the 64-bit parser agree**: on two files of one size that
    describe the same segments behind the same bytes, `parse_elf` returns the
    same value, prints the same, and stops at the same program header. -/
theorem parseElf_classes (H : Host) (opts : Options) (fuel : Nat)
    {file32 file64 : Bytes} {phdrs : List Phdr} {lim : Nat}
    (h32 : HasTable .class32 H file32 phdrs lim)
    (h64 : HasTable .class64 H file64 phdrs lim)
    (hsize : file32.length = file64.length)
    (hsame : file32.drop lim = file64.drop lim)
    (hoff : ∀ p ∈ phdrs, lim ≤ p.offset)
    (hsum : ∀ p ∈ phdrs, p.offset + p.filesz < 2 ^ 32) :
    (parseElf H opts fuel file32 file32.length).ret
        = (parseElf H opts fuel file64 file64.length).ret
      ∧ written (parseElf H opts fuel file32 file32.length).trace
        = written (parseElf H opts fuel file64 file64.length).trace
      ∧ SameRun (parseElf H opts fuel file32 file32.length)
          (parseElf H opts fuel file64 file64.length) := by
  obtain ⟨phoff, hrun, hp⟩ : ∃ phoff, parseElf H opts fuel file32 file32.length
        = parseEntries layout32 H opts fuel file32 file32.length phoff phdrs.length
      ∧ ∀ i p, phdrs[i]? = some p →
        PhdrAt layout32 H file32 (phoff + i * layout32.phdrSize) p := parseElf_table h32
  obtain ⟨phoff', hrun', hp'⟩ : ∃ phoff, parseElf H opts fuel file64 file64.length
        = parseEntries layout64 H opts fuel file64 file64.length phoff phdrs.length
      ∧ ∀ i p, phdrs[i]? = some p →
        PhdrAt layout64 H file64 (phoff + i * layout64.phdrSize) p := parseElf_table h64
  have hturn : ∀ i ∈ List.range phdrs.length,
      (entryTurn layout32 H opts fuel file32 file32.length phoff i).ret
          = (entryTurn layout64 H opts fuel file64 file64.length phoff' i).ret
        ∧ (entryTurn layout32 H opts fuel file32 file32.length phoff i).out.map
            Event.unplaced
          = (entryTurn layout64 H opts fuel file64 file64.length phoff' i).out.map
            Event.unplaced := by
    intro i hi
    have hget := List.getElem?_eq_getElem (List.mem_range.mp hi)
    have hmem := List.mem_of_getElem? hget
    exact entryTurn_agree ⟨hsize, hsame⟩ (hp i _ hget) (hp' i _ hget) (hoff _ hmem)
      (hsum _ hmem)
  obtain ⟨hret, hout⟩ := walk_congr hturn
  have hsamerun : SameRun (parseElf H opts fuel file32 file32.length)
      (parseElf H opts fuel file64 file64.length) := by
    rw [hrun, hrun']
    exact ⟨hout, congrArg (fun r => r.getD (.ok 0)) hret⟩
  exact ⟨hsamerun.ret, hsamerun.written, hsamerun⟩

/-- The note section that both sample files have at 120. -/
def sampleSection : Bytes := encodeNotes true [sampleNote]

def samplePhdrs : List Phdr := [⟨4, 120, 32⟩]

/-- The ELFCLASS32 file: its table ends at 84, and zeros follow up to 120. -/
def sampleFile32 : Bytes :=
  elfmag ++ [1, 2, 1] ++ List.replicate 9 0 ++ [0, 4, 0, 20, 0, 0, 0, 1]
    ++ List.replicate 4 0 ++ [0, 0, 0, 52] ++ List.replicate 10 0 ++ [0, 32, 0, 1]
    ++ List.replicate 6 0
    ++ [0, 0, 0, 4, 0, 0, 0, 120] ++ List.replicate 8 0 ++ [0, 0, 0, 32]
    ++ List.replicate 48 0 ++ sampleSection

/-- The ELFCLASS64 file: its table ends at 120. -/
def sampleFile64 : Bytes :=
  elfmag ++ [2, 2, 1] ++ List.replicate 9 0 ++ [0, 4, 0, 21, 0, 0, 0, 1]
    ++ List.replicate 15 0 ++ [64] ++ List.replicate 14 0 ++ [0, 56, 0, 1]
    ++ List.replicate 6 0
    ++ [0, 0, 0, 4, 0, 0, 0, 0, 0, 0, 0, 0, 0, 0, 0, 120] ++ List.replicate 23 0 ++ [32]
    ++ List.replicate 16 0 ++ sampleSection

theorem sampleFile32_table :
    HasTable .class32 ⟨true, true⟩ sampleFile32 samplePhdrs 120 where
  length_lt := by decide +kernel
  lim_le := by decide +kernel
  magic_eq := by decide +kernel
  data_eq := by decide +kernel
  version_eq := by decide +kernel
  class_eq := by decide +kernel
  table := by
    refine ⟨52, ⟨by decide +kernel, by decide +kernel, by decide +kernel,
      by decide +kernel, by decide +kernel, by decide +kernel⟩, by decide +kernel, ?_⟩
    intro i p hp
    match i with
    | 0 =>
        rw [← Option.some.inj hp]
        exact ⟨by decide +kernel, by decide +kernel, by decide +kernel⟩
    | i + 1 => exact nomatch hp

theorem sampleFile64_table :
    HasTable .class64 ⟨true, true⟩ sampleFile64 samplePhdrs 120 where
  length_lt := by decide +kernel
  lim_le := by decide +kernel
  magic_eq := by decide +kernel
  data_eq := by decide +kernel
  version_eq := by decide +kernel
  class_eq := by decide +kernel
  table := by
    refine ⟨64, ⟨by decide +kernel, by decide +kernel, by decide +kernel,
      by decide +kernel, by decide +kernel, by decide +kernel⟩, by decide +kernel, ?_⟩
    intro i p hp
    match i with
    | 0 =>
        rw [← Option.some.inj hp]
        exact ⟨by decide +kernel, by decide +kernel, by decide +kernel⟩
    | i + 1 => exact nomatch hp

theorem parseElf_classes_sample :
    HasTable .class32 ⟨true, true⟩ sampleFile32 samplePhdrs 120
      ∧ HasTable .class64 ⟨true, true⟩ sampleFile64 samplePhdrs 120
      ∧ (parseElf ⟨true, true⟩ sampleOptions 1 sampleFile32 sampleFile32.length).ret
        = (parseElf ⟨true, true⟩ sampleOptions 1 sampleFile64 sampleFile64.length).ret
      ∧ written (parseElf ⟨true, true⟩ sampleOptions 1 sampleFile32
          sampleFile32.length).trace
        = written (parseElf ⟨true, true⟩ sampleOptions 1 sampleFile64
          sampleFile64.length).trace
      ∧ SameRun (parseElf ⟨true, true⟩ sampleOptions 1 sampleFile32 sampleFile32.length)
          (parseElf ⟨true, true⟩ sampleOptions 1 sampleFile64 sampleFile64.length) :=
  ⟨sampleFile32_table, sampleFile64_table,
    parseElf_classes ⟨true, true⟩ sampleOptions 1 sampleFile32_table sampleFile64_table
      (by decide +kernel) (by decide +kernel) (by decide) (by decide)⟩

end SpufsElfAgree
