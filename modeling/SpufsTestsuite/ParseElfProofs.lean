import SpufsTestsuite.NoteWalkProofs

/-! # `parse_elf` — from a core file to its segments

    `parse_elf_32` and `parse_elf_64` are one program over two layouts: the
    places and the width of the fields differ, and with the width the
    arithmetic of the checks, which is unsigned and wraps.

    The checks are meant to keep everything that is read inside of the file.
    They do, as long as none of their sums has a carry out of its width
    (`parseElfAs_inside`). -/

namespace SpufsParseElf

open CString Image EarlyExit SpufsNoteCheck SpufsNoteSection SpufsNoteWalk

/-- Where a class of ELF files keeps what parse-core reads: the offsets of the
    fields in the two headers, the sizes of the headers, and the width in bytes
    of an offset in the file. -/
structure Layout where
  width : Nat
  machine : Nat
  machineName : Bytes
  ehdrSize : Nat
  ePhoff : Nat
  ePhentsize : Nat
  ePhnum : Nat
  phdrSize : Nat
  pOffset : Nat
  pFilesz : Nat
  width_ge : 4 ≤ width
  machine_le : 20 ≤ ehdrSize
  ePhoff_le : ePhoff + width ≤ ehdrSize
  ePhentsize_le : ePhentsize + 2 ≤ ehdrSize
  ePhnum_le : ePhnum + 2 ≤ ehdrSize
  pType_le : 4 ≤ phdrSize
  pOffset_le : pOffset + width ≤ phdrSize
  pFilesz_le : pFilesz + width ≤ phdrSize

/-- `Elf32_Ehdr` and `Elf32_Phdr`. -/
def layout32 : Layout where
  width := 4
  machine := 20
  machineName := str "EM_PPC"
  ehdrSize := 52
  ePhoff := 28
  ePhentsize := 42
  ePhnum := 44
  phdrSize := 32
  pOffset := 4
  pFilesz := 16
  width_ge := by decide
  machine_le := by decide
  ePhoff_le := by decide
  ePhentsize_le := by decide
  ePhnum_le := by decide
  pType_le := by decide
  pOffset_le := by decide
  pFilesz_le := by decide

/-- `Elf64_Ehdr` and `Elf64_Phdr`. -/
def layout64 : Layout where
  width := 8
  machine := 21
  machineName := str "EM_PPC64"
  ehdrSize := 64
  ePhoff := 32
  ePhentsize := 54
  ePhnum := 56
  phdrSize := 56
  pOffset := 8
  pFilesz := 32
  width_ge := by decide
  machine_le := by decide
  ePhoff_le := by decide
  ePhentsize_le := by decide
  ePhnum_le := by decide
  pType_le := by decide
  pOffset_le := by decide
  pFilesz_le := by decide

/-- A sum of two offsets, in the width of an offset. -/
def Layout.add (L : Layout) (x y : Nat) : Nat := (x + y) % 256 ^ L.width

/-- An offset has at least 32 bits. -/
theorem Layout.two_pow_le (L : Layout) : 2 ^ 32 ≤ 256 ^ L.width :=
  calc 2 ^ 32 = 256 ^ 4 := by decide
    _ ≤ 256 ^ L.width := Nat.pow_le_pow_right (by decide) L.width_ge

/-! ## The functions -/

/-- A message, and the value -1. -/
def fail (msg : Bytes) : Run := ⟨[.stderr msg], .ok (-1)⟩

/-- What is done with a value that has to be read. -/
def need {α : Type} (o : Option α) (k : α → Run) : Run :=
  match o with
  | none => ⟨[], .error .fault⟩
  | some a => k a

/-- `ELFMAG`. -/
def elfmag : Bytes := [0x7f, 69, 76, 70]

/-- `parse_section`. -/
def parseSection (H : Host) (opts : Options) (fuel : Nat) (file : Bytes)
    (section_ : Nat) (size type : Int) : Run :=
  if type = 1 ∧ opts.action = .findExec then
    need (load file section_ 4) fun bytes =>
      ⟨[], .ok (if bytes = elfmag then 0 else -1)⟩
  else if type = 4 then
    let r := parseNotes H opts fuel file section_ (toUnsigned size).toNat
    ⟨r.trace, r.ret.map (fun rc => if rc ≠ 0 then -1 else 1)⟩
  else ⟨[], .ok 1⟩

/-- One program header: -1 when it is broken, else what `parse_section` says. -/
def parseEntry (L : Layout) (H : Host) (opts : Options) (fuel : Nat) (file : Bytes)
    (mapSize phoff i : Nat) : Run :=
  let phdr := phoff + i * L.phdrSize
  .after [.entry phdr L.phdrSize] <|
    need (loadNat H.big file (phdr + L.pOffset) L.width) fun offset =>
      if offset > mapSize then
        fail (str "Program header entry " ++ dec i ++ str " starts at 0x" ++ hex 16 offset
          ++ str ", which is past end-of-file\n")
      else
        need (loadNat H.big file (phdr + L.pFilesz) L.width) fun filesz =>
          if L.add offset filesz > mapSize then
            fail (str "Program header entry " ++ dec i ++ str " ends at 0x"
              ++ hex 16 offset ++ str ", which is past end-of-file\n")
          else
            need (loadNat H.big file phdr 4) fun type =>
              .after [.segment offset filesz (toInt filesz)]
                (parseSection H opts fuel file offset (toInt filesz) (toInt type))

/-- One turn of the loop over the program headers. -/
def entryTurn (L : Layout) (H : Host) (opts : Options) (fuel : Nat) (file : Bytes)
    (mapSize phoff i : Nat) : Turn Event (Except Stuck Int) :=
  let r := parseEntry L H opts fuel file mapSize phoff i
  ⟨r.trace,
    match r.ret with
    | .error stuck => some (.error stuck)
    | .ok rc => if rc < 0 then some (.ok (-1)) else if rc = 0 then some (.ok 0) else none⟩

/-- The loop, and the 0 behind it. -/
def parseEntries (L : Layout) (H : Host) (opts : Options) (fuel : Nat) (file : Bytes)
    (mapSize phoff phnum : Nat) : Run :=
  let w := walk (entryTurn L H opts fuel file mapSize phoff) (List.range phnum)
  ⟨w.out, w.ret.getD (.ok 0)⟩

/-- The common text of `parse_elf_32` and `parse_elf_64`. -/
def parseElfClass (L : Layout) (H : Host) (opts : Options) (fuel : Nat) (file : Bytes)
    (mapSize : Nat) : Run :=
  need (loadNat H.big file 18 2) fun machine =>
    if machine ≠ L.machine then
      fail (str "Invlid ELF file: e_machine (" ++ dec machine ++ str ") != "
        ++ L.machineName ++ str "\n")
    else
      need (loadNat H.big file L.ePhoff L.width) fun phoff =>
        if phoff ≥ mapSize then fail (str "Program header table past end of file\n")
        else
          need (loadNat H.big file L.ePhentsize 2) fun phentsize =>
            if phentsize ≠ L.phdrSize then
              fail (str "Program header entries are " ++ dec phentsize
                ++ str " bytes, expected " ++ dec L.phdrSize ++ str "\n")
            else
              need (loadNat H.big file L.ePhnum 2) fun phnum =>
                if L.add phoff (phentsize * phnum) > mapSize then
                  fail (str "Program header table extends past end of file\n")
                else parseEntries L H opts fuel file mapSize phoff phnum

/-- `parse_elf_32`. -/
def parseElf32 : Host → Options → (fuel : Nat) → (file : Bytes) → (mapSize : Nat) → Run :=
  parseElfClass layout32

/-- `parse_elf_64`. -/
def parseElf64 : Host → Options → (fuel : Nat) → (file : Bytes) → (mapSize : Nat) → Run :=
  parseElfClass layout64

/-- `parse_elf`; `char` is unsigned, as it is on the machines the suite is for. -/
def parseElf (H : Host) (opts : Options) (fuel : Nat) (file : Bytes) (mapSize : Nat) : Run :=
  need (load file 0 4) fun magic =>
    if magic ≠ elfmag then fail (str "Invalid ELF file: bad e_ident magic\n")
    else
      need (loadByte file 5) fun data =>
        if data ≠ 2 then fail (str "Invalid ELF file: bad data encoding\n")
        else
          need (loadByte file 6) fun version =>
            if version ≠ 1 then
              fail (str "Invalid ELF file: bad file version (" ++ dec version.toNat
                ++ str ")\n")
            else
              need (loadByte file 4) fun cls =>
                if cls = 1 then parseElf32 H opts fuel file mapSize
                else if cls = 2 then parseElf64 H opts fuel file mapSize
                else
                  fail (str "Invalid ELF file: bad elf class (0x"
                    ++ hex (if cls < 16 then 1 else 2) cls.toNat ++ str ")\n")

/-- `ELFCLASS32` and `ELFCLASS64`. -/
inductive ElfClass
  | class32
  | class64

def ElfClass.layout : ElfClass → Layout
  | .class32 => layout32
  | .class64 => layout64

/-- The parser of a class. -/
def parseElfAs : ElfClass → Host → Options → (fuel : Nat) → (file : Bytes) →
    (mapSize : Nat) → Run
  | .class32 => parseElf32
  | .class64 => parseElf64

theorem parseElfAs_eq (cls : ElfClass) : parseElfAs cls = parseElfClass cls.layout := by
  cases cls <;> rfl

/-! ## The header -/

/-- The file passes the checks of its header, and this is its table. -/
structure PassesHeader (L : Layout) (H : Host) (file : Bytes) (phoff phnum : Nat) :
    Prop where
  machine_eq : loadNat H.big file 18 2 = some L.machine
  phoff_eq : loadNat H.big file L.ePhoff L.width = some phoff
  phoff_lt : phoff < file.length
  phentsize_eq : loadNat H.big file L.ePhentsize 2 = some L.phdrSize
  phnum_eq : loadNat H.big file L.ePhnum 2 = some phnum
  table_le : L.add phoff (L.phdrSize * phnum) ≤ file.length

section Header

variable {L : Layout} {H : Host} {opts : Options} {fuel : Nat} {file : Bytes}

/-- **Behind its header checks the program is the loop over its entries.** -/
theorem PassesHeader.parse {phoff phnum : Nat} (h : PassesHeader L H file phoff phnum) :
    parseElfClass L H opts fuel file file.length
      = parseEntries L H opts fuel file file.length phoff phnum := by
  rw [parseElfClass, h.machine_eq, need, if_neg (not_not_intro rfl), h.phoff_eq, need,
    if_neg (Nat.not_le.mpr h.phoff_lt), h.phentsize_eq, need,
    if_neg (not_not_intro rfl), h.phnum_eq, need, if_neg (Nat.not_lt.mpr h.table_le)]

theorem fail_ofNotes (msg : Bytes) : ∀ e ∈ (fail msg).trace, e.ofNotes = true := by
  intro e he
  rw [List.mem_singleton.mp he]
  rfl

/-- A file as long as its header is passed or rejected with a message. -/
theorem parseElfClass_header (hfile : L.ehdrSize ≤ file.length) :
    (∃ phoff phnum, PassesHeader L H file phoff phnum)
      ∨ (∀ phoff phnum, ¬ PassesHeader L H file phoff phnum)
        ∧ ∀ fuel, ∀ e ∈ (parseElfClass L H opts fuel file file.length).trace,
            e.ofNotes = true := by
  have h1 := L.machine_le
  have h2 := L.ePhoff_le
  have h3 := L.ePhentsize_le
  have h4 := L.ePhnum_le
  obtain ⟨machine, hmachine⟩ :=
    @loadNat_inside H.big file 18 2 (by omega) (by omega)
  obtain ⟨phoff, hphoff⟩ :=
    @loadNat_inside H.big file L.ePhoff L.width (by omega) (by omega)
  obtain ⟨phentsize, hphentsize⟩ :=
    @loadNat_inside H.big file L.ePhentsize 2 (by omega) (by omega)
  obtain ⟨phnum, hphnum⟩ :=
    @loadNat_inside H.big file L.ePhnum 2 (by omega) (by omega)
  by_cases c1 : machine = L.machine
  · by_cases c2 : phoff < file.length
    · by_cases c3 : phentsize = L.phdrSize
      · subst c3
        by_cases c4 : L.add phoff (L.phdrSize * phnum) ≤ file.length
        · exact Or.inl ⟨phoff, phnum, c1 ▸ hmachine, hphoff, c2, hphentsize, hphnum, c4⟩
        · refine Or.inr ⟨fun x y hp => c4 ?_, fun fuel => ?_⟩
          · have hx := Option.some.inj (hp.phoff_eq.symm.trans hphoff)
            have hy := Option.some.inj (hp.phnum_eq.symm.trans hphnum)
            exact hx ▸ hy ▸ hp.table_le
          · rw [parseElfClass, hmachine, need, if_neg (not_not_intro c1), hphoff, need,
              if_neg (Nat.not_le.mpr c2), hphentsize, need, if_neg (not_not_intro rfl),
              hphnum, need, if_pos (Nat.not_le.mp c4)]
            exact fail_ofNotes _
      · refine Or.inr ⟨fun x y hp => c3 ?_, fun fuel => ?_⟩
        · exact Option.some.inj (hphentsize.symm.trans hp.phentsize_eq)
        · rw [parseElfClass, hmachine, need, if_neg (not_not_intro c1), hphoff, need,
            if_neg (Nat.not_le.mpr c2), hphentsize, need, if_pos c3]
          exact fail_ofNotes _
    · refine Or.inr ⟨fun x y hp => c2 ?_, fun fuel => ?_⟩
      · exact Option.some.inj (hp.phoff_eq.symm.trans hphoff) ▸ hp.phoff_lt
      · rw [parseElfClass, hmachine, need, if_neg (not_not_intro c1), hphoff, need,
          if_pos (Nat.not_lt.mp c2)]
        exact fail_ofNotes _
  · refine Or.inr ⟨fun x y hp => c1 ?_, fun fuel => ?_⟩
    · exact Option.some.inj (hmachine.symm.trans hp.machine_eq)
    · rw [parseElfClass, hmachine, need, if_pos c1]
      exact fail_ofNotes _

end Header

/-! ## What is read lies in the file -/

/-- A program header that is read, and a segment that is handed out, lie in
    the file; the size that arrives in `parse_notes` is the segment's. -/
def Inside (file : Bytes) : Event → Prop
  | .entry phdr size => phdr + size ≤ file.length
  | .segment offset filesz size =>
      offset + filesz ≤ file.length ∧ toUnsigned size = filesz
  | .stdout _ | .stderr _ | .note _ _ => True

theorem inside_of_ofNotes {file : Bytes} {e : Event} (h : e.ofNotes = true) :
    Inside file e := by
  cases e with
  | entry => exact nomatch h
  | segment => exact nomatch h
  | stdout => trivial
  | stderr => trivial
  | note => trivial

/-- Up to 2^32 the way through an `int` changes no size. -/
theorem toUnsigned_toInt {n : Nat} (h : n < 2 ^ 32) : toUnsigned (toInt n) = n := by
  rw [toUnsigned, toInt]
  have hmod := @Int.bmod_emod (n : Int) (2 ^ 32)
  have hlt : (n : Int) % ((2 ^ 32 : Nat) : Int) = n := Int.emod_eq_of_lt (by omega) (by omega)
  exact hmod.trans hlt

section Segments

variable {L : Layout} {H : Host} {opts : Options} {fuel : Nat} {file : Bytes}
variable {phoff phnum i : Nat}

theorem parseSection_inside {section_ : Nat} {size type : Int} :
    ∀ e ∈ (parseSection H opts fuel file section_ size type).trace, Inside file e := by
  rw [parseSection]
  split
  · intro e he
    cases hb : load file section_ 4 with
    | none => rw [hb] at he; exact nomatch he
    | some bytes => rw [hb] at he; exact nomatch he
  · split
    · intro e he
      exact inside_of_ofNotes (noteLoop_ofNotes e he)
    · intro e he
      exact nomatch he

/-- The entry's own sum has no carry, where it is taken. -/
def NoCarry (L : Layout) (H : Host) (file : Bytes) (phdr : Nat) : Prop :=
  ∀ offset filesz, loadNat H.big file (phdr + L.pOffset) L.width = some offset →
    loadNat H.big file (phdr + L.pFilesz) L.width = some filesz →
    offset ≤ file.length → offset + filesz < 256 ^ L.width

theorem noCarry_iff {phdr offset filesz : Nat}
    (hoffset : loadNat H.big file (phdr + L.pOffset) L.width = some offset)
    (hfilesz : loadNat H.big file (phdr + L.pFilesz) L.width = some filesz) :
    NoCarry L H file phdr
      ↔ (offset ≤ file.length → offset + filesz < 256 ^ L.width) := by
  constructor
  · intro h
    exact h offset filesz hoffset hfilesz
  · intro h o s ho hs
    rw [← Option.some.inj (hoffset.symm.trans ho),
      ← Option.some.inj (hfilesz.symm.trans hs)]
    exact h

/-- Reading an entry that lies in the file is safe. -/
theorem inside_after_entry {a n : Nat} (h : a + n ≤ file.length) (r : Run) :
    (∀ e ∈ (Run.after [.entry a n] r).trace, Inside file e)
      ↔ ∀ e ∈ r.trace, Inside file e := by
  constructor
  · intro hall e he
    exact hall e (List.mem_cons_of_mem _ he)
  · intro hall e he
    rcases List.mem_cons.mp he with rfl | he
    · exact h
    · exact hall e he

/-- A sum with a carry is smaller than what was added to. -/
theorem Layout.add_carry {offset filesz : Nat} (hoffset : offset < 256 ^ L.width)
    (hfilesz : filesz < 256 ^ L.width) (h : 256 ^ L.width ≤ offset + filesz) :
    L.add offset filesz < offset := by
  rw [Layout.add, Nat.mod_eq_sub_mod h, Nat.mod_eq_of_lt (by omega)]
  omega

/-- An entry that lies in the file is read, and it is safe when its sum has no
    carry: a carry makes the sum smaller than the offset, so the check lets it
    through. -/
theorem parseEntry_inside (hlen : file.length < 2 ^ 32)
    (hin : phoff + i * L.phdrSize + L.phdrSize ≤ file.length) :
    (∀ e ∈ (parseEntry L H opts fuel file file.length phoff i).trace, Inside file e)
      ↔ NoCarry L H file (phoff + i * L.phdrSize) := by
  have h1 := L.pOffset_le
  have h2 := L.pFilesz_le
  have h3 := L.pType_le
  have hpow := L.two_pow_le
  obtain ⟨offset, hoffset⟩ := @loadNat_inside H.big file
    ((phoff + i * L.phdrSize : Nat) + L.pOffset) L.width (by omega) (by omega)
  obtain ⟨filesz, hfilesz⟩ := @loadNat_inside H.big file
    ((phoff + i * L.phdrSize : Nat) + L.pFilesz) L.width (by omega) (by omega)
  obtain ⟨type, htype⟩ := @loadNat_inside H.big file
    ((phoff + i * L.phdrSize : Nat)) 4 (by omega) (by omega)
  have hwidth : 0 < L.width := Nat.lt_of_lt_of_le (by decide) L.width_ge
  have hfszlt := loadNat_lt hwidth hfilesz
  have hfail : ∀ msg, ∀ e ∈ (fail msg).trace, Inside file e :=
    fun msg e he => inside_of_ofNotes (fail_ofNotes msg e he)
  rw [noCarry_iff hoffset hfilesz, parseEntry, inside_after_entry hin, hoffset, need]
  by_cases c1 : offset > file.length
  · rw [if_pos c1]
    exact ⟨fun _ h => absurd h (by omega), fun _ => hfail _⟩
  · rw [if_neg c1, hfilesz, need]
    by_cases c2 : L.add offset filesz > file.length
    · rw [if_pos c2]
      refine ⟨fun _ _ => ?_, fun _ => hfail _⟩
      -- a sum with a carry would have been let through
      by_contra hc
      have hadd := Layout.add_carry (L := L) (by omega) hfszlt (Nat.le_of_not_lt hc)
      omega
    · rw [if_neg c2, htype, need, Run.after_trace, List.singleton_append]
      constructor
      · intro h _
        have hseg := h (.segment offset filesz (toInt filesz)) List.mem_cons_self
        have hle : offset + filesz ≤ file.length := hseg.1
        omega
      · intro h e he
        have hlt := h (by omega)
        rw [Layout.add, Nat.mod_eq_of_lt hlt] at c2
        rcases List.mem_cons.mp he with rfl | he
        · exact ⟨by omega, toUnsigned_toInt (by omega)⟩
        · exact parseSection_inside e he

/-- An entry that is read is one that lies in the file. -/
theorem parseEntry_entry :
    .entry (phoff + i * L.phdrSize) L.phdrSize
      ∈ (parseEntry L H opts fuel file file.length phoff i).trace :=
  List.mem_cons_self

theorem need_ret {α : Type} {o : Option α} {k : α → Run} {rc : Int} :
    (need o k).ret = .ok rc ↔ ∃ a, o = some a ∧ (k a).ret = .ok rc := by
  cases o with
  | none =>
      constructor
      · intro h
        exact nomatch h
      · rintro ⟨a, h, -⟩
        exact nomatch h
  | some a =>
      constructor
      · intro h
        exact ⟨a, rfl, h⟩
      · rintro ⟨b, hb, h⟩
        rw [Option.some.inj hb]
        exact h

/-- An entry behind which the loop goes on: it passes its two checks, and
    `parse_section` asks for more. -/
def GoesOn (L : Layout) (H : Host) (opts : Options) (fuel : Nat) (file : Bytes)
    (phdr : Nat) : Prop :=
  ∃ offset filesz type rc,
    loadNat H.big file (phdr + L.pOffset) L.width = some offset
      ∧ offset ≤ file.length
      ∧ loadNat H.big file (phdr + L.pFilesz) L.width = some filesz
      ∧ L.add offset filesz ≤ file.length
      ∧ loadNat H.big file phdr 4 = some type
      ∧ (parseSection H opts fuel file offset (toInt filesz) (toInt type)).ret = .ok rc
      ∧ 0 < rc

theorem parseEntry_goes :
    (∃ rc, (parseEntry L H opts fuel file file.length phoff i).ret = .ok rc ∧ 0 < rc)
      ↔ GoesOn L H opts fuel file (phoff + i * L.phdrSize) := by
  constructor
  · rintro ⟨rc, h, hpos⟩
    have hfail : ∀ msg, (fail msg).ret = .ok rc → False := by
      intro msg hf
      have hrc : -1 = rc := Except.ok.inj hf
      omega
    rw [parseEntry, Run.after_ret] at h
    obtain ⟨offset, hoffset, h⟩ := need_ret.mp h
    by_cases c1 : offset > file.length
    · rw [if_pos c1] at h
      exact (hfail _ h).elim
    · rw [if_neg c1] at h
      obtain ⟨filesz, hfilesz, h⟩ := need_ret.mp h
      by_cases c2 : L.add offset filesz > file.length
      · rw [if_pos c2] at h
        exact (hfail _ h).elim
      · rw [if_neg c2] at h
        obtain ⟨type, htype, h⟩ := need_ret.mp h
        rw [Run.after_ret] at h
        exact ⟨offset, filesz, type, rc, hoffset, Nat.not_lt.mp c1, hfilesz,
          Nat.not_lt.mp c2, htype, h, hpos⟩
  · rintro ⟨offset, filesz, type, rc, hoffset, c1, hfilesz, c2, htype, h, hpos⟩
    refine ⟨rc, ?_, hpos⟩
    rw [parseEntry, hoffset, need, if_neg (Nat.not_lt.mpr c1), hfilesz, need,
      if_neg (Nat.not_lt.mpr c2), htype, need, Run.after_ret, Run.after_ret]
    exact h

theorem entryTurn_goes :
    (entryTurn L H opts fuel file file.length phoff i).ret.isSome = false
      ↔ GoesOn L H opts fuel file (phoff + i * L.phdrSize) := by
  rw [← parseEntry_goes, entryTurn]
  dsimp only
  cases (parseEntry L H opts fuel file file.length phoff i).ret with
  | error stuck =>
      constructor
      · intro h
        exact nomatch h
      · rintro ⟨rc, h, -⟩
        exact nomatch h
  | ok rc =>
      dsimp only
      by_cases hneg : rc < 0
      · rw [if_pos hneg]
        constructor
        · intro h
          exact nomatch h
        · rintro ⟨rc', h, hpos⟩
          have := Except.ok.inj h
          omega
      · rw [if_neg hneg]
        by_cases hz : rc = 0
        · rw [if_pos hz]
          constructor
          · intro h
            exact nomatch h
          · rintro ⟨rc', h, hpos⟩
            have := Except.ok.inj h
            omega
        · rw [if_neg hz]
          exact ⟨fun _ => ⟨rc, rfl, by omega⟩, fun _ => rfl⟩

/-- The loop gets to this entry. -/
def Reached (L : Layout) (H : Host) (opts : Options) (fuel : Nat) (file : Bytes)
    (phoff i : Nat) : Prop :=
  ∀ j < i, GoesOn L H opts fuel file (phoff + j * L.phdrSize)

theorem parseEntries_inside (hlen : file.length < 2 ^ 32) :
    (∀ e ∈ (parseEntries L H opts fuel file file.length phoff phnum).trace,
      Inside file e)
      ↔ ∀ i < phnum, Reached L H opts fuel file phoff i →
          phoff + i * L.phdrSize + L.phdrSize ≤ file.length
            ∧ NoCarry L H file (phoff + i * L.phdrSize) := by
  rw [parseEntries]
  dsimp only
  rw [forall_walk_out]
  constructor
  · intro h i hi hreach
    have hturn := h i (mem_upTo_range.mpr ⟨hi, fun j hj => entryTurn_goes.mpr (hreach j hj)⟩)
    have hin : phoff + i * L.phdrSize + L.phdrSize ≤ file.length :=
      hturn _ parseEntry_entry
    exact ⟨hin, (parseEntry_inside hlen hin).mp hturn⟩
  · intro h i hi
    obtain ⟨hlt, hreach⟩ := mem_upTo_range.mp hi
    obtain ⟨hin, hcarry⟩ := h i hlt (fun j hj => entryTurn_goes.mp (hreach j hj))
    exact (parseEntry_inside hlen hin).mpr hcarry

/-- The table's sum has no carry, or the loop is left while it is still in the
    file. -/
def TableEnds (L : Layout) (H : Host) (opts : Options) (fuel : Nat) (file : Bytes)
    (phoff phnum : Nat) : Prop :=
  phoff + L.phdrSize * phnum < 256 ^ L.width
    ∨ ∃ k < phnum, Reached L H opts fuel file phoff k
        ∧ phoff + k * L.phdrSize + L.phdrSize ≤ file.length
        ∧ ¬ GoesOn L H opts fuel file (phoff + k * L.phdrSize)

/-- All entries the loop gets to lie in the file exactly when the table does or
    the loop does not get to its end. -/
theorem reached_inside_iff (hlen : file.length < 2 ^ 32)
    (h : PassesHeader L H file phoff phnum) :
    (∀ i < phnum, Reached L H opts fuel file phoff i →
      phoff + i * L.phdrSize + L.phdrSize ≤ file.length)
      ↔ TableEnds L H opts fuel file phoff phnum := by
  have hpow := L.two_pow_le
  have hphoff := h.phoff_lt
  constructor
  · intro hall
    by_contra hends
    obtain ⟨hcarry, hstay⟩ := not_or.mp hends
    -- the loop would go through the whole table, and that ends in the file
    have hreach : ∀ k ≤ phnum, Reached L H opts fuel file phoff k := by
      intro k
      induction k with
      | zero =>
          intro _ j hj
          exact absurd hj (Nat.not_lt_zero j)
      | succ k ih =>
          intro hk j hj
          have hr := ih (by omega)
          rcases Nat.lt_succ_iff_lt_or_eq.mp hj with hj | rfl
          · exact hr j hj
          · by_contra hleave
            exact hstay ⟨j, by omega, hr, hall j (by omega) hr, hleave⟩
    cases phnum with
    | zero => exact hcarry (by omega)
    | succ p =>
        have hin := hall p (by omega) (hreach p (by omega))
        have hmul : L.phdrSize * (p + 1) = p * L.phdrSize + L.phdrSize := by
          rw [Nat.mul_succ, Nat.mul_comm]
        exact hcarry (by omega)
  · rintro (hcarry | ⟨k, hk, hr, hin, hleave⟩) i hi hreach
    · have htable := h.table_le
      rw [Layout.add, Nat.mod_eq_of_lt hcarry, Nat.mul_comm] at htable
      have hmul : (i + 1) * L.phdrSize ≤ phnum * L.phdrSize :=
        Nat.mul_le_mul_right _ hi
      rw [Nat.succ_mul] at hmul
      omega
    · have hik : i ≤ k := by
        by_contra hlt
        exact hleave (hreach k (by omega))
      have hmul : i * L.phdrSize ≤ k * L.phdrSize := Nat.mul_le_mul_right _ hik
      omega

end Segments

/-- **Segments handed out lie inside of the file** exactly when no sum that the
    checks take has a carry: not that of an entry the loop gets to, and not
    that of the table, unless the loop is left before the table ends. -/
theorem parseElfAs_inside (cls : ElfClass) (H : Host) (opts : Options) (file : Bytes)
    (hfile : cls.layout.ehdrSize ≤ file.length) (hlen : file.length < 2 ^ 32) :
    (∀ fuel, ∀ e ∈ (parseElfAs cls H opts fuel file file.length).trace, Inside file e)
      ↔ ∀ phoff phnum, PassesHeader cls.layout H file phoff phnum → ∀ fuel,
          TableEnds cls.layout H opts fuel file phoff phnum
            ∧ ∀ i < phnum, Reached cls.layout H opts fuel file phoff i →
                NoCarry cls.layout H file (phoff + i * cls.layout.phdrSize) := by
  rw [parseElfAs_eq]
  rcases @parseElfClass_header cls.layout H opts file hfile with
    ⟨phoff, phnum, hpass⟩ | ⟨hno, hquiet⟩
  · constructor
    · intro h x y hp fuel
      have hrun := h fuel
      rw [hp.parse, parseEntries_inside hlen] at hrun
      exact ⟨(reached_inside_iff hlen hp).mp (fun i hi hr => (hrun i hi hr).1),
        fun i hi hr => (hrun i hi hr).2⟩
    · intro h fuel
      obtain ⟨hends, hcarry⟩ := h phoff phnum hpass fuel
      rw [hpass.parse, parseEntries_inside hlen]
      intro i hi hr
      exact ⟨(reached_inside_iff hlen hpass).mpr hends i hi hr, hcarry i hi hr⟩
  · constructor
    · intro _ x y hp
      exact absurd hp (hno x y)
    · intro _ fuel e he
      exact inside_of_ofNotes (hquiet fuel e he)

/-- An ELFCLASS32 file of 84 bytes with one program header, whose segment
    begins at 1 and has 2^32 - 1 bytes. -/
def carryFile : Bytes :=
  elfmag ++ [1, 2, 1] ++ List.replicate 9 0 ++ [0, 4, 0, 20, 0, 0, 0, 1]
    ++ List.replicate 4 0 ++ [0, 0, 0, 52] ++ List.replicate 10 0 ++ [0, 32, 0, 1]
    ++ List.replicate 6 0
    ++ [0, 0, 0, 0, 0, 0, 0, 1] ++ List.replicate 8 0 ++ [255, 255, 255, 255]
    ++ List.replicate 12 0

theorem parseElfAs_inside_sample :
    52 ≤ carryFile.length ∧ carryFile.length < 2 ^ 32 ∧
      ((∀ fuel, ∀ e ∈ (parseElfAs .class32 ⟨true, true⟩ sampleOptions fuel carryFile
          carryFile.length).trace, Inside carryFile e)
        ↔ ∀ phoff phnum, PassesHeader layout32 ⟨true, true⟩ carryFile phoff phnum →
            ∀ fuel, TableEnds layout32 ⟨true, true⟩ sampleOptions fuel carryFile phoff phnum
              ∧ ∀ i < phnum,
                  Reached layout32 ⟨true, true⟩ sampleOptions fuel carryFile phoff i →
                  NoCarry layout32 ⟨true, true⟩ carryFile (phoff + i * 32)) :=
  ⟨by decide, by decide,
    parseElfAs_inside .class32 ⟨true, true⟩ sampleOptions carryFile (by decide) (by decide)⟩

/-- Its sum is 2^32, which is 0 in 32 bits, and the segment is handed out. -/
theorem parseElfAs_carry :
    (.segment 1 (2 ^ 32 - 1) (-1) ∈ (parseElfAs .class32 ⟨true, true⟩ sampleOptions 0
        carryFile carryFile.length).trace
      ∧ ¬ Inside carryFile (.segment 1 (2 ^ 32 - 1) (-1)))
    ∧ ¬ ∀ (cls : ElfClass) (H : Host) (opts : Options) (file : Bytes),
      cls.layout.ehdrSize ≤ file.length → file.length < 2 ^ 32 →
      ∀ fuel, ∀ e ∈ (parseElfAs cls H opts fuel file file.length).trace,
        Inside file e := by
  have hmem : .segment 1 (2 ^ 32 - 1) (-1) ∈ (parseElfAs .class32 ⟨true, true⟩
      sampleOptions 0 carryFile carryFile.length).trace := by decide
  have hout : ¬ Inside carryFile (.segment 1 (2 ^ 32 - 1) (-1)) := by
    intro hin
    exact absurd hin.1 (by decide)
  refine ⟨⟨hmem, hout⟩, ?_⟩
  intro h
  exact hout (h .class32 ⟨true, true⟩ sampleOptions carryFile (by decide) (by decide) 0
    _ hmem)

end SpufsParseElf
