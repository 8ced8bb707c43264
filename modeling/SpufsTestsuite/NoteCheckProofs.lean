import SpufsTestsuite.CStringProofs
import SpufsTestsuite.ImageProofs

/-! # `check_note` and `check_fd` — what parse-core asks of one note

    The functions get a pointer to a note header in the mapped file and read
    the name and the descriptor behind it.  `none` is a read outside of the
    image; a verdict is the value returned and what was written to stderr. -/

namespace SpufsNoteCheck

open CString Image

/-! ## The machine -/

/-- The host: its byte order, and whether its `size_t` has 64 bits or 32. -/
structure Host where
  big : Bool
  wide : Bool

/-- A conversion to `int`. -/
def toInt (x : Int) : Int := Int.bmod x (2 ^ 32)

/-- A conversion to `unsigned int`. -/
def toUnsigned (x : Int) : Int := x % 2 ^ 32

/-- A conversion to `size_t`. -/
def Host.sizeT (H : Host) (x : Int) : Int := x % 2 ^ (if H.wide then 64 else 32)

/-- `struct options`: what to do with the notes. -/
inductive Action
  | listNotes
  | checkNotes
  | checkFd
  | dumpNote
  | findExec
  deriving DecidableEq

/-- An argument string: it ends at its first NUL, so it holds none. -/
structure Arg where
  bytes : Bytes
  noNul : (0 : UInt8) ∉ bytes

theorem noNul_nil : (0 : UInt8) ∉ ([] : Bytes) := List.not_mem_nil

/-- `struct options`. -/
structure Options where
  action : Action
  dumpNoteName : Arg
  fd : Arg

/-! ## The note header -/

/-- `Elf_Nhdr`: the three words of a header. -/
structure Nhdr where
  namesz : Nat
  descsz : Nat
  type : Nat
  deriving DecidableEq

/-- `pad`: the next multiple of 4.  The sum is one of `int`s, and `& ~3`
    clears the two lowest bits. -/
def pad (x : Int) : Int := toInt (x + 3) - toInt (x + 3) % 4

theorem toInt_bounds (x : Int) : -2 ^ 31 ≤ toInt x ∧ toInt x < 2 ^ 31 := by
  have hlo := @Int.le_bmod x (2 ^ 32) (by decide)
  have hhi := @Int.bmod_lt x (2 ^ 32) (by decide)
  rw [toInt]
  omega

theorem pad_ge (x : Int) : -2 ^ 31 ≤ pad x := by
  have h := toInt_bounds (x + 3)
  rw [pad]
  omega

/-- A conversion to `size_t` that arrives below `size` was exact, or comes
    from below by 2^32. -/
theorem sizeT_le {H : Host} {x : Int} {size : Nat} (hx : -2 ^ 32 < x)
    (hsize : size < 2 ^ 32) (h : H.sizeT x ≤ size) : 0 ≤ x ∨ x + 2 ^ 32 ≤ size := by
  rw [Host.sizeT] at h
  by_cases hneg : 0 ≤ x
  · exact Or.inl hneg
  · cases hw : H.wide with
    | true =>
        rw [hw, if_pos rfl] at h
        omega
    | false =>
        rw [hw, if_neg Bool.false_ne_true] at h
        omega

/-- `nhdr->n_namesz`. -/
def nNamesz (H : Host) (m : Bytes) (nhdr : Int) : Option Nat :=
  loadNat H.big m nhdr 4

/-- `nhdr->n_descsz`. -/
def nDescsz (H : Host) (m : Bytes) (nhdr : Int) : Option Nat :=
  loadNat H.big m (nhdr + 4) 4

/-- `nhdr->n_type`. -/
def nType (H : Host) (m : Bytes) (nhdr : Int) : Option Nat :=
  loadNat H.big m (nhdr + 8) 4

/-- `note_name`. -/
def noteName (nhdr : Int) : Int := nhdr + 12

/-- `note_desc`. -/
def noteDesc (H : Host) (m : Bytes) (nhdr : Int) : Option Int :=
  (nNamesz H m nhdr).map (fun namesz => nhdr + 12 + pad (toInt namesz))

/-- The name as a C string. -/
def nameOf (m : Bytes) (nhdr : Int) : Option Bytes :=
  cstr (tailFrom m (noteName nhdr))

/-! ## `check_note` -/

/-- What a check returns, and what it writes to stderr. -/
structure Verdict where
  rc : Int
  stderr : List Bytes

def Verdict.accept : Verdict := ⟨0, []⟩

def Verdict.reject (msg : Bytes) : Verdict := ⟨-1, [msg]⟩

@[simp] theorem Verdict.accept_rc : Verdict.accept.rc = 0 := rfl

@[simp] theorem Verdict.reject_rc (msg : Bytes) : (Verdict.reject msg).rc = -1 := rfl

/-- A message that names the note. -/
def complain (m : Bytes) (nhdr : Int) (msg : Bytes → Bytes) : Option Verdict :=
  (nameOf m nhdr).map (fun name => .reject (msg name))

/-- The loop of `check_hex_note` over the digits. -/
def hexDigits (m : Bytes) (nhdr desc : Int) : List Nat → Option Verdict
  | [] => some .accept
  | i :: is =>
      (loadByte m (desc + i)).bind fun c =>
        if isxdigit c then hexDigits m nhdr desc is
        else complain m nhdr fun name =>
          str "Invalid format for note " ++ name ++ str ": invalid char '" ++ [c]
            ++ str "'\n"

/-- `check_hex_note`. -/
def checkHexNote (H : Host) (m : Bytes) (nhdr : Int) : Option Verdict :=
  let len := (str "0x0123456789abcdef").length + 1
  let noLeading := complain m nhdr fun name =>
    str "Invalid format for note " ++ name ++ str ": no leading '0x'\n"
  (noteDesc H m nhdr).bind fun desc =>
    (nDescsz H m nhdr).bind fun descsz =>
      if descsz ≠ len then
        complain m nhdr fun name =>
          str "wrong size (" ++ dec (toInt descsz) ++ str ") for note " ++ name
            ++ str "\n"
      else
        (loadByte m desc).bind fun c =>
          if c ≠ 48 then noLeading
          else
            (loadByte m (desc + 1)).bind fun d =>
              if d ≠ 120 then noLeading
              else hexDigits m nhdr desc (List.range' 2 (len - 1 - 2))

/-- `struct spu_note_check`. -/
structure SpuNoteCheck where
  name : Bytes
  size : Nat := 0
  fn : Option (Host → Bytes → Int → Option Verdict) := none

/-- `note_checks`, without the entry that ends it. -/
def noteChecks : List SpuNoteCheck :=
  [{ name := str "regs", size := 0x800 },
    { name := str "fpcr", size := 0x10 },
    { name := str "lslr", fn := some checkHexNote },
    { name := str "decr", fn := some checkHexNote },
    { name := str "decr_status", fn := some checkHexNote },
    { name := str "mem", size := 0x40000 },
    { name := str "signal1", size := 0x4 },
    { name := str "signal1_type", fn := some checkHexNote },
    { name := str "signal2", size := 0x4 },
    { name := str "signal2_type", fn := some checkHexNote },
    { name := str "event_mask", fn := some checkHexNote },
    { name := str "event_status", fn := some checkHexNote },
    { name := str "mbox_info", size := 0x4 },
    { name := str "ibox_info", size := 0x4 },
    { name := str "wbox_info", size := 0x10 },
    { name := str "dma_info", size := 0x228 },
    { name := str "proxydma_info", size := 0x118 },
    { name := str "object-id", fn := some checkHexNote },
    { name := str "npc", fn := some checkHexNote }]

/-- The loop of `check_note` over the table. -/
def checkFile (H : Host) (m : Bytes) (nhdr : Int) (fileName : Bytes) :
    List SpuNoteCheck → Option Verdict
  | [] => some .accept
  | check :: checks =>
      if fileName ≠ check.name then checkFile H m nhdr fileName checks
      else
        (nDescsz H m nhdr).bind fun descsz =>
          if check.size ≠ 0 ∧ check.size ≠ descsz then
            complain m nhdr fun name =>
              str "Invalid size (" ++ dec (toInt descsz) ++ str ") for note " ++ name
                ++ str "\n"
          else
            match check.fn with
            | some fn => fn H m nhdr
            | none => some .accept

/-- `check_note`. -/
def checkNote (H : Host) (m : Bytes) (nhdr : Int) : Option Verdict :=
  (nameOf m nhdr).bind fun name =>
    match splitLastSlash name with
    | none => some (.reject (str "Invalid note name " ++ name ++ str "\n"))
    | some (dir, fileName) =>
        -- spu_name is name + 4, whatever the name begins with
        if (dir.drop 4).all isdigit then checkFile H m nhdr fileName noteChecks
        else some (.reject (str "Invalid note name " ++ name ++ str "\n"))

/-! ## `check_fd` -/

/-- `check_fd`, on a copy of the name and its NUL. -/
def checkFd (m : Bytes) (nhdr : Int) (fd : Arg) : Option Verdict :=
  (nameOf m nhdr).bind fun name =>
    let copy := name ++ [0]
    match strchr 47 copy with
    | none => none
    | some none =>
        some (.reject (str "note " ++ name ++ str ": doesn't contain '/'\n"))
    | some (some i) =>
        let fdstr := copy.drop (i + 1)
        match strchr 47 fdstr with
        | none => none
        | some none =>
            some (.reject
              (str "note " ++ name ++ str ": doesn't contain enough '/'s\n"))
        | some (some sep) =>
            if fd.bytes ≠ fdstr.take sep then
              some (.reject (str "note " ++ name ++ str ": wrong fd: got "
                ++ fdstr.take sep ++ str ", expecting " ++ fd.bytes ++ str "\n"))
            else some .accept

/-- **`check_fd` accepts the note of its context**: the name is `SPU/`, the
    number asked for, and a slash behind it. -/
theorem checkFd_name {m s : Bytes} {nhdr : Int} (fd : Arg)
    (hname : nameOf m nhdr = some (str "SPU/" ++ s)) (h0 : (0 : UInt8) ∉ s) :
    ∃ v, checkFd m nhdr fd = some v
      ∧ (v.rc = 0 ↔ ∃ rest, s = fd.bytes ++ 47 :: rest ∧ (47 : UInt8) ∉ fd.bytes) := by
  have hfirst : strchr 47 (str "SPU/" ++ s ++ [0]) = some (some 3) :=
    strchr_found (s := str "SPU") (s ++ [0]) (by decide) (by decide)
  have hfdstr : (str "SPU/" ++ s ++ [0]).drop (3 + 1) = s ++ [0] := rfl
  rw [checkFd, hname]
  dsimp only [Option.bind_some]
  rw [hfirst]
  dsimp only
  rw [hfdstr]
  by_cases hs : (47 : UInt8) ∈ s
  · obtain ⟨f, r, rfl, hf⟩ := List.eq_append_cons_of_mem hs
    have hsep : strchr 47 (f ++ 47 :: r ++ [0]) = some (some f.length) := by
      rw [List.append_assoc, List.cons_append]
      exact strchr_found (r ++ [0]) (fun h => h0 (List.mem_append_left _ h)) hf
    have htake : (f ++ 47 :: r ++ [0]).take f.length = f := by
      rw [List.append_assoc, List.take_left]
    rw [hsep]
    dsimp only
    rw [htake]
    by_cases hfd : fd.bytes = f
    · rw [if_neg (not_not_intro hfd)]
      exact ⟨_, rfl, fun _ => ⟨r, by rw [hfd], hfd ▸ hf⟩, fun _ => rfl⟩
    · rw [if_pos hfd]
      refine ⟨_, rfl, fun h => absurd h (by simp), ?_⟩
      rintro ⟨rest, hrest, hno⟩
      -- the first slash of the name cannot stand in two places
      have hf0 : (0 : UInt8) ∉ f := fun h => h0 (List.mem_append_left _ h)
      have hlen := strchr_found r hf0 hf
      rw [hrest, strchr_found rest fd.noNul hno] at hlen
      have heq := Option.some.inj (Option.some.inj hlen)
      exact absurd (List.append_inj hrest heq.symm).1.symm hfd
  · rw [strchr_none [] (by decide) h0 hs]
    refine ⟨_, rfl, fun h => absurd h (by simp), ?_⟩
    rintro ⟨rest, rfl, -⟩
    exact absurd (List.mem_append_right _ List.mem_cons_self) hs

/-! ## A note that can be read

    A note that lies in the image whole can be checked without a look outside.
    Less is enough: `check_note` takes the bytes of the descriptor only in
    `check_hex_note`, and only when there are as many as the format has. -/

/-- The name and the descriptor are those of the note. -/
structure Readable (H : Host) (m : Bytes) (nhdr : Int) (name desc : Bytes) : Prop where
  name_eq : nameOf m nhdr = some name
  descsz_eq : nDescsz H m nhdr = some desc.length
  desc_at : ∃ a, noteDesc H m nhdr = some a ∧ Holds m a desc

/-- What `check_note` looks at can be read. -/
structure Checkable (H : Host) (m : Bytes) (nhdr : Int) (name : Bytes) (descsz : Nat) :
    Prop where
  name_eq : nameOf m nhdr = some name
  descsz_eq : nDescsz H m nhdr = some descsz
  desc_at : ∃ a, noteDesc H m nhdr = some a
    ∧ (descsz = 19 → ∃ desc, desc.length = 19 ∧ Holds m a desc)

section Reads

variable {H : Host} {m : Bytes} {nhdr : Int} {name desc : Bytes} {descsz : Nat}

theorem Readable.checkable (h : Readable H m nhdr name desc) :
    Checkable H m nhdr name desc.length := by
  obtain ⟨a, hdesc, ha⟩ := h.desc_at
  exact ⟨h.name_eq, h.descsz_eq, a, hdesc, fun h19 => ⟨desc, h19, ha⟩⟩

theorem Checkable.complain (h : Checkable H m nhdr name descsz) (msg : Bytes → Bytes) :
    complain m nhdr msg = some (.reject (msg name)) := by
  rw [SpufsNoteCheck.complain, h.name_eq]
  rfl

theorem hexDigits_total (h : Checkable H m nhdr name descsz) {a : Int}
    (ha : Holds m a desc) {is : List Nat} (his : ∀ i ∈ is, i < desc.length) :
    ∃ v, hexDigits m nhdr a is = some v := by
  induction is with
  | nil => exact ⟨_, rfl⟩
  | cons i is ih =>
      have hi : i < desc.length := his i List.mem_cons_self
      rw [hexDigits, ha.loadByte hi, List.getElem?_eq_getElem hi]
      dsimp only [Option.bind_some]
      by_cases hx : isxdigit desc[i] = true
      · rw [if_pos hx]
        exact ih (fun j hj => his j (List.mem_cons_of_mem _ hj))
      · rw [if_neg hx, h.complain]
        exact ⟨_, rfl⟩

theorem checkHexNote_total (h : Checkable H m nhdr name descsz) :
    ∃ v, checkHexNote H m nhdr = some v := by
  obtain ⟨a, hdesc, hbytes⟩ := h.desc_at
  rw [checkHexNote, hdesc, h.descsz_eq]
  dsimp only [Option.bind_some]
  by_cases hlen : descsz = (str "0x0123456789abcdef").length + 1
  · obtain ⟨desc, h19, ha⟩ := hbytes hlen
    have h0 : loadByte m a = desc[0]? := by
      have hb := ha.loadByte (i := 0) (by omega)
      rwa [Int.natCast_zero, Int.add_zero] at hb
    have h1 : loadByte m (a + 1) = desc[1]? := ha.loadByte (i := 1) (by omega)
    rw [if_neg (not_not_intro hlen), h0, h1, List.getElem?_eq_getElem (by omega),
      List.getElem?_eq_getElem (by omega)]
    dsimp only [Option.bind_some]
    split
    · exact ⟨_, h.complain _⟩
    · split
      · exact ⟨_, h.complain _⟩
      · refine hexDigits_total h ha ?_
        intro i hi
        have := (List.mem_range'_1.mp hi).2
        have hrange : i < 2 + (19 - 1 - 2) := this
        omega
  · rw [if_pos hlen]
    exact ⟨_, h.complain _⟩

theorem checkFile_total (h : Checkable H m nhdr name descsz) (fileName : Bytes)
    {checks : List SpuNoteCheck}
    (hfn : ∀ check ∈ checks, check.fn = none ∨ check.fn = some checkHexNote) :
    ∃ v, checkFile H m nhdr fileName checks = some v := by
  induction checks with
  | nil => exact ⟨_, rfl⟩
  | cons check checks ih =>
      rw [checkFile]
      by_cases hn : fileName = check.name
      · rw [if_neg (not_not_intro hn), h.descsz_eq]
        dsimp only [Option.bind_some]
        split
        · exact ⟨_, h.complain _⟩
        · rcases hfn check List.mem_cons_self with hnone | hhex
          · rw [hnone]
            exact ⟨_, rfl⟩
          · rw [hhex]
            exact checkHexNote_total h
      · rw [if_pos hn]
        exact ih (fun c hc => hfn c (List.mem_cons_of_mem _ hc))

/-- Every entry of the table has either a size or the hexadecimal format. -/
theorem noteChecks_kind :
    ∀ check ∈ noteChecks, (check.size ≠ 0 ∧ check.fn = none)
      ∨ (check.size = 0 ∧ check.fn = some checkHexNote) := by
  intro check hc
  simp only [noteChecks, List.mem_cons, List.not_mem_nil, or_false] at hc
  rcases hc with rfl | rfl | rfl | rfl | rfl | rfl | rfl | rfl | rfl | rfl | rfl | rfl
    | rfl | rfl | rfl | rfl | rfl | rfl | rfl <;> simp

theorem noteChecks_fn :
    ∀ check ∈ noteChecks, check.fn = none ∨ check.fn = some checkHexNote := by
  intro check hc
  exact (noteChecks_kind check hc).imp And.right And.right

/-- **`check_note` returns** where what it looks at can be read. -/
theorem checkNote_total (h : Checkable H m nhdr name descsz) :
    ∃ v, checkNote H m nhdr = some v := by
  rw [checkNote, h.name_eq]
  dsimp only [Option.bind_some]
  cases splitLastSlash name with
  | none => exact ⟨_, rfl⟩
  | some s =>
      obtain ⟨dir, fileName⟩ := s
      dsimp only
      split
      · exact checkFile_total h fileName noteChecks_fn
      · exact ⟨_, rfl⟩

end Reads

end SpufsNoteCheck
