import SpufsTestsuite.EarlyExitProofs
import SpufsTestsuite.NoteSectionProofs

/-! # `parse_notes` — the walk over a note section

    The loop takes the section header by header.  Its bound checks are done in
    `size_t`, its offset is an `int`, and everything it adds comes from the
    file, so the model keeps each conversion of the source.

    A run is stuck when it reads outside of the image or when its fuel is used
    up.  On a well-formed section neither happens: the walk is an early-exit
    loop over the notes (`noteLoop_section`), and what it does with them is
    the action's meaning of an SPU note. -/

namespace SpufsNoteWalk

open CString Image EarlyExit SpufsNoteCheck SpufsNoteSection

/-! ## Runs -/

/-- What parse-core does that can be seen, and what it looks at. -/
inductive Event
  /-- one `printf` or `write` on standard output -/
  | stdout (bytes : Bytes)
  /-- one message on stderr -/
  | stderr (bytes : Bytes)
  /-- `parse_notes` has taken the note at this address -/
  | note (nhdr : Int) (hdr : Nhdr)
  /-- a program header of this size is read -/
  | entry (phdr size : Nat)
  /-- `parse_section` is called: the segment in the file, and the `int` that
      arrives as its size -/
  | segment (offset filesz : Nat) (size : Int)
  deriving DecidableEq

/-- Why a run does not return. -/
inductive Stuck
  | fault
  | fuel
  deriving DecidableEq

/-- The events of a run, and the value it returns. -/
structure Run where
  trace : List Event
  ret : Except Stuck Int
  deriving DecidableEq

/-- A run that has already done something. -/
def Run.after (out : List Event) (r : Run) : Run := ⟨out ++ r.trace, r.ret⟩

@[simp] theorem Run.after_trace (out : List Event) (r : Run) :
    (Run.after out r).trace = out ++ r.trace := rfl

@[simp] theorem Run.after_ret (out : List Event) (r : Run) :
    (Run.after out r).ret = r.ret := rfl

theorem Run.after_after (a b : List Event) (r : Run) :
    Run.after a (Run.after b r) = Run.after (a ++ b) r := by
  rw [Run.after, Run.after, Run.after, List.append_assoc]

def Event.stdout? : Event → Option Bytes
  | .stdout bytes => some bytes
  | _ => none

def Event.note? : Event → Option (Int × Nhdr)
  | .note nhdr hdr => some (nhdr, hdr)
  | _ => none

/-- What was written to standard output, call by call. -/
def written (trace : List Event) : List Bytes := trace.filterMap Event.stdout?

/-- The notes that were taken. -/
def visits (trace : List Event) : List (Int × Nhdr) := trace.filterMap Event.note?

/-! ## `parse_notes` -/

/-- A check that does not return 0 ends the walk. -/
def checked (v : Verdict) : Turn Event Int :=
  ⟨v.stderr.map .stderr, if v.rc ≠ 0 then some (-1) else none⟩

/-- `write(STDOUT_FILENO, note_desc(nhdr), nhdr->n_descsz)`. -/
def dumpDesc (H : Host) (m : Bytes) (nhdr : Int) : Option (Turn Event Int) :=
  (noteDesc H m nhdr).bind fun desc =>
    (nDescsz H m nhdr).bind fun descsz =>
      (load m desc descsz).map fun bytes => ⟨[.stdout bytes], some 0⟩

/-- What each action does with an SPU note. -/
def spuNote (H : Host) (opts : Options) (m : Bytes) (nhdr : Int) :
    Option (Turn Event Int) :=
  let name := noteName nhdr
  match opts.action with
  | .listNotes =>
      (nDescsz H m nhdr).bind fun descsz =>
        (cstr (tailFrom m (name + 4))).map fun s =>
          ⟨[.stdout (str "0x" ++ hex 8 descsz ++ str " " ++ s ++ str "\n")], none⟩
  | .checkNotes => (checkNote H m nhdr).map checked
  | .checkFd => (SpufsNoteCheck.checkFd m nhdr opts.fd).map checked
  | .dumpNote =>
      (streq (tailFrom m name) opts.dumpNoteName.bytes).bind fun full =>
        if full then dumpDesc H m nhdr
        else
          (streq (tailFrom m (name + 4)) opts.dumpNoteName.bytes).bind fun short =>
            if short then dumpDesc H m nhdr else some ⟨[], none⟩
  | .findExec => some ⟨[], none⟩

/-- The body of the loop, behind the bound checks. -/
def noteBody (H : Host) (opts : Options) (m : Bytes) (nhdr : Int) (hdr : Nhdr) :
    Option (Turn Event Int) :=
  if hdr.type ≠ 1 then some ⟨[], none⟩
  else if hdr.namesz < (str "SPU/").length + 1 then some ⟨[], none⟩
  else
    (startsWith (str "SPU/") (tailFrom m (noteName nhdr))).bind fun spu =>
      if spu then spuNote H opts m nhdr else some ⟨[], none⟩

/-- One iteration: the next offset, and what the iteration does. -/
def noteTurn (H : Host) (opts : Options) (m : Bytes) (notes : Int) (size : Nat)
    (offset : Int) : Option (Int × Turn Event Int) :=
  let nhdr := notes + offset
  (nNamesz H m nhdr).bind fun nNamesz =>
    (nDescsz H m nhdr).bind fun nDescsz =>
      let namesz := pad (toInt nNamesz)
      let descsz := pad (toInt nDescsz)
      if H.sizeT (offset + 12 + namesz) > size then
        some (offset,
          ⟨[.stderr (str "note name extends past notes section\n")], some (-1)⟩)
      else if H.sizeT (offset + 12 + namesz + descsz) > size then
        some (offset,
          ⟨[.stderr (str "note descriptor extends past notes section\n")], some (-1)⟩)
      else
        (nType H m nhdr).bind fun type =>
          let hdr : Nhdr := ⟨nNamesz, nDescsz, type⟩
          (noteBody H opts m nhdr hdr).map fun t =>
            (toInt (H.sizeT (offset + (12 + namesz + descsz))),
              ⟨.note nhdr hdr :: t.out, t.ret⟩)

/-- What follows the loop. -/
def notesEnd (opts : Options) : Run :=
  if opts.action = .dumpNote then
    ⟨[.stderr (str "note " ++ opts.dumpNoteName.bytes ++ str " not found\n")], .ok (-1)⟩
  else ⟨[], .ok 0⟩

/-- The loop, from an offset on.  `offset < notes_size` compares as unsigned. -/
def noteLoop (H : Host) (opts : Options) (m : Bytes) (notes : Int) (size : Nat) :
    (fuel : Nat) → (offset : Int) → Run
  | 0, offset =>
      if toUnsigned offset < size then ⟨[], .error .fuel⟩ else notesEnd opts
  | fuel + 1, offset =>
      if toUnsigned offset < size then
        match noteTurn H opts m notes size offset with
        | none => ⟨[], .error .fault⟩
        | some (offset', t) =>
            match t.ret with
            | some rc => ⟨t.out, .ok rc⟩
            | none => .after t.out (noteLoop H opts m notes size fuel offset')
      else notesEnd opts

/-- `parse_notes`. -/
def parseNotes (H : Host) (opts : Options) (fuel : Nat) (m : Bytes) (notes : Int)
    (size : Nat) : Run :=
  noteLoop H opts m notes size fuel 0

section Turns

variable {H : Host} {opts : Options} {m : Bytes} {notes offset : Int}
variable {size : Nat}

theorem noteLoop_done (h : ¬ toUnsigned offset < size) (fuel : Nat) :
    noteLoop H opts m notes size fuel offset = notesEnd opts := by
  cases fuel with
  | zero => rw [noteLoop, if_neg h]
  | succ fuel => rw [noteLoop, if_neg h]

/-- An iteration that returns, or one the loop goes on behind. -/
theorem noteLoop_turn (h : toUnsigned offset < size) {offset' : Int}
    {t : Turn Event Int} (ht : noteTurn H opts m notes size offset = some (offset', t))
    (fuel : Nat) :
    noteLoop H opts m notes size (fuel + 1) offset
      = match t.ret with
        | some rc => ⟨t.out, .ok rc⟩
        | none => .after t.out (noteLoop H opts m notes size fuel offset') := by
  rw [noteLoop, if_pos h, ht]

/-- The header passes the bound checks: what its sizes add up to arrives in
    `size_t` within the section. -/
def Fits (H : Host) (size : Nat) (offset : Int) (namesz descsz : Nat) : Prop :=
  H.sizeT (offset + 12 + pad (toInt namesz)) ≤ size
    ∧ H.sizeT (offset + 12 + pad (toInt namesz) + pad (toInt descsz)) ≤ size

/-- **An iteration, said once**: a check fails, or the body is reached and the
    offset moves by the header and the padded sizes. -/
theorem noteTurn_cases {offset' : Int} {t : Turn Event Int}
    (h : noteTurn H opts m notes size offset = some (offset', t)) :
    ∃ namesz descsz, nNamesz H m (notes + offset) = some namesz
      ∧ nDescsz H m (notes + offset) = some descsz
      ∧ ((∃ msg, offset' = offset ∧ t = ⟨[.stderr msg], some (-1)⟩)
        ∨ (Fits H size offset namesz descsz ∧ ∃ type u,
            nType H m (notes + offset) = some type
            ∧ noteBody H opts m (notes + offset) ⟨namesz, descsz, type⟩ = some u
            ∧ offset' = toInt (H.sizeT
                (offset + (12 + pad (toInt namesz) + pad (toInt descsz))))
            ∧ t = ⟨.note (notes + offset) ⟨namesz, descsz, type⟩ :: u.out, u.ret⟩)) := by
  obtain ⟨namesz, hname, h⟩ := Option.bind_eq_some_iff.mp h
  obtain ⟨descsz, hdesc, h⟩ := Option.bind_eq_some_iff.mp h
  refine ⟨namesz, descsz, hname, hdesc, ?_⟩
  dsimp only at h
  split at h
  · obtain ⟨rfl, rfl⟩ := Prod.mk.inj (Option.some.inj h)
    exact Or.inl ⟨_, rfl, rfl⟩
  · next hfits₁ =>
      split at h
      · obtain ⟨rfl, rfl⟩ := Prod.mk.inj (Option.some.inj h)
        exact Or.inl ⟨_, rfl, rfl⟩
      · next hfits₂ =>
          obtain ⟨type, htype, h⟩ := Option.bind_eq_some_iff.mp h
          obtain ⟨u, hu, h⟩ := Option.map_eq_some_iff.mp h
          obtain ⟨rfl, rfl⟩ := Prod.mk.inj h
          exact Or.inr ⟨⟨Int.not_lt.mp hfits₁, Int.not_lt.mp hfits₂⟩, type, u, htype, hu,
            rfl, rfl⟩

end Turns

/-! ## The events of a walk -/

/-- An event of `parse_notes`. -/
def Event.ofNotes : Event → Bool
  | .stdout _ | .stderr _ | .note _ _ => true
  | .entry _ _ | .segment _ _ _ => false

section OfNotes

variable {H : Host} {opts : Options} {m : Bytes} {nhdr : Int} {t : Turn Event Int}

theorem checked_ofNotes (v : Verdict) : ∀ e ∈ (checked v).out, e.ofNotes = true := by
  intro e he
  obtain ⟨msg, -, rfl⟩ := List.mem_map.mp he
  rfl

theorem dumpDesc_ofNotes (h : dumpDesc H m nhdr = some t) :
    ∀ e ∈ t.out, e.ofNotes = true := by
  obtain ⟨desc, -, h⟩ := Option.bind_eq_some_iff.mp h
  obtain ⟨descsz, -, h⟩ := Option.bind_eq_some_iff.mp h
  obtain ⟨bytes, -, rfl⟩ := Option.map_eq_some_iff.mp h
  intro e he
  rw [List.mem_singleton.mp he]
  rfl

theorem spuNote_ofNotes (h : spuNote H opts m nhdr = some t) :
    ∀ e ∈ t.out, e.ofNotes = true := by
  rw [spuNote] at h
  cases hact : opts.action <;> rw [hact] at h <;> dsimp only at h
  case listNotes =>
    obtain ⟨descsz, -, h⟩ := Option.bind_eq_some_iff.mp h
    obtain ⟨s, -, rfl⟩ := Option.map_eq_some_iff.mp h
    intro e he
    rw [List.mem_singleton.mp he]
    rfl
  case checkNotes =>
    obtain ⟨v, -, rfl⟩ := Option.map_eq_some_iff.mp h
    exact checked_ofNotes v
  case checkFd =>
    obtain ⟨v, -, rfl⟩ := Option.map_eq_some_iff.mp h
    exact checked_ofNotes v
  case dumpNote =>
    obtain ⟨full, -, h⟩ := Option.bind_eq_some_iff.mp h
    cases full with
    | true => exact dumpDesc_ofNotes h
    | false =>
        obtain ⟨short, -, h⟩ := Option.bind_eq_some_iff.mp h
        cases short with
        | true => exact dumpDesc_ofNotes h
        | false =>
            rw [← Option.some.inj h]
            intro e he
            exact nomatch he
  case findExec =>
    rw [← Option.some.inj h]
    intro e he
    exact nomatch he

theorem noteBody_ofNotes {hdr : Nhdr} (h : noteBody H opts m nhdr hdr = some t) :
    ∀ e ∈ t.out, e.ofNotes = true := by
  have hnone : (some ⟨[], none⟩ : Option (Turn Event Int)) = some t
      → ∀ e ∈ t.out, e.ofNotes = true := by
    intro h
    rw [← Option.some.inj h]
    intro e he
    exact nomatch he
  rw [noteBody] at h
  split at h
  · exact hnone h
  · split at h
    · exact hnone h
    · obtain ⟨spu, -, h⟩ := Option.bind_eq_some_iff.mp h
      cases spu with
      | true => exact spuNote_ofNotes h
      | false => exact hnone h

theorem noteTurn_ofNotes {notes offset offset' : Int} {size : Nat}
    (h : noteTurn H opts m notes size offset = some (offset', t)) :
    ∀ e ∈ t.out, e.ofNotes = true := by
  obtain ⟨namesz, descsz, -, -, ⟨msg, -, rfl⟩ | ⟨-, type, u, -, hu, -, rfl⟩⟩ :=
    noteTurn_cases h
  · intro e he
    rw [List.mem_singleton.mp he]
    rfl
  · intro e he
    rcases List.mem_cons.mp he with rfl | he
    · rfl
    · exact noteBody_ofNotes hu e he

theorem notesEnd_ofNotes : ∀ e ∈ (notesEnd opts).trace, e.ofNotes = true := by
  rw [notesEnd]
  split
  · intro e he
    rw [List.mem_singleton.mp he]
    rfl
  · intro e he
    exact nomatch he

/-- **`parse_notes` looks at no program header**, whatever the section holds. -/
theorem noteLoop_ofNotes {notes : Int} {size fuel : Nat} {offset : Int} :
    ∀ e ∈ (noteLoop H opts m notes size fuel offset).trace, e.ofNotes = true := by
  induction fuel generalizing offset with
  | zero =>
      rw [noteLoop]
      split
      · intro e he
        exact nomatch he
      · exact notesEnd_ofNotes
  | succ fuel ih =>
      by_cases h : toUnsigned offset < size
      · cases ht : noteTurn H opts m notes size offset with
        | none =>
            rw [noteLoop, if_pos h, ht]
            intro e he
            exact nomatch he
        | some p =>
            obtain ⟨offset', t⟩ := p
            have hout := noteTurn_ofNotes ht
            rw [noteLoop_turn h ht]
            cases t.ret with
            | some rc => exact hout
            | none =>
                intro e he
                rcases List.mem_append.mp he with he | he
                · exact hout e he
                · exact ih e he
      · rw [noteLoop_done h]
        exact notesEnd_ofNotes

end OfNotes

/-! ## What a note means to an action -/

/-- The line `--list-notes` prints for a note. -/
def listLine (n : Note) : Bytes :=
  str "0x" ++ hex 8 n.desc.length ++ str " " ++ n.spuName ++ str "\n"

/-- `parse_notes` returns at this note. -/
def leaves (H : Host) (opts : Options) (m : Bytes) (p : Int × Note) : Bool :=
  p.2.isSpu && match opts.action with
    | .checkNotes => !(checkNote H m p.1).any (fun v => v.rc == 0)
    | .checkFd => !p.2.inContext opts.fd.bytes
    | .dumpNote => p.2.isNamed opts.dumpNoteName.bytes
    | .listNotes | .findExec => false

/-- What the note puts on standard output. -/
def noteOutput (opts : Options) (n : Note) : List Bytes :=
  if n.isSpu then
    match opts.action with
    | .listNotes => [listLine n]
    | .dumpNote => if n.isNamed opts.dumpNoteName.bytes then [n.desc] else []
    | .checkNotes | .checkFd | .findExec => []
  else []

/-- The value `parse_notes` has for an action that has found what it looks
    for, and the one it has at the end of the section. -/
def leaveValue (opts : Options) : Int := if opts.action = .dumpNote then 0 else -1

def endValue (opts : Options) : Int := if opts.action = .dumpNote then -1 else 0

section Body

variable {H : Host} {opts : Options} {m : Bytes} {a : Int} {n : Note}

/-- What one note does to a run: what it prints, that it takes no further
    note, and whether the walk returns there. -/
structure Means (H : Host) (opts : Options) (m : Bytes) (a : Int) (n : Note)
    (t : Turn Event Int) : Prop where
  written_eq : written t.out = noteOutput opts n
  visits_eq : visits t.out = []
  ret_eq : t.ret = if leaves H opts m (a, n) then some (leaveValue opts) else none

theorem written_checked (v : Verdict) : written (checked v).out = [] := by
  show (v.stderr.map Event.stderr).filterMap Event.stdout? = []
  rw [List.filterMap_map]
  exact List.filterMap_eq_nil_iff.mpr (fun _ _ => rfl)

theorem visits_checked (v : Verdict) : visits (checked v).out = [] := by
  show (v.stderr.map Event.stderr).filterMap Event.note? = []
  rw [List.filterMap_map]
  exact List.filterMap_eq_nil_iff.mpr (fun _ _ => rfl)

theorem noteBody_other (h : Holds m a (n.encode H.big)) (hspu : n.isSpu = false) :
    noteBody H opts m a n.header = some ⟨[], none⟩ := by
  rw [noteBody]
  by_cases ht : n.type = 1
  · rw [if_neg (show ¬ n.header.type ≠ 1 from not_not_intro ht)]
    have hpre : (str "SPU/").isPrefixOf n.name = false := by
      rw [Note.isSpu, ht] at hspu
      exact hspu
    split
    · rfl
    · obtain ⟨r, hr⟩ := tailFrom_name h
      rw [hr, startsWith_append_zero n.name r (by decide), hpre]
      rfl
  · exact if_pos ht

theorem noteBody_spu (h : Holds m a (n.encode H.big)) (hspu : n.isSpu = true) :
    noteBody H opts m a n.header = spuNote H opts m a := by
  obtain ⟨ht, hname⟩ := Note.isSpu_iff.mp hspu
  obtain ⟨r, hr⟩ := tailFrom_name h
  have hlen : ¬ n.header.namesz < (str "SPU/").length + 1 := by
    show ¬ n.name.length + 1 < 4 + 1
    rw [hname, List.length_append]
    have h4 : (str "SPU/").length = 4 := rfl
    omega
  have hpre : (str "SPU/").isPrefixOf n.name = true := by
    rw [List.isPrefixOf_iff_prefix]
    exact ⟨n.spuName, hname.symm⟩
  rw [noteBody, if_neg (show ¬ n.header.type ≠ 1 from not_not_intro ht), if_neg hlen,
    hr, startsWith_append_zero n.name r (by decide), hpre]
  rfl

theorem dumpDesc_note (h : Holds m a (n.encode H.big)) (hsize : n.size < 2 ^ 31) :
    dumpDesc H m a = some ⟨[.stdout n.desc], some 0⟩ := by
  rw [dumpDesc, noteDesc_note h hsize, nDescsz_note h hsize]
  dsimp only [Option.bind_some]
  rw [(holds_desc h).load]
  rfl

theorem spuNote_exec (hspu : n.isSpu = true)
    (hact : opts.action = .findExec) :
    ∃ t, spuNote H opts m a = some t ∧ Means H opts m a n t := by
  refine ⟨⟨[], none⟩, by rw [spuNote, hact], ?_, rfl, ?_⟩
  · rw [noteOutput, if_pos hspu, hact]
    rfl
  · simp [leaves, hact]

variable (h : Holds m a (n.encode H.big)) (hsize : n.size < 2 ^ 31)
variable (hspu : n.isSpu = true)

include h hsize hspu

theorem spuNote_list (hact : opts.action = .listNotes) :
    ∃ t, spuNote H opts m a = some t ∧ Means H opts m a n t := by
  obtain ⟨r, hr⟩ := tailFrom_spuName h (Note.isSpu_iff.mp hspu).2
  have h0 : (0 : UInt8) ∉ n.spuName := fun hn => n.noNul (List.mem_of_mem_drop hn)
  have hbody : spuNote H opts m a = some ⟨[.stdout (listLine n)], none⟩ := by
    rw [spuNote, hact]
    dsimp only
    rw [nDescsz_note h hsize, hr, cstr_append_zero r h0]
    rfl
  refine ⟨_, hbody, ?_, rfl, ?_⟩
  · rw [noteOutput, if_pos hspu, hact]
    rfl
  · simp [leaves, hact]

theorem spuNote_check (hact : opts.action = .checkNotes) :
    ∃ t, spuNote H opts m a = some t ∧ Means H opts m a n t := by
  obtain ⟨v, hv⟩ := checkNote_total (readable_note h hsize).checkable
  have hbody : spuNote H opts m a = some (checked v) := by
    rw [spuNote, hact]
    dsimp only
    rw [hv]
    rfl
  refine ⟨_, hbody, ?_, visits_checked v, ?_⟩
  · rw [written_checked, noteOutput, if_pos hspu, hact]
  · simp [leaves, leaveValue, checked, hspu, hact, hv]

theorem spuNote_fd (hact : opts.action = .checkFd) :
    ∃ t, spuNote H opts m a = some t ∧ Means H opts m a n t := by
  have hname := (Note.isSpu_iff.mp hspu).2
  have h0 : (0 : UInt8) ∉ n.spuName := fun hn => n.noNul (List.mem_of_mem_drop hn)
  obtain ⟨v, hv, hrc⟩ :=
    checkFd_name opts.fd (hname ▸ (readable_note h hsize).name_eq) h0
  have hctx : v.rc = 0 ↔ n.inContext opts.fd.bytes = true := by
    rw [hrc, Note.inContext_iff]
    constructor
    · rintro ⟨rest, hrest, hfd⟩
      exact ⟨rest, hrest ▸ hname, hfd⟩
    · rintro ⟨rest, hrest, hfd⟩
      exact ⟨rest, List.append_cancel_left (hname.symm.trans hrest), hfd⟩
  have hbody : spuNote H opts m a = some (checked v) := by
    rw [spuNote, hact]
    dsimp only
    rw [hv]
    rfl
  refine ⟨_, hbody, ?_, visits_checked v, ?_⟩
  · rw [written_checked, noteOutput, if_pos hspu, hact]
  · simp [leaves, leaveValue, checked, hspu, hact, hctx]

theorem spuNote_dump (hact : opts.action = .dumpNote) :
    ∃ t, spuNote H opts m a = some t ∧ Means H opts m a n t := by
  obtain ⟨r, hr⟩ := tailFrom_name h
  obtain ⟨r', hr'⟩ := tailFrom_spuName h (Note.isSpu_iff.mp hspu).2
  have h0 : (0 : UInt8) ∉ n.spuName := fun hn => n.noNul (List.mem_of_mem_drop hn)
  have hbody : spuNote H opts m a
      = some (if n.isNamed opts.dumpNoteName.bytes then ⟨[.stdout n.desc], some 0⟩
        else ⟨[], none⟩) := by
    rw [spuNote, hact]
    dsimp only
    rw [hr, streq_append_zero r n.noNul opts.dumpNoteName.noNul, hr',
      streq_append_zero r' h0 opts.dumpNoteName.noNul, dumpDesc_note h hsize,
      Note.isNamed]
    cases n.name == opts.dumpNoteName.bytes <;>
      cases n.spuName == opts.dumpNoteName.bytes <;> rfl
  refine ⟨_, hbody, ?_, ?_, ?_⟩
  · rw [noteOutput, if_pos hspu, hact]
    cases n.isNamed opts.dumpNoteName.bytes <;> rfl
  · cases n.isNamed opts.dumpNoteName.bytes <;> rfl
  · cases hn : n.isNamed opts.dumpNoteName.bytes <;>
      simp [leaves, leaveValue, hspu, hact, hn]

omit hspu in
/-- **A note of the section is read whole**, and what it does is what it
    means. -/
theorem noteBody_note :
    ∃ t, noteBody H opts m a n.header = some t ∧ Means H opts m a n t := by
  cases hspu : n.isSpu with
  | false =>
      refine ⟨_, noteBody_other h hspu, ?_, rfl, ?_⟩
      · rw [noteOutput, hspu]
        rfl
      · simp [leaves, hspu]
  | true =>
      rw [noteBody_spu h hspu]
      cases hact : opts.action with
      | listNotes => exact spuNote_list h hsize hspu hact
      | checkNotes => exact spuNote_check h hsize hspu hact
      | checkFd => exact spuNote_fd h hsize hspu hact
      | dumpNote => exact spuNote_dump h hsize hspu hact
      | findExec => exact spuNote_exec hspu hact

end Body

/-! ## The walk over a section -/

section Walk

variable {H : Host} {opts : Options} {m : Bytes}

theorem toInt_eq {x : Int} (h0 : 0 ≤ x) (h : x < 2 ^ 31) : toInt x = x :=
  Int.bmod_eq_of_le (by omega) (by omega)

theorem sizeT_eq {x : Int} (h0 : 0 ≤ x) (h : x < 2 ^ 31) : H.sizeT x = x := by
  rw [Host.sizeT]
  cases H.wide with
  | false => exact Int.emod_eq_of_lt h0 (by simp; omega)
  | true => exact Int.emod_eq_of_lt h0 (by simp; omega)

theorem toUnsigned_eq {x : Int} (h0 : 0 ≤ x) (h : x < 2 ^ 31) : toUnsigned x = x :=
  Int.emod_eq_of_lt h0 (by omega)

/-- What the walk does at a note of the section. -/
def bodyTurn (H : Host) (opts : Options) (m : Bytes) (p : Int × Note) : Turn Event Int :=
  (noteBody H opts m p.1 p.2.header).getD ⟨[], none⟩

def noteStep (H : Host) (opts : Options) (m : Bytes) (p : Int × Note) :
    Turn Event Int :=
  ⟨.note p.1 p.2.header :: (bodyTurn H opts m p).out, (bodyTurn H opts m p).ret⟩

/-- **One iteration decodes one note**: it passes both bound checks and moves
    the offset to the next one. -/
theorem noteTurn_note {notes : Int} {offset size : Nat} {n : Note}
    (h : Holds m (notes + offset) (n.encode H.big)) (hn : offset + n.size ≤ size)
    (hsize : size < 2 ^ 31) :
    noteTurn H opts m notes size offset
      = some (((offset + n.size : Nat) : Int), noteStep H opts m (notes + offset, n)) := by
  have hsz : n.size < 2 ^ 31 := by omega
  have hparts : n.size = 12 + padTo (n.name.length + 1) + padTo n.desc.length := rfl
  obtain ⟨t, ht, -⟩ := @noteBody_note H opts m _ n h hsz
  obtain ⟨hname, hdesc⟩ := Note.lengths hsz
  -- no conversion of the bound checks changes a value
  have hcheck : ∀ x : Int, 0 ≤ x → x ≤ size → ¬ H.sizeT x > size := by
    intro x h0 hx
    rw [sizeT_eq h0 (by omega)]
    omega
  rw [noteTurn]
  dsimp only
  rw [nNamesz_note h hsz, Option.bind_some, nDescsz_note h hsz, Option.bind_some,
    pad_toInt hname, pad_toInt hdesc, if_neg (hcheck _ (by omega) (by omega)),
    if_neg (hcheck _ (by omega) (by omega)), nType_note h, Option.bind_some, noteStep,
    bodyTurn]
  dsimp only
  rw [show (⟨n.name.length + 1, n.desc.length, n.type⟩ : Nhdr) = n.header from rfl, ht,
    sizeT_eq (by omega) (by omega), toInt_eq (by omega) (by omega), hparts]
  simp [Int.add_assoc]

/-- A walk that has come to its end, or has been left. -/
def sectionRun (opts : Options) (t : Turn Event Int) : Run :=
  match t.ret with
  | some rc => ⟨t.out, .ok rc⟩
  | none => .after t.out (notesEnd opts)

/-- **The loop over a section is the walk over its notes.** -/
theorem noteLoop_section {notes : Int} {size fuel : Nat} {ns : List Note} {offset : Nat}
    (h : Holds m (notes + offset) (encodeNotes H.big ns))
    (hend : offset + (encodeNotes H.big ns).length = size) (hsize : size < 2 ^ 31)
    (hfuel : ns.length ≤ fuel) :
    noteLoop H opts m notes size fuel offset
      = sectionRun opts (walk (noteStep H opts m) (place (notes + offset) ns)) := by
  induction ns generalizing offset fuel with
  | nil =>
      have hdone : ¬ toUnsigned offset < size := by
        rw [toUnsigned_eq (by omega) (by omega)]
        have h0 : (encodeNotes H.big []).length = 0 := rfl
        omega
      rw [noteLoop_done hdone]
      rfl
  | cons n ns ih =>
      rw [encodeNotes_cons] at h hend
      rw [List.length_append, Note.encode_length] at hend
      have hpos : 12 ≤ n.size := by
        rw [Note.size]
        omega
      have hmore : toUnsigned offset < size := by
        rw [toUnsigned_eq (by omega) (by omega)]
        omega
      have htail : Holds m (notes + (offset + n.size : Nat)) (encodeNotes H.big ns) := by
        have hr := h.right
        rw [Note.encode_length, Int.add_assoc] at hr
        exact hr
      obtain ⟨fuel, rfl⟩ : ∃ k, fuel = k + 1 :=
        ⟨fuel - 1, by rw [List.length_cons] at hfuel; omega⟩
      have hrest := @ih fuel (offset + n.size) htail (by omega)
        (by rw [List.length_cons] at hfuel; omega)
      have hplace : notes + offset + n.size = notes + (offset + n.size : Nat) := by omega
      rw [noteLoop_turn hmore (noteTurn_note h.left (by omega) hsize), place, hplace]
      cases hret : (noteStep H opts m (notes + offset, n)).ret with
      | some rc => rw [walk_stop hret, sectionRun]
      | none =>
          rw [walk_step hret]
          dsimp only
          rw [hrest, sectionRun, sectionRun]
          cases (walk (noteStep H opts m)
            (place (notes + (offset + n.size : Nat)) ns)).ret with
          | some rc => rfl
          | none => simp [Run.after]

/-- What a run over the placed notes has done. -/
structure Walked (H : Host) (opts : Options) (m : Bytes) (ps : List (Int × Note))
    (r : Run) : Prop where
  visits_eq : visits r.trace
    = (upTo (leaves H opts m) ps).map (fun p => (p.1, p.2.header))
  written_eq : written r.trace
    = (upTo (leaves H opts m) ps).flatMap (fun p => noteOutput opts p.2)
  ret_eq : r.ret = .ok (if ps.any (leaves H opts m) then leaveValue opts
    else endValue opts)

theorem notesEnd_spec (opts : Options) :
    visits (notesEnd opts).trace = [] ∧ written (notesEnd opts).trace = []
      ∧ (notesEnd opts).ret = .ok (endValue opts) := by
  rw [notesEnd, endValue]
  by_cases hact : opts.action = .dumpNote
  · rw [if_pos hact, if_pos hact]
    exact ⟨rfl, rfl, rfl⟩
  · rw [if_neg hact, if_neg hact]
    exact ⟨rfl, rfl, rfl⟩

/-- Behind the loop nothing is taken and nothing printed. -/
theorem sectionRun_spec (opts : Options) (t : Turn Event Int) :
    visits (sectionRun opts t).trace = visits t.out
      ∧ written (sectionRun opts t).trace = written t.out
      ∧ (sectionRun opts t).ret = .ok (t.ret.getD (endValue opts)) := by
  obtain ⟨hv, hw, hr⟩ := notesEnd_spec opts
  rw [sectionRun]
  cases t.ret with
  | some rc => exact ⟨rfl, rfl, rfl⟩
  | none =>
      refine ⟨?_, ?_, hr⟩
      · show (t.out ++ (notesEnd opts).trace).filterMap Event.note? = _
        rw [List.filterMap_append]
        exact (congrArg (visits t.out ++ ·) hv).trans (List.append_nil _)
      · show (t.out ++ (notesEnd opts).trace).filterMap Event.stdout? = _
        rw [List.filterMap_append]
        exact (congrArg (written t.out ++ ·) hw).trans (List.append_nil _)

/-- **`parse_notes` on a well-formed section** takes its notes one after the
    other, up to the one its action returns at. -/
theorem parseNotes_walked {a : Int} {ns : List Note} {fuel : Nat}
    (h : Holds m a (encodeNotes H.big ns))
    (hsize : (encodeNotes H.big ns).length < 2 ^ 31) (hfuel : ns.length ≤ fuel) :
    Walked H opts m (place a ns)
      (parseNotes H opts fuel m a (encodeNotes H.big ns).length) := by
  have hmeans : ∀ p ∈ place a ns, Means H opts m p.1 p.2 (bodyTurn H opts m p) := by
    intro p hp
    obtain ⟨hm, hle⟩ := holds_of_mem_place h p hp
    obtain ⟨t, ht, hmean⟩ := @noteBody_note H opts m _ _ hm (by omega)
    rw [bodyTurn, ht]
    exact hmean
  have hret : ∀ p ∈ place a ns, (noteStep H opts m p).ret
      = if leaves H opts m p then some (leaveValue opts) else none :=
    fun p hp => (hmeans p hp).ret_eq
  have hrun : parseNotes H opts fuel m a (encodeNotes H.big ns).length
      = sectionRun opts (walk (noteStep H opts m) (place a ns)) := by
    have hloop := @noteLoop_section H opts m a _ fuel ns 0
      (by rw [Int.natCast_zero, Int.add_zero]; exact h) (Nat.zero_add _) hsize hfuel
    rw [Int.natCast_zero, Int.add_zero] at hloop
    exact hloop
  obtain ⟨hv, hw, hr⟩ := sectionRun_spec opts (walk (noteStep H opts m) (place a ns))
  rw [hrun]
  refine ⟨?_, ?_, ?_⟩
  · rw [hv, visits, @walk_out _ _ _ _ _ _ _ _ _ (fun p => [(p.1, p.2.header)]) hret]
    · exact List.flatMap_pure_eq_map (fun p : Int × Note => (p.1, p.2.header)) _
    · intro p hp
      exact congrArg ((p.1, p.2.header) :: ·) (hmeans p hp).visits_eq
  · rw [hw, written, walk_out hret]
    intro p hp
    exact (hmeans p hp).written_eq
  · rw [hr, walk_ret hret]
    cases (place a ns).any (leaves H opts m) <;> rfl

end Walk

/-! ## The four actions -/

section Actions

variable {H : Host} {opts : Options} {m : Bytes} {a : Int} {ns : List Note} {r : Run}

/-- `--list-notes` goes through the whole section. -/
theorem Walked.list (h : Walked H opts m (place a ns) r)
    (hact : opts.action = .listNotes) :
    visits r.trace = (place a ns).map (fun p => (p.1, p.2.header))
      ∧ written r.trace = (ns.filter Note.isSpu).map listLine ∧ r.ret = .ok 0 := by
  have hstay : ∀ p ∈ place a ns, leaves H opts m p = false := by
    intro p _
    simp [leaves, hact]
  have hout : ∀ ps : List (Int × Note), ps.flatMap (fun p => noteOutput opts p.2)
      = ((ps.map Prod.snd).filter Note.isSpu).map listLine := by
    intro ps
    induction ps with
    | nil => rfl
    | cons p ps ih =>
        rw [List.flatMap_cons, ih, List.map_cons, List.filter_cons, noteOutput, hact]
        cases p.2.isSpu <;> rfl
  refine ⟨?_, ?_, ?_⟩
  · rw [h.visits_eq, upTo_eq_self hstay]
  · rw [h.written_eq, upTo_eq_self hstay, hout, place_map_snd]
  · rw [h.ret_eq, List.any_eq_false.mpr (by simpa using hstay), endValue, hact]
    rfl

/-- `--find-exec` finds nothing wrong with a section. -/
theorem Walked.exec (h : Walked H opts m (place a ns) r)
    (hact : opts.action = .findExec) : r.ret = .ok 0 := by
  have hstay : ∀ p ∈ place a ns, leaves H opts m p = false := by
    intro p _
    simp [leaves, hact]
  rw [h.ret_eq, List.any_eq_false.mpr (by simpa using hstay), endValue, hact]
  rfl

/-- The two checks print nothing and pass when no note fails. -/
theorem Walked.check (h : Walked H opts m (place a ns) r)
    (hact : opts.action = .checkNotes ∨ opts.action = .checkFd) :
    written r.trace = []
      ∧ (r.ret = .ok 0 ↔ ∀ p ∈ place a ns, leaves H opts m p = false)
      ∧ (r.ret = .ok 0
        → visits r.trace = (place a ns).map (fun p => (p.1, p.2.header))) := by
  have hout : ∀ n : Note, noteOutput opts n = [] := by
    intro n
    rw [noteOutput]
    rcases hact with hact | hact <;> rw [hact] <;> split <;> rfl
  have hend : endValue opts = 0 ∧ leaveValue opts = -1 := by
    rw [endValue, leaveValue]
    rcases hact with hact | hact <;> rw [hact] <;> exact ⟨rfl, rfl⟩
  have hpass : r.ret = .ok 0 ↔ ∀ p ∈ place a ns, leaves H opts m p = false := by
    rw [h.ret_eq, hend.1, hend.2]
    cases hany : (place a ns).any (leaves H opts m) with
    | false =>
        exact ⟨fun _ p hp => by simpa using List.any_eq_false.mp hany p hp, fun _ => rfl⟩
    | true =>
        obtain ⟨p, hp, hleave⟩ := List.any_eq_true.mp hany
        refine ⟨fun hr => absurd (Except.ok.inj hr) (by decide), fun hall => ?_⟩
        rw [hall p hp] at hleave
        exact nomatch hleave
  refine ⟨?_, hpass, ?_⟩
  · rw [h.written_eq]
    exact List.flatMap_eq_nil_iff.mpr (fun p _ => hout p.2)
  · intro hr
    rw [h.visits_eq, upTo_eq_self (hpass.mp hr)]

/-- `--print-note` prints the first note of that name. -/
theorem Walked.dump (h : Walked H opts m (place a ns) r)
    (hact : opts.action = .dumpNote) :
    written r.trace = ((firstNamed opts.dumpNoteName.bytes ns).map Note.desc).toList
      ∧ r.ret = .ok (if (firstNamed opts.dumpNoteName.bytes ns).isSome then 0 else -1)
      ∧ (firstNamed opts.dumpNoteName.bytes ns = none
        → visits r.trace = (place a ns).map (fun p => (p.1, p.2.header))) := by
  have hleave : ∀ p, leaves H opts m p
      = (p.2.isSpu && p.2.isNamed opts.dumpNoteName.bytes) := by
    intro p
    rw [leaves, hact]
  have hout : ∀ ps : List (Int × Note),
      (upTo (leaves H opts m) ps).flatMap (fun p => noteOutput opts p.2)
      = ((firstNamed opts.dumpNoteName.bytes (ps.map Prod.snd)).map Note.desc).toList := by
    intro ps
    induction ps with
    | nil => rfl
    | cons p ps ih =>
        rw [upTo, List.map_cons, firstNamed, List.find?_cons, hleave]
        cases hp : p.2.isSpu && p.2.isNamed opts.dumpNoteName.bytes with
        | true =>
            rw [Bool.and_eq_true] at hp
            simp [noteOutput, hact, hp.1, hp.2]
        | false =>
            have hnone : noteOutput opts p.2 = [] := by
              rw [noteOutput, hact]
              cases hspu : p.2.isSpu with
              | false => rfl
              | true =>
                  rw [hspu, Bool.true_and] at hp
                  rw [hp]
                  rfl
            rw [if_neg Bool.false_ne_true, List.flatMap_cons, hnone]
            exact ih
  have hany : (place a ns).any (leaves H opts m)
      = (firstNamed opts.dumpNoteName.bytes ns).isSome := by
    rw [← place_map_snd a ns, firstNamed, List.isSome_find?, List.any_map,
      place_map_snd]
    exact congrArg ((place a ns).any ·) (funext hleave)
  refine ⟨?_, ?_, ?_⟩
  · rw [h.written_eq, hout, place_map_snd]
  · rw [h.ret_eq, hany, leaveValue, endValue, if_pos hact, if_pos hact]
  · intro hnone
    rw [hnone] at hany
    have hstay := List.any_eq_false.mp hany
    rw [h.visits_eq, upTo_eq_self (fun p hp => by simpa using hstay p hp)]

/-- What a run over the notes of a section has to do. -/
structure Decodes (H : Host) (opts : Options) (m : Bytes) (a : Int) (ns : List Note)
    (r : Run) : Prop where
  /-- the notes are taken in order, up to the one the action returns at -/
  visits_eq : visits r.trace
    = (upTo (leaves H opts m) (place a ns)).map (fun p => (p.1, p.2.header))
  listNotes : opts.action = .listNotes →
    visits r.trace = (place a ns).map (fun p => (p.1, p.2.header))
      ∧ written r.trace = (ns.filter Note.isSpu).map listLine ∧ r.ret = .ok 0
  checkNotes : opts.action = .checkNotes →
    (r.ret = .ok 0 ↔ ∀ p ∈ place a ns, p.2.isSpu = true →
      ∃ v, checkNote H m p.1 = some v ∧ v.rc = 0)
  checkFd : opts.action = .checkFd →
    (r.ret = .ok 0 ↔ ∀ n ∈ ns, n.isSpu = true →
      ∃ rest, n.name = str "SPU/" ++ (opts.fd.bytes ++ 47 :: rest)
        ∧ (47 : UInt8) ∉ opts.fd.bytes)
  checks_all : opts.action = .checkNotes ∨ opts.action = .checkFd → r.ret = .ok 0 →
    visits r.trace = (place a ns).map (fun p => (p.1, p.2.header))
  dumpNote : opts.action = .dumpNote →
    match firstNamed opts.dumpNoteName.bytes ns with
    | some n => written r.trace = [n.desc] ∧ r.ret = .ok 0
    | none => written r.trace = [] ∧ r.ret = .ok (-1)
        ∧ visits r.trace = (place a ns).map (fun p => (p.1, p.2.header))

theorem Walked.decodes (h : Walked H opts m (place a ns) r) :
    Decodes H opts m a ns r where
  visits_eq := h.visits_eq
  listNotes := h.list
  checkNotes hact := by
    rw [(h.check (Or.inl hact)).2.1]
    refine forall_congr' fun p => imp_congr_right fun _ => ?_
    rw [leaves, hact]
    cases p.2.isSpu with
    | false => simp
    | true =>
        cases hv : checkNote H m p.1 with
        | none => simp
        | some v => simp
  checkFd hact := by
    rw [(h.check (Or.inr hact)).2.1]
    have hnote : ∀ p : Int × Note, leaves H opts m p = false
        ↔ (p.2.isSpu = true → p.2.inContext opts.fd.bytes = true) := by
      intro p
      rw [leaves, hact]
      cases p.2.isSpu <;> simp
    constructor
    · intro hall n hn hspu
      rw [← place_map_snd a ns] at hn
      obtain ⟨p, hp, rfl⟩ := List.mem_map.mp hn
      exact Note.inContext_iff.mp ((hnote p).mp (hall p hp) hspu)
    · intro hall p hp
      rw [hnote]
      intro hspu
      have hn : p.2 ∈ ns := by
        rw [← place_map_snd a ns]
        exact List.mem_map_of_mem hp
      exact Note.inContext_iff.mpr (hall p.2 hn hspu)
  checks_all hact := (h.check hact).2.2
  dumpNote hact := by
    obtain ⟨hw, hr, hv⟩ := h.dump hact
    cases hfirst : firstNamed opts.dumpNoteName.bytes ns with
    | none =>
        rw [hfirst] at hw hr
        exact ⟨hw, hr, hv hfirst⟩
    | some n =>
        rw [hfirst] at hw hr
        exact ⟨hw, hr⟩

end Actions

/-- **Decoding a well-formed note section.**  Wherever the section lies in the
    file, `parse_notes` takes exactly its notes, in order, and every action
    does to them what it is there for. -/
theorem parseNotes_section (H : Host) (opts : Options) (ns : List Note)
    (pre post : Bytes) (hsize : (encodeNotes H.big ns).length < 2 ^ 31) {fuel : Nat}
    (hfuel : ns.length ≤ fuel) :
    Decodes H opts (pre ++ (encodeNotes H.big ns ++ post)) pre.length ns
      (parseNotes H opts fuel (pre ++ (encodeNotes H.big ns ++ post)) pre.length
        (encodeNotes H.big ns).length) :=
  (parseNotes_walked ⟨pre, post, rfl, rfl⟩ hsize hfuel).decodes

/-- A note of an SPU context; three bytes pad its descriptor. -/
def sampleNote : Note where
  type := 1
  name := str "SPU/3/mem12"
  namePad := []
  desc := [1, 2, 3, 4, 5]
  descPad := [0, 255, 0]
  type_lt := spuType_lt
  noNul := by decide
  namePad_length := rfl
  descPad_length := rfl

def sampleOptions : Options where
  action := .dumpNote
  dumpNoteName := ⟨str "3/mem12", by decide⟩
  fd := ⟨[], noNul_nil⟩

/-- A note of the same context without a descriptor. -/
def emptyNote : Note where
  type := 1
  name := str "SPU/3/npc"
  namePad := [0, 0]
  desc := []
  descPad := []
  type_lt := spuType_lt
  noNul := by decide
  namePad_length := rfl
  descPad_length := rfl

/-- A note of the process. -/
def coreNote : Note where
  type := 3
  name := str "CORE"
  namePad := [1, 2, 3]
  desc := [0, 0, 0, 42]
  descPad := []
  type_lt := by decide
  noNul := by decide
  namePad_length := rfl
  descPad_length := rfl

def sampleNotes : List Note := [coreNote, sampleNote, emptyNote, sampleNote]

theorem parseNotes_section_sample :
    (encodeNotes true sampleNotes).length < 2 ^ 31 ∧
      Decodes ⟨true, true⟩ sampleOptions ([7] ++ (encodeNotes true sampleNotes ++ [9])) 1
        sampleNotes
        (parseNotes ⟨true, true⟩ sampleOptions 4
          ([7] ++ (encodeNotes true sampleNotes ++ [9])) 1
          (encodeNotes true sampleNotes).length) :=
  ⟨by decide, parseNotes_section ⟨true, true⟩ sampleOptions sampleNotes [7] [9]
    (by decide) (Nat.le_refl 4)⟩

end SpufsNoteWalk
