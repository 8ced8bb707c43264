import SpufsTestsuite.NoteCheckProofs

/-! # Note sections — notes and their bytes

    A note section is a sequence of notes.  Each of them is a header of three
    words in the byte order of the host, the name with its NUL and the
    descriptor, both padded to a multiple of 4 bytes; what the padding holds
    is arbitrary.

    `Note` carries what makes a note well formed, so that every list of notes
    has a serialisation.  The field lemmas say what parse-core reads where an
    image holds one. -/

namespace SpufsNoteSection

open CString Image SpufsNoteCheck

/-- The next multiple of 4. -/
def padTo (n : Nat) : Nat := (n + 3) / 4 * 4

theorem le_padTo (n : Nat) : n ≤ padTo n := by
  rw [padTo]
  omega

/-- A note, with the bytes its name and its descriptor are padded with. -/
structure Note where
  type : Nat
  name : Bytes
  namePad : Bytes
  desc : Bytes
  descPad : Bytes
  type_lt : type < 2 ^ 32
  noNul : (0 : UInt8) ∉ name
  namePad_length : name.length + 1 + namePad.length = padTo (name.length + 1)
  descPad_length : desc.length + descPad.length = padTo desc.length

/-- The type that marks a note of an SPU context fits its word. -/
theorem spuType_lt : 1 < 2 ^ 32 := by decide

/-- The header of a note. -/
def Note.header (n : Note) : Nhdr := ⟨n.name.length + 1, n.desc.length, n.type⟩

/-- The bytes of a note. -/
def Note.encode (big : Bool) (n : Note) : Bytes :=
  Image.encode big 4 (n.name.length + 1)
    ++ (Image.encode big 4 n.desc.length
      ++ (Image.encode big 4 n.type
        ++ ((n.name ++ 0 :: n.namePad) ++ (n.desc ++ n.descPad))))

/-- How many bytes a note takes. -/
def Note.size (n : Note) : Nat := 12 + padTo (n.name.length + 1) + padTo n.desc.length

/-- The bytes of a note section. -/
def encodeNotes (big : Bool) (ns : List Note) : Bytes := ns.flatMap (Note.encode big)

/-- The notes of a section, each with the address of its header. -/
def place : (a : Int) → List Note → List (Int × Note)
  | _, [] => []
  | a, n :: ns => (a, n) :: place (a + n.size) ns

/-- An SPU note: its type is 1 and its name starts with `SPU/`. -/
def Note.isSpu (n : Note) : Bool := n.type == 1 && (str "SPU/").isPrefixOf n.name

/-- The name without `SPU/`. -/
def Note.spuName (n : Note) : Bytes := n.name.drop 4

/-- The note goes by this name, with or without `SPU/`. -/
def Note.isNamed (name : Bytes) (n : Note) : Bool := n.name == name || n.spuName == name

/-- The first component behind `SPU/` is this one. -/
def Note.inContext (fd : Bytes) (n : Note) : Bool :=
  !fd.contains 47 && (str "SPU/" ++ fd ++ str "/").isPrefixOf n.name

/-- The first SPU note of that name. -/
def firstNamed (name : Bytes) (ns : List Note) : Option Note :=
  ns.find? (fun n => n.isSpu && n.isNamed name)

/-- A note is an SPU note when its name is `SPU/` and something. -/
theorem Note.isSpu_iff {n : Note} :
    n.isSpu = true ↔ n.type = 1 ∧ n.name = str "SPU/" ++ n.spuName := by
  rw [Note.isSpu, Bool.and_eq_true, beq_iff_eq, List.isPrefixOf_iff_prefix]
  constructor
  · rintro ⟨ht, s, hs⟩
    refine ⟨ht, ?_⟩
    rw [Note.spuName, ← hs]
    rfl
  · rintro ⟨ht, hn⟩
    exact ⟨ht, n.spuName, hn.symm⟩

/-- The component is the one asked for, and it ends at a slash. -/
theorem Note.inContext_iff {fd : Bytes} {n : Note} :
    n.inContext fd = true ↔
      ∃ rest, n.name = str "SPU/" ++ (fd ++ 47 :: rest) ∧ (47 : UInt8) ∉ fd := by
  rw [Note.inContext, Bool.and_eq_true, List.isPrefixOf_iff_prefix]
  constructor
  · rintro ⟨hfd, rest, hrest⟩
    refine ⟨rest, ?_, by simpa using hfd⟩
    rw [← hrest]
    simp only [List.append_assoc]
    rfl
  · rintro ⟨rest, hn, hfd⟩
    refine ⟨by simpa using hfd, rest, ?_⟩
    rw [hn]
    simp only [List.append_assoc]
    rfl

theorem Note.encode_length (big : Bool) (n : Note) : (n.encode big).length = n.size := by
  have hname := n.namePad_length
  have hdesc := n.descPad_length
  rw [Note.encode, Note.size]
  simp only [List.length_append, List.length_cons, Image.encode_length]
  omega

@[simp] theorem encodeNotes_cons (big : Bool) (n : Note) (ns : List Note) :
    encodeNotes big (n :: ns) = n.encode big ++ encodeNotes big ns :=
  List.flatMap_cons

/-- The notes, without their addresses. -/
@[simp] theorem place_map_snd (a : Int) (ns : List Note) :
    (place a ns).map Prod.snd = ns := by
  induction ns generalizing a with
  | nil => rfl
  | cons n ns ih => rw [place, List.map_cons, ih]

/-- Every note of a section lies where it was placed. -/
theorem holds_of_mem_place {big : Bool} {m : Bytes} {a : Int} {ns : List Note}
    (h : Holds m a (encodeNotes big ns)) :
    ∀ p ∈ place a ns, Holds m p.1 (p.2.encode big)
      ∧ p.2.size ≤ (encodeNotes big ns).length := by
  induction ns generalizing a with
  | nil =>
      intro p hp
      exact nomatch hp
  | cons n ns ih =>
      intro p hp
      rw [encodeNotes_cons] at h ⊢
      have hsize := Note.encode_length big n
      rw [List.length_append]
      rcases List.mem_cons.mp hp with rfl | hp
      · exact ⟨h.left, by rw [hsize]; exact Nat.le_add_right _ _⟩
      · have htail : Holds m (a + n.size) (encodeNotes big ns) := by
          rw [← hsize]
          exact h.right
        obtain ⟨hm, hle⟩ := ih htail p hp
        exact ⟨hm, by omega⟩

/-! ## What parse-core reads in a note -/

/-- Below 2^31 `pad` is the arithmetic it stands for. -/
theorem pad_toInt {n : Nat} (h : n + 3 < 2 ^ 31) : pad (toInt n) = padTo n := by
  have h1 : toInt n = n := Int.bmod_eq_of_le (by omega) (by omega)
  have h2 : toInt ((n : Int) + 3) = n + 3 := Int.bmod_eq_of_le (by omega) (by omega)
  rw [pad, h1, h2, padTo]
  omega

section Fields

variable {H : Host} {m : Bytes} {a : Int} {n : Note}

theorem Note.lengths (hsize : n.size < 2 ^ 31) :
    n.name.length + 1 + 3 < 2 ^ 31 ∧ n.desc.length + 3 < 2 ^ 31 := by
  have hname := le_padTo (n.name.length + 1)
  have hdesc := le_padTo n.desc.length
  rw [Note.size] at hsize
  omega

variable (h : Holds m a (n.encode H.big))

include h

theorem nNamesz_note (hsize : n.size < 2 ^ 31) :
    nNamesz H m a = some (n.name.length + 1) := by
  have hlt := (Note.lengths hsize).1
  exact h.left.loadNat (by omega)

theorem nDescsz_note (hsize : n.size < 2 ^ 31) :
    nDescsz H m a = some n.desc.length := by
  have hlt := (Note.lengths hsize).2
  have hd := h.right.left
  rw [Image.encode_length] at hd
  exact hd.loadNat (by omega)

theorem nType_note : nType H m a = some n.type := by
  have ht := h.right.right.left
  rw [Image.encode_length, Image.encode_length, Int.add_assoc] at ht
  exact ht.loadNat n.type_lt

/-- Behind the header the name begins. -/
theorem holds_name : Holds m (noteName a) (n.name ++ 0 :: n.namePad) := by
  have hn := h.right.right.right.left
  rw [Image.encode_length, Image.encode_length, Image.encode_length, Int.add_assoc,
    Int.add_assoc] at hn
  exact hn

/-- The name is followed by its own NUL. -/
theorem tailFrom_name : ∃ r, tailFrom m (noteName a) = n.name ++ 0 :: r := by
  obtain ⟨post, hp⟩ := (holds_name h).tailFrom
  rw [List.append_assoc, List.cons_append] at hp
  exact ⟨n.namePad ++ post, hp⟩

/-- So is what follows the prefix. -/
theorem tailFrom_spuName (hspu : n.name = str "SPU/" ++ n.spuName) :
    ∃ r, tailFrom m (noteName a + 4) = n.spuName ++ 0 :: r := by
  have hn := holds_name h
  rw [hspu, List.append_assoc] at hn
  obtain ⟨post, hp⟩ := hn.right.tailFrom
  rw [List.append_assoc, List.cons_append] at hp
  exact ⟨n.namePad ++ post, hp⟩

theorem noteDesc_note (hsize : n.size < 2 ^ 31) :
    noteDesc H m a = some (a + 12 + padTo (n.name.length + 1)) := by
  rw [noteDesc, nNamesz_note h hsize]
  exact congrArg some (congrArg (a + 12 + ·) (pad_toInt (Note.lengths hsize).1))

theorem holds_desc : Holds m (a + 12 + padTo (n.name.length + 1)) n.desc := by
  have hd := h.right.right.right.right.left
  have hpad := n.namePad_length
  rw [Image.encode_length, Image.encode_length, Image.encode_length, List.length_append,
    List.length_cons] at hd
  have haddr : a + (4 : Nat) + (4 : Nat) + (4 : Nat)
      + ((n.name.length + (n.namePad.length + 1) : Nat) : Int)
      = a + 12 + padTo (n.name.length + 1) := by
    omega
  rw [haddr] at hd
  exact hd

/-- **A note that lies in the image can be read whole.** -/
theorem readable_note (hsize : n.size < 2 ^ 31) : Readable H m a n.name n.desc where
  name_eq := by
    obtain ⟨r, hr⟩ := tailFrom_name h
    rw [nameOf, hr]
    exact cstr_append_zero r n.noNul
  descsz_eq := nDescsz_note h hsize
  desc_at := ⟨_, noteDesc_note h hsize, holds_desc h⟩

end Fields

end SpufsNoteSection
