import SpufsTestsuite.NoteSectionProofs

/-! # The descriptors `check_note` accepts

    The table `note_checks` gives each file of a context a size or the check
    for a hexadecimal number; other files have no entry and are let through.
    What the check of a file accepts is therefore a statement about the name
    and the descriptor alone (`checkFile_passes`).

    The format of a number is nineteen bytes, the last of them a NUL.
    `check_hex_note` counts that byte but does not look at it, and so accepts
    numbers without an end as well (`checkNote_content`). -/

namespace SpufsNoteDesc

open CString Image SpufsNoteCheck SpufsNoteSection

/-- The check returns 0. -/
def Passes (v : Option Verdict) : Prop := v.map Verdict.rc = some 0

@[simp] theorem passes_accept : Passes (some .accept) := rfl

@[simp] theorem not_passes_reject (msg : Bytes) : ¬ Passes (some (.reject msg)) := by
  intro h
  exact absurd (Option.some.inj h) (by simp)

/-- The entry of the table for a file. -/
def entryOf (fileName : Bytes) : Option SpuNoteCheck :=
  noteChecks.find? (fun check => fileName == check.name)

/-- Sixteen hexadecimal digits behind `0x`, and a NUL. -/
def HexFormat (desc : Bytes) : Prop :=
  ∃ digits : Bytes, digits.length = 16 ∧ (∀ c ∈ digits, isxdigit c = true)
    ∧ desc = str "0x" ++ (digits ++ [0])

/-- What the table asks of the descriptor of a file. -/
def ValidDesc (fileName desc : Bytes) : Prop :=
  match entryOf fileName with
  | none => True
  | some check => (check.size ≠ 0 ∧ check.size = desc.length)
      ∨ (check.fn.isSome = true ∧ HexFormat desc)

/-- The entry of the file has a function, which is `check_hex_note`. -/
def HexEntry (fileName : Bytes) : Prop :=
  ∃ check, entryOf fileName = some check ∧ check.fn.isSome = true

/-- Sixteen hexadecimal digits behind `0x`, and a byte that is no NUL. -/
def Unterminated (desc : Bytes) : Prop :=
  ∃ (digits : Bytes) (last : UInt8), digits.length = 16 ∧ (∀ c ∈ digits, isxdigit c = true)
    ∧ last ≠ 0 ∧ desc = str "0x" ++ (digits ++ [last])

theorem Unterminated.not_format {desc : Bytes} (h : Unterminated desc) : ¬ HexFormat desc := by
  obtain ⟨digits, last, -, -, hlast, rfl⟩ := h
  rintro ⟨digits', -, -, heq⟩
  obtain ⟨-, hnul⟩ := List.append_inj' (List.append_cancel_left heq) rfl
  exact hlast (List.singleton_inj.mp hnul)

/-- An entry with a function has no size. -/
theorem HexEntry.not_valid {fileName desc : Bytes} (h : HexEntry fileName)
    (hd : Unterminated desc) : ¬ ValidDesc fileName desc := by
  obtain ⟨check, hentry, hfn⟩ := h
  rw [ValidDesc, hentry]
  rintro (⟨hsize, -⟩ | ⟨-, hformat⟩)
  · rcases noteChecks_kind check (List.mem_of_find?_eq_some hentry) with ⟨-, hnone⟩ | ⟨hzero, -⟩
    · rw [hnone] at hfn
      exact nomatch hfn
    · exact hsize hzero
  · exact hd.not_format hformat

section Desc

variable {H : Host} {m : Bytes} {nhdr : Int} {name desc : Bytes} {descsz : Nat}

theorem not_passes_complain (h : Checkable H m nhdr name descsz) (msg : Bytes → Bytes) :
    ¬ Passes (complain m nhdr msg) := by
  rw [h.complain]
  exact not_passes_reject _

/-- The loop over the digits, on a descriptor that lies in the image. -/
theorem hexDigits_passes (h : Checkable H m nhdr name descsz) {a : Int}
    (ha : Holds m a desc) {is : List Nat} (his : ∀ i ∈ is, i < desc.length) :
    Passes (hexDigits m nhdr a is)
      ↔ ∀ i ∈ is, ∃ c, desc[i]? = some c ∧ isxdigit c = true := by
  induction is with
  | nil => exact ⟨fun _ i hi => (nomatch hi), fun _ => passes_accept⟩
  | cons i is ih =>
      have hi : i < desc.length := his i List.mem_cons_self
      rw [hexDigits, ha.loadByte hi, List.getElem?_eq_getElem hi, Option.bind_some,
        List.forall_mem_cons, List.getElem?_eq_getElem hi]
      by_cases hx : isxdigit desc[i] = true
      · rw [if_pos hx, ih (fun j hj => his j (List.mem_cons_of_mem _ hj))]
        exact ⟨fun hall => ⟨⟨_, rfl, hx⟩, hall⟩, fun hall => hall.2⟩
      · rw [if_neg hx]
        constructor
        · intro hp
          exact absurd hp (not_passes_complain h _)
        · rintro ⟨⟨c, hc, hcx⟩, -⟩
          exact absurd (Option.some.inj hc ▸ hcx) hx

/-- The indices of the loop are those of the bytes between `0x` and the last
    one. -/
theorem range_digits {b0 b1 : UInt8} {rest : Bytes} (hrest : rest.length = 17) :
    (∀ i ∈ List.range' 2 16, ∃ c, (b0 :: b1 :: rest)[i]? = some c ∧ isxdigit c = true)
      ↔ ∃ (digits : Bytes) (last : UInt8), digits.length = 16
          ∧ (∀ c ∈ digits, isxdigit c = true) ∧ rest = digits ++ [last] := by
  constructor
  · intro hall
    refine ⟨rest.take 16, rest[16], by simp [hrest], ?_, ?_⟩
    · intro c hc
      obtain ⟨i, hi, rfl⟩ := List.mem_iff_getElem.mp hc
      rw [List.length_take] at hi
      obtain ⟨c, hget, hx⟩ := hall (i + 2) (List.mem_range'_1.mpr (by omega))
      rw [List.getElem?_cons_succ, List.getElem?_cons_succ,
        List.getElem?_eq_getElem (by omega)] at hget
      rw [List.getElem_take, Option.some.inj hget]
      exact hx
    · rw [List.take_append_getElem (by omega), List.take_of_length_le (by omega)]
  · rintro ⟨digits, last, h16, hx, rfl⟩ i hi
    have hlt := List.mem_range'_1.mp hi
    obtain ⟨k, rfl⟩ := Nat.exists_eq_add_of_le' hlt.1
    have hk : k < digits.length := by omega
    refine ⟨digits[k], ?_, hx _ (List.getElem_mem hk)⟩
    rw [List.getElem?_cons_succ, List.getElem?_cons_succ, List.getElem?_append_left hk,
      List.getElem?_eq_getElem hk]

/-- **`check_hex_note`** looks at the first eighteen of nineteen bytes. -/
theorem checkHexNote_passes (h : Readable H m nhdr name desc) :
    Passes (checkHexNote H m nhdr)
      ↔ ∃ (digits : Bytes) (last : UInt8), digits.length = 16
          ∧ (∀ c ∈ digits, isxdigit c = true)
          ∧ desc = str "0x" ++ (digits ++ [last]) := by
  obtain ⟨a, hdesc, ha⟩ := h.desc_at
  have hlen : (str "0x0123456789abcdef").length + 1 = 19 := rfl
  rw [checkHexNote, hdesc, h.descsz_eq]
  dsimp only [Option.bind_some]
  rw [hlen]
  by_cases h19 : desc.length = 19
  · obtain ⟨b0, b1, rest, rfl⟩ : ∃ b0 b1 rest, desc = b0 :: b1 :: rest := by
      rcases desc with _ | ⟨b0, _ | ⟨b1, rest⟩⟩
      · cases h19
      · cases h19
      · exact ⟨b0, b1, rest, rfl⟩
    have h0 : loadByte m a = some b0 := by
      have hb := ha.loadByte (i := 0) (Nat.succ_pos _)
      rwa [Int.natCast_zero, Int.add_zero] at hb
    have h1 : loadByte m (a + 1) = some b1 := ha.loadByte (i := 1) (by simp)
    rw [if_neg (not_not_intro h19), h0, h1]
    dsimp only [Option.bind_some]
    by_cases hb0 : b0 = 48
    · by_cases hb1 : b1 = 120
      · have hrange : ∀ i ∈ List.range' 2 16, i < (b0 :: b1 :: rest).length := by
          intro i hi
          have := (List.mem_range'_1.mp hi).2
          omega
        rw [if_neg (not_not_intro hb0), if_neg (not_not_intro hb1),
          hexDigits_passes h.checkable ha hrange, range_digits (by simpa using h19),
          hb0, hb1]
        have hcons : ∀ tail : Bytes,
            48 :: 120 :: rest = str "0x" ++ tail ↔ rest = tail := by
          intro tail
          exact ⟨fun heq => (List.cons.inj (List.cons.inj heq).2).2,
            fun heq => heq ▸ rfl⟩
        simp only [hcons]
      · rw [if_neg (not_not_intro hb0), if_pos hb1]
        refine iff_of_false (not_passes_complain h.checkable _) ?_
        rintro ⟨digits, last, -, -, hd⟩
        exact hb1 (List.cons.inj (List.cons.inj hd).2).1
    · rw [if_pos hb0]
      refine iff_of_false (not_passes_complain h.checkable _) ?_
      rintro ⟨digits, last, -, -, hd⟩
      exact hb0 (List.cons.inj hd).1
  · rw [if_pos h19]
    refine iff_of_false (not_passes_complain h.checkable _) ?_
    rintro ⟨digits, last, h16, -, rfl⟩
    apply h19
    rw [List.length_append, List.length_append, h16]
    rfl

/-- It accepts the format, with a NUL or with another byte in its place. -/
theorem checkHexNote_accepts (h : Readable H m nhdr name desc) :
    Passes (checkHexNote H m nhdr) ↔ HexFormat desc ∨ Unterminated desc := by
  rw [checkHexNote_passes h]
  constructor
  · rintro ⟨digits, last, h16, hx, hd⟩
    by_cases hlast : last = 0
    · exact Or.inl ⟨digits, h16, hx, hlast ▸ hd⟩
    · exact Or.inr ⟨digits, last, h16, hx, hlast, hd⟩
  · rintro (⟨digits, h16, hx, hd⟩ | ⟨digits, last, h16, hx, -, hd⟩)
    · exact ⟨digits, 0, h16, hx, hd⟩
    · exact ⟨digits, last, h16, hx, hd⟩

/-- **The check of a file is that of its entry.** -/
theorem checkFile_passes (h : Readable H m nhdr name desc) (fileName : Bytes) :
    Passes (checkFile H m nhdr fileName noteChecks)
      ↔ match entryOf fileName with
        | none => True
        | some check => (check.size ≠ 0 ∧ check.size = desc.length)
            ∨ (check.fn.isSome = true ∧ Passes (checkHexNote H m nhdr)) := by
  rw [entryOf]
  have hkind := noteChecks_kind
  generalize noteChecks = checks at hkind ⊢
  induction checks with
  | nil => exact iff_of_true passes_accept trivial
  | cons check checks ih =>
      rw [checkFile, List.find?_cons]
      by_cases hn : fileName = check.name
      · rw [if_neg (not_not_intro hn), h.descsz_eq, beq_iff_eq.mpr hn]
        dsimp only [Option.bind_some]
        rcases hkind check List.mem_cons_self with ⟨hsize, hfn⟩ | ⟨hsize, hfn⟩
        · rw [hfn]
          by_cases heq : check.size = desc.length
          · rw [if_neg (fun hc => hc.2 heq)]
            exact iff_of_true passes_accept (Or.inl ⟨hsize, heq⟩)
          · rw [if_pos ⟨hsize, heq⟩]
            refine iff_of_false (not_passes_complain h.checkable _) ?_
            rintro (⟨-, hc⟩ | ⟨hc, -⟩)
            · exact heq hc
            · cases hc
        · rw [hfn, if_neg (fun hc => hc.1 hsize)]
          constructor
          · intro hp
            exact Or.inr ⟨rfl, hp⟩
          · rintro (⟨hc, -⟩ | ⟨-, hp⟩)
            · exact absurd hsize hc
            · exact hp
      · rw [if_pos hn, beq_eq_false_iff_ne.mpr hn]
        exact ih (fun c hc => hkind c (List.mem_cons_of_mem _ hc))

/-- **What the check of a file accepts**: what the table asks for, and numbers
    without an end. -/
theorem checkFile_accepts (h : Readable H m nhdr name desc) (fileName : Bytes) :
    Passes (checkFile H m nhdr fileName noteChecks)
      ↔ ValidDesc fileName desc ∨ (HexEntry fileName ∧ Unterminated desc) := by
  rw [checkFile_passes h, ValidDesc, HexEntry]
  cases hentry : entryOf fileName with
  | none => exact iff_of_true trivial (Or.inl trivial)
  | some check =>
      have hhex : (∃ check', some check = some check' ∧ check'.fn.isSome = true)
          ↔ check.fn.isSome = true := by simp
      dsimp only
      rw [hhex, checkHexNote_accepts h, and_or_left, or_assoc]

/-- A descriptor that is valid for the file passes. -/
theorem checkFile_valid (h : Readable H m nhdr name desc) {fileName : Bytes}
    (hd : ValidDesc fileName desc) :
    Passes (checkFile H m nhdr fileName noteChecks) :=
  (checkFile_accepts h fileName).mpr (Or.inl hd)

/-- `check_note` asks for digits in front of the last slash, and checks the file
    behind it. -/
theorem checkNote_passes {dir file : Bytes}
    (h : Readable H m nhdr (str "SPU/" ++ (dir ++ 47 :: file)) desc)
    (hfile : (47 : UInt8) ∉ file) :
    Passes (checkNote H m nhdr)
      ↔ (∀ c ∈ dir, isdigit c = true) ∧ Passes (checkFile H m nhdr file noteChecks) := by
  have hname : str "SPU/" ++ (dir ++ 47 :: file) = (str "SPU/" ++ dir) ++ 47 :: file := by
    rw [List.append_assoc]
  have hdrop : (str "SPU/" ++ dir).drop 4 = dir := rfl
  rw [checkNote, h.name_eq, Option.bind_some, hname, splitLastSlash_append _ hfile]
  dsimp only
  rw [hdrop]
  by_cases hall : dir.all isdigit = true
  · rw [if_pos hall]
    exact (and_iff_right (List.all_eq_true.mp hall)).symm
  · rw [if_neg hall]
    exact iff_of_false (not_passes_reject _) (fun hc => hall (List.all_eq_true.mpr hc.1))

end Desc

/-- **`check_note` accepts what the table asks for**, exactly unless the entry
    of the file is one of `check_hex_note` and the descriptor is a number that
    lacks its NUL. -/
theorem checkNote_content {H : Host} {m : Bytes} {nhdr : Int} {digits file desc : Bytes}
    (h : Readable H m nhdr (str "SPU/" ++ (digits ++ 47 :: file)) desc)
    (hdigits : ∀ c ∈ digits, isdigit c = true) (hfile : (47 : UInt8) ∉ file) :
    (Passes (checkNote H m nhdr) ↔ ValidDesc file desc)
      ↔ ¬ (HexEntry file ∧ Unterminated desc) := by
  rw [checkNote_passes h hfile, and_iff_right hdigits, checkFile_accepts h]
  constructor
  · rintro hiff ⟨hentry, hlong⟩
    exact hentry.not_valid hlong (hiff.mp (Or.inr ⟨hentry, hlong⟩))
  · intro hnot
    exact or_iff_left hnot

/-! ## A number without an end -/

/-- A note with seventeen digits where sixteen and a NUL belong. -/
def longNumber : Note where
  type := 1
  name := str "SPU/3/lslr"
  namePad := [0]
  desc := str "0x0123456789abcdef0"
  descPad := [0]
  type_lt := spuType_lt
  noNul := by decide
  namePad_length := rfl
  descPad_length := rfl

theorem longNumber_readable :
    Readable ⟨true, true⟩ (longNumber.encode true) 0
      (str "SPU/" ++ (str "3" ++ 47 :: str "lslr")) longNumber.desc :=
  readable_note (n := longNumber) ⟨[], [], (List.append_nil _).symm, rfl⟩ (by decide)

theorem longNumber_unterminated : Unterminated longNumber.desc :=
  ⟨str "0123456789abcdef", 48, rfl, List.all_eq_true.mp rfl, by decide, rfl⟩

theorem lslr_hexEntry : HexEntry (str "lslr") := ⟨_, rfl, rfl⟩

theorem checkNote_content_sample :
    (∀ c ∈ str "3", isdigit c = true) ∧ (47 : UInt8) ∉ str "lslr"
      ∧ ((Passes (checkNote ⟨true, true⟩ (longNumber.encode true) 0)
          ↔ ValidDesc (str "lslr") longNumber.desc)
        ↔ ¬ (HexEntry (str "lslr") ∧ Unterminated longNumber.desc)) :=
  ⟨List.all_eq_true.mp rfl, by decide,
    checkNote_content longNumber_readable (List.all_eq_true.mp rfl) (by decide)⟩

/-- The seventeenth digit is taken for the NUL. -/
theorem checkNote_content_long :
    (Readable ⟨true, true⟩ (longNumber.encode true) 0
        (str "SPU/" ++ (str "3" ++ 47 :: str "lslr")) longNumber.desc
      ∧ Passes (checkNote ⟨true, true⟩ (longNumber.encode true) 0)
      ∧ ¬ ValidDesc (str "lslr") longNumber.desc)
    ∧ ¬ ∀ (H : Host) (m : Bytes) (nhdr : Int) (digits file desc : Bytes),
      Readable H m nhdr (str "SPU/" ++ (digits ++ 47 :: file)) desc → digits ≠ [] →
      (∀ c ∈ digits, isdigit c = true) → (47 : UInt8) ∉ file →
      (Passes (checkNote H m nhdr) ↔ ValidDesc file desc) := by
  have hpass : Passes (checkNote ⟨true, true⟩ (longNumber.encode true) 0) := by
    rw [Passes]
    decide +kernel
  have hlong := lslr_hexEntry.not_valid longNumber_unterminated
  refine ⟨⟨longNumber_readable, hpass, hlong⟩, ?_⟩
  intro h
  have hiff := h ⟨true, true⟩ (longNumber.encode true) 0 (str "3") (str "lslr")
    longNumber.desc longNumber_readable (by decide) (List.all_eq_true.mp rfl) (by decide)
  exact hlong (hiff.mp hpass)

end SpufsNoteDesc
