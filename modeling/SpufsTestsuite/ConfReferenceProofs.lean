import SpufsTestsuite.ConfScanProofs

/-! # What a tests.conf file means — the scanner against a line-based reference

    The README describes tests.conf line by line: `<test-name>: <options>`.
    This file states that meaning on the text alone (`confTokens`,
    `referenceView`): split at newlines, drop leading white space, keep the
    lines that start with the test's name or with `*:`, cut the rest into
    words.  The scanner of `ConfScanProofs` works on a mutable array instead:
    it skips white space across line ends, overwrites bytes with NULs and
    stores pointers.

    The bridge is the relation `Reads`: the state of the scan, looking only at
    the part of the array the scan has passed, denotes a value of the
    reference.  One turn of the scan is one line (`confLine_reads`), and the
    induction over the text is `confScan_reads`. -/

namespace SpufsConfReference

open CString SpufsTest SpufsConfScan

/-! ## The reference -/

/-- A test with its capability names instead of pointers to them. -/
structure ConfView where
  test : Test
  caps : List (Bytes × Bool)
  deriving DecidableEq, Repr

/-- The record without its capability pointers. -/
def bare (t : Test) : Test := { t with capsRequired := [] }

/-- What a test record denotes, its capability names read from `mem`. -/
def confView (mem : Bytes) (t : Test) : Option ConfView :=
  (t.capsRequired.mapM
    (fun rc => (cstr (mem.drop rc.cap)).map (fun name => (name, rc.invert)))).map
    (fun caps => ⟨bare t, caps⟩)

/-- The effect of one token. -/
def applyToken (v : ConfView) (w : Bytes) : ConfView :=
  if w = str "disabled" then { v with test := { v.test with disabled := true } }
  else if w = str "ignored" then
    { v with test := { v.test with ignored := true } }
  else if (str "timeout=").isPrefixOf w then
    { v with test := { v.test with timeout := atoi (w.drop 8) } }
  else if (str "expected_rc=").isPrefixOf w then
    { v with test := { v.test with expectedRc := atoi (w.drop 12) } }
  else if (str "signal=").isPrefixOf w then
    { v with test := { v.test with expectedSig := atoi (w.drop 7) } }
  else if (str "cap_").isPrefixOf w then
    { v with caps := v.caps ++ [(w.drop 4, false)] }
  else if (str "!cap_").isPrefixOf w then
    { v with caps := v.caps ++ [(w.drop 5, true)] }
  else v

/-- The options of a line, if the line is for the test `file`. -/
def lineOptions (file line : Bytes) : Option Bytes :=
  let l := line.dropWhile isspace
  if l.head? = some 35 then none
  else if (file ++ str ":").isPrefixOf l then some (l.drop (file.length + 1))
  else if (str "*:").isPrefixOf l then some (l.drop 2)
  else none

/-- The tokens a line contributes. -/
def lineTokens (file line : Bytes) : List Bytes :=
  match lineOptions file line with
  | some o => words isDelim o
  | none => []

/-- The tokens a file contributes, in file order. -/
def confTokens (file content : Bytes) : List Bytes :=
  (content.splitOn 10).flatMap (lineTokens file)

/-- **The reference semantics** of a tests.conf file for the test `file`. -/
def referenceView (file content : Bytes) (v : ConfView) : ConfView :=
  (confTokens file content).foldl applyToken v

/-! ## The text, from the position of the scan on -/

theorem confTokens_nil (file : Bytes) : confTokens file [] = [] := by
  show lineTokens file [] ++ [] = []
  have hp : (file ++ str ":").isPrefixOf ([] : Bytes) = false := by
    cases file with
    | nil => rfl
    | cons b file => rfl
  have : lineOptions file [] = none := by
    show (if (file ++ str ":").isPrefixOf ([] : Bytes) = true then _ else _) = none
    rw [hp]
    rfl
  rw [lineTokens, this]
  rfl

/-- The first line of a text, and the text behind its newline. -/
theorem confTokens_line {file line : Bytes} (rest : Bytes)
    (hl : (10 : UInt8) ∉ line) :
    confTokens file (line ++ 10 :: rest)
      = lineTokens file line ++ confTokens file rest := by
  have hall : ∀ x ∈ line, (x == (10 : UInt8)) = false := by
    intro x hx
    exact beq_eq_false_iff_ne.mpr (fun h => hl (h ▸ hx))
  have hsplit : (line ++ 10 :: rest).splitOn 10 = line :: rest.splitOn 10 :=
    List.splitOnP_append_cons_of_forall_mem hall 10 (by decide) rest
  rw [confTokens, hsplit]
  rfl

/-- A text without a newline is one line. -/
theorem confTokens_last {file line : Bytes} (hl : (10 : UInt8) ∉ line) :
    confTokens file line = lineTokens file line := by
  have hall : ∀ x ∈ line, (x == (10 : UInt8)) = false := by
    intro x hx
    exact beq_eq_false_iff_ne.mpr (fun h => hl (h ▸ hx))
  have hsplit : line.splitOn 10 = [line] := List.splitOnP_eq_singleton hall
  rw [confTokens, hsplit]
  exact List.append_nil _

/-- Leading white space of a line contributes nothing. -/
theorem lineTokens_space (file : Bytes) {b : UInt8} (line : Bytes)
    (hb : isspace b = true) : lineTokens file (b :: line) = lineTokens file line := by
  have : (b :: line).dropWhile isspace = line.dropWhile isspace := by
    rw [List.dropWhile_cons, if_pos hb]
  rw [lineTokens, lineTokens, lineOptions, lineOptions, this]

/-- A text is its first line, or its first line and the text behind. -/
theorem line_cases (x : Bytes) :
    ∃ line, (10 : UInt8) ∉ line ∧ (x = line ∨ ∃ rest, x = line ++ 10 :: rest) := by
  induction x with
  | nil => exact ⟨[], List.not_mem_nil, Or.inl rfl⟩
  | cons b x ih =>
      by_cases hb : b = 10
      · exact ⟨[], List.not_mem_nil, Or.inr ⟨x, by rw [hb]; rfl⟩⟩
      · obtain ⟨line, hl, hx⟩ := ih
        refine ⟨b :: line, ?_, ?_⟩
        · intro h
          rcases List.mem_cons.mp h with h | h
          · exact hb h.symm
          · exact hl h
        · rcases hx with rfl | ⟨rest, rfl⟩
          · exact Or.inl rfl
          · exact Or.inr ⟨rest, rfl⟩

/-- White space in front of a text contributes nothing, newlines included:
    the scan may skip it across line ends. -/
theorem confTokens_spaces (file : Bytes) {ws : Bytes} (x : Bytes)
    (hws : ∀ b ∈ ws, isspace b = true) :
    confTokens file (ws ++ x) = confTokens file x := by
  induction ws with
  | nil => rfl
  | cons b ws ih =>
      have hb := hws b List.mem_cons_self
      rw [← ih (fun c hc => hws c (List.mem_cons_of_mem _ hc)), List.cons_append]
      by_cases hnl : b = 10
      · have h : confTokens file ([] ++ 10 :: (ws ++ x)) = _ :=
          confTokens_line (ws ++ x) List.not_mem_nil
        rw [hnl]
        refine h.trans ?_
        rw [← confTokens_last List.not_mem_nil, confTokens_nil]
        rfl
      · have hcons : ∀ {l : Bytes}, (10 : UInt8) ∉ l → (10 : UInt8) ∉ b :: l := by
          intro l hl h
          rcases List.mem_cons.mp h with h | h
          · exact hnl h.symm
          · exact hl h
        obtain ⟨line, hl, hx | ⟨rest, hx⟩⟩ := line_cases (ws ++ x)
        · rw [hx, confTokens_last (hcons hl), confTokens_last hl,
            lineTokens_space file line hb]
        · rw [hx, confTokens_line rest hl, ← List.cons_append,
            confTokens_line rest (hcons hl), lineTokens_space file line hb]

/-! ## One token -/

/-- `is_param_str` on a string that has the parameter's name and an equals
    sign in front. -/
theorem isParamStr_some {param w : Bytes} (r : Bytes) (hp : (0 : UInt8) ∉ param)
    (hw : (param ++ [61]).isPrefixOf w = true) :
    isParamStr param (w ++ 0 :: r) = some (some (param.length + 1)) := by
  obtain ⟨u, rfl⟩ := List.isPrefixOf_iff_prefix.mp hw
  have hpre : param.isPrefixOf (param ++ [61] ++ u) = true :=
    List.isPrefixOf_iff_prefix.mpr ⟨[61] ++ u, by rw [List.append_assoc]⟩
  rw [isParamStr, startsWith_append_zero _ r hp, hpre]
  simp

/-- `is_param_str` on any other string. -/
theorem isParamStr_none {param w : Bytes} (r : Bytes) (hp : (0 : UInt8) ∉ param)
    (hw : ¬ (param ++ [61]).isPrefixOf w = true) :
    isParamStr param (w ++ 0 :: r) = some none := by
  rw [isParamStr, startsWith_append_zero w r hp]
  cases hpre : param.isPrefixOf w with
  | false => rfl
  | true =>
      obtain ⟨u, rfl⟩ := List.isPrefixOf_iff_prefix.mp hpre
      cases u with
      | nil => simp
      | cons b u =>
          have hb : b ≠ 61 := by
            rintro rfl
            exact hw (List.isPrefixOf_iff_prefix.mpr ⟨u, by simp⟩)
          simp [hb]

/-- What `handle_testconf_token` does to the record for the token `w` that
    stands at `tok`. -/
def handleWord (c : ConfState) (tok : Nat) (w : Bytes) : ConfState :=
  if w = str "disabled" then
    { c with test := { c.test with disabled := true } }
  else if w = str "ignored" then
    { c with test := { c.test with ignored := true } }
  else if (str "timeout=").isPrefixOf w then
    { c with test := { c.test with timeout := atoi (w.drop 8) } }
  else if (str "expected_rc=").isPrefixOf w then
    { c with test := { c.test with expectedRc := atoi (w.drop 12) } }
  else if (str "signal=").isPrefixOf w then
    { c with test := { c.test with expectedSig := atoi (w.drop 7) } }
  else if (str "cap_").isPrefixOf w then
    { c with test := testAddRequiredCap c.test (tok + 4) false }
  else if (str "!cap_").isPrefixOf w then
    { c with test := testAddRequiredCap c.test (tok + 5) true }
  else
    { c with stderr := c.stderr ++ str "Unknown test parameter " ++ w ++ str "\n" }

/-- The rest of a string behind a prefix is a string. -/
theorem cstr_drop_append_zero {w : Bytes} (r : Bytes) (h0 : (0 : UInt8) ∉ w)
    {n : Nat} (hn : n ≤ w.length) :
    cstr ((w ++ 0 :: r).drop n) = some (w.drop n) := by
  rw [List.drop_append_of_le_length hn]
  exact cstr_append_zero r (fun h => h0 (List.mem_of_mem_drop h))

/-- On a string the token handler does not fault. -/
theorem handleTestconfToken_word {m w r : Bytes} {tok : Nat} (c : ConfState)
    (hm : m.drop tok = w ++ 0 :: r) (h0 : (0 : UInt8) ∉ w) :
    handleTestconfToken c m tok = some (handleWord c tok w) := by
  have hvalue : ∀ (n : Nat) {p : Bytes}, p.isPrefixOf w = true → p.length = n →
      cstr (List.drop n (w ++ 0 :: r)) = some (w.drop n) := fun n _ hp hn =>
    cstr_drop_append_zero r h0 (hn ▸ (List.isPrefixOf_iff_prefix.mp hp).length_le)
  rw [handleTestconfToken, hm, streq_append_zero r h0 (by decide),
    streq_append_zero r h0 (by decide), handleWord]
  by_cases h1 : w = str "disabled"
  · rw [if_pos h1, h1]
    rfl
  rw [if_neg h1, beq_eq_false_iff_ne.mpr h1]
  by_cases h2 : w = str "ignored"
  · rw [if_pos h2, h2]
    rfl
  rw [if_neg h2, beq_eq_false_iff_ne.mpr h2]
  by_cases h3 : (str "timeout=").isPrefixOf w = true
  · rw [if_pos h3, isParamStr_some r (by decide) h3]
    show (cstr (List.drop 8 (w ++ 0 :: r)) >>= fun v => some _) = some _
    rw [hvalue 8 h3 rfl]
    rfl
  rw [if_neg h3, isParamStr_none r (by decide) h3]
  by_cases h4 : (str "expected_rc=").isPrefixOf w = true
  · rw [if_pos h4, isParamStr_some r (by decide) h4]
    show (cstr (List.drop 12 (w ++ 0 :: r)) >>= fun v => some _) = some _
    rw [hvalue 12 h4 rfl]
    rfl
  rw [if_neg h4, isParamStr_none r (by decide) h4]
  by_cases h5 : (str "signal=").isPrefixOf w = true
  · rw [if_pos h5, isParamStr_some r (by decide) h5]
    show (cstr (List.drop 7 (w ++ 0 :: r)) >>= fun v => some _) = some _
    rw [hvalue 7 h5 rfl]
    rfl
  rw [if_neg h5, isParamStr_none r (by decide) h5,
    startsWith_append_zero w r (by decide)]
  by_cases h6 : (str "cap_").isPrefixOf w = true
  · rw [if_pos h6, h6]
    rfl
  rw [if_neg h6, Bool.eq_false_iff.mpr h6, startsWith_append_zero w r (by decide)]
  by_cases h7 : (str "!cap_").isPrefixOf w = true
  · rw [if_pos h7, h7]
    rfl
  rw [if_neg h7, Bool.eq_false_iff.mpr h7, cstr_append_zero r h0]
  rfl

/-! ## The relation between the scan and the reference -/

/-- The pointer `rc.cap` denotes the name `cap.1`, and the name and its NUL
    stand among the first `b` bytes of the array. -/
structure CapReads (b : Nat) (m : Bytes) (rc : RequiredCap)
    (cap : Bytes × Bool) : Prop where
  invert  : rc.invert = cap.2
  inside  : rc.cap + cap.1.length < b
  nulFree : (0 : UInt8) ∉ cap.1
  bytes   : (m.drop rc.cap).take (cap.1.length + 1) = cap.1 ++ [0]

/-- The state `c` of the scan denotes `v`, looking only at the first `b`
    bytes of the array. -/
structure Reads (b : Nat) (m : Bytes) (c : ConfState) (v : ConfView) : Prop where
  record : bare c.test = v.test
  caps   : List.Forall₂ (CapReads b m) c.test.capsRequired v.caps

/-- Writes behind the first `b` bytes do not change what is denoted. -/
theorem CapReads.frame {b b' : Nat} {m m' : Bytes} {rc : RequiredCap}
    {cap : Bytes × Bool} (h : CapReads b m rc cap) (hb : b ≤ b')
    (hm : m.take b = m'.take b) : CapReads b' m' rc cap where
  invert := h.invert
  inside := Nat.lt_of_lt_of_le h.inside hb
  nulFree := h.nulFree
  bytes := by
    have hin := h.inside
    have hcut : ∀ x : Bytes, (x.drop rc.cap).take (cap.1.length + 1)
        = ((x.take b).take (rc.cap + (cap.1.length + 1))).drop rc.cap := by
      intro x
      rw [List.take_take, Nat.min_eq_left (by omega), List.drop_take,
        Nat.add_sub_cancel_left]
    rw [hcut, ← hm, ← hcut]
    exact h.bytes

theorem Reads.frame {b b' : Nat} {m m' : Bytes} {c : ConfState} {v : ConfView}
    (h : Reads b m c v) (hb : b ≤ b') (hm : m.take b = m'.take b) :
    Reads b' m' c v :=
  ⟨h.record, h.caps.imp (fun _ _ hc => hc.frame hb hm)⟩

/-- A name that is denoted can be read as a C string. -/
theorem CapReads.cstr_eq {b : Nat} {m : Bytes} {rc : RequiredCap}
    {cap : Bytes × Bool} (h : CapReads b m rc cap) :
    cstr (m.drop rc.cap) = some cap.1 := by
  rw [← List.take_append_drop (cap.1.length + 1) (m.drop rc.cap), h.bytes,
    List.append_assoc]
  exact cstr_append_zero _ h.nulFree

/-- What is denoted is what reading the record yields. -/
theorem Reads.view {b : Nat} {m : Bytes} {c : ConfState} {v : ConfView}
    (h : Reads b m c v) : confView m c.test = some v := by
  have hcaps : ∀ {rcs : List RequiredCap} {caps : List (Bytes × Bool)},
      List.Forall₂ (CapReads b m) rcs caps →
      rcs.mapM (fun rc => (cstr (m.drop rc.cap)).map (fun n => (n, rc.invert)))
        = some caps := by
    intro rcs caps hf
    induction hf with
    | nil => rfl
    | cons hc _ ih =>
        rw [List.mapM_cons, hc.cstr_eq, ih, hc.invert]
        rfl
  rw [confView, hcaps h.caps, h.record]
  rfl

/-- One token keeps the relation. -/
theorem handleWord_reads {m w r : Bytes} {tok : Nat} {c : ConfState}
    {v : ConfView} (hm : m.drop tok = w ++ 0 :: r) (h0 : (0 : UInt8) ∉ w)
    (h : Reads tok m c v) :
    Reads (tok + w.length + 1) m (handleWord c tok w) (applyToken v w) := by
  have hk : Reads (tok + w.length + 1) m c v := h.frame (by omega) rfl
  have hrec := h.record
  -- a name that is a suffix of the token
  have hcap : ∀ (k : Nat) (inv : Bool), k ≤ w.length →
      CapReads (tok + w.length + 1) m ⟨tok + k, inv⟩ (w.drop k, inv) := by
    intro k inv hkw
    refine ⟨rfl, ?_, fun hz => h0 (List.mem_of_mem_drop hz), ?_⟩
    · show tok + k + (w.drop k).length < tok + w.length + 1
      rw [List.length_drop]
      omega
    · show (m.drop (tok + k)).take ((w.drop k).length + 1) = w.drop k ++ [0]
      rw [← List.drop_drop, hm, List.drop_append_of_le_length hkw,
        List.take_length_add_append]
      rfl
  rw [handleWord, applyToken]
  by_cases h1 : w = str "disabled"
  · rw [if_pos h1, if_pos h1]
    exact ⟨congrArg (fun t : Test => { t with disabled := true }) hrec, hk.caps⟩
  rw [if_neg h1, if_neg h1]
  by_cases h2 : w = str "ignored"
  · rw [if_pos h2, if_pos h2]
    exact ⟨congrArg (fun t : Test => { t with ignored := true }) hrec, hk.caps⟩
  rw [if_neg h2, if_neg h2]
  by_cases h3 : (str "timeout=").isPrefixOf w = true
  · rw [if_pos h3, if_pos h3]
    exact ⟨congrArg (fun t : Test => { t with timeout := atoi (w.drop 8) }) hrec,
      hk.caps⟩
  rw [if_neg h3, if_neg h3]
  by_cases h4 : (str "expected_rc=").isPrefixOf w = true
  · rw [if_pos h4, if_pos h4]
    exact ⟨congrArg (fun t : Test => { t with expectedRc := atoi (w.drop 12) })
      hrec, hk.caps⟩
  rw [if_neg h4, if_neg h4]
  by_cases h5 : (str "signal=").isPrefixOf w = true
  · rw [if_pos h5, if_pos h5]
    exact ⟨congrArg (fun t : Test => { t with expectedSig := atoi (w.drop 7) })
      hrec, hk.caps⟩
  rw [if_neg h5, if_neg h5]
  by_cases h6 : (str "cap_").isPrefixOf w = true
  · rw [if_pos h6, if_pos h6]
    have hle := (List.isPrefixOf_iff_prefix.mp h6).length_le
    exact ⟨hrec, List.rel_append hk.caps
      (List.Forall₂.cons (hcap 4 false hle) List.Forall₂.nil)⟩
  rw [if_neg h6, if_neg h6]
  by_cases h7 : (str "!cap_").isPrefixOf w = true
  · rw [if_pos h7, if_pos h7]
    have hle := (List.isPrefixOf_iff_prefix.mp h7).length_le
    exact ⟨hrec, List.rel_append hk.caps
      (List.Forall₂.cons (hcap 5 true hle) List.Forall₂.nil)⟩
  rw [if_neg h7, if_neg h7]
  exact ⟨hrec, hk.caps⟩

/-- **The token loop on a string applies the string's words.** -/
theorem tokens_reads {x r m : Bytes} {p : Nat} {c : ConfState} {v : ConfView}
    (hm : m.drop p = x ++ 0 :: r) (h0 : (0 : UInt8) ∉ x) (h : Reads p m c v) :
    ∃ m' c', tokens isDelim handleTestconfToken m p c = some (m', c')
      ∧ Reads (p + x.length + 1) m' c' ((words isDelim x).foldl applyToken v)
      ∧ m'.length = m.length ∧ m'.drop (p + x.length) = 0 :: r :=
  tokens_refines (I := Reads) rfl
    (fun h hb hm => h.frame hb hm)
    (fun hm h0 h => ⟨_, handleTestconfToken_word _ hm h0, handleWord_reads hm h0 h⟩)
    hm h0 h

/-! ## One line -/

/-- How a line without leading white space starts. -/
def lineStart (pattern line : Bytes) : Option Nat :=
  if line.head? = some 35 then none
  else if pattern.isPrefixOf line then some pattern.length
  else if (str "*:").isPrefixOf line then some 2
  else none

/-- The start of a line lies inside of it. -/
theorem lineStart_le {pattern line : Bytes} {k : Nat}
    (h : lineStart pattern line = some k) : k ≤ line.length := by
  rw [lineStart] at h
  split at h
  · exact nomatch h
  · split at h
    · next hp =>
        obtain rfl := Option.some.inj h
        exact (List.isPrefixOf_iff_prefix.mp hp).length_le
    · split at h
      · next hp =>
          obtain rfl := Option.some.inj h
          exact (List.isPrefixOf_iff_prefix.mp hp).length_le
      · exact nomatch h

/-- The scan sees how the string at `m` starts. -/
theorem confLineStart_string {pattern : Bytes} (line r : Bytes)
    (hp : (0 : UInt8) ∉ pattern) :
    confLineStart pattern (line ++ 0 :: r) = some (lineStart pattern line) := by
  have hpat := startsWith_append_zero line r hp
  have hstar := startsWith_append_zero line r (show (0 : UInt8) ∉ str "*:" by decide)
  have hhead : ∃ b z, line ++ 0 :: r = b :: z
      ∧ (b = 35 ↔ line.head? = some 35) := by
    cases line with
    | nil => exact ⟨0, r, rfl, by decide⟩
    | cons b z => exact ⟨b, z ++ 0 :: r, rfl, by simp⟩
  obtain ⟨b, z, hbz, hb⟩ := hhead
  rw [hbz] at hpat hstar ⊢
  rw [confLineStart, hpat, hstar, lineStart]
  by_cases h35 : b = 35
  · rw [if_pos h35, if_pos (hb.mp h35)]
  · rw [if_neg h35, if_neg (fun h => h35 (hb.mpr h))]
    cases pattern.isPrefixOf line with
    | true => rfl
    | false =>
        cases (str "*:").isPrefixOf line with
        | true => rfl
        | false => rfl

/-- A pattern without a newline is in front of the text exactly when it is in
    front of the text's first line. -/
theorem isPrefixOf_line {pattern line : Bytes} (rest : Bytes)
    (hp : (10 : UInt8) ∉ pattern) :
    pattern.isPrefixOf (line ++ 10 :: rest) = pattern.isPrefixOf line := by
  induction pattern generalizing line with
  | nil => simp
  | cons b pattern ih =>
      have hb : (10 : UInt8) ≠ b := List.ne_of_not_mem_cons hp
      cases line with
      | nil =>
          show (b == 10 && _) = false
          rw [beq_eq_false_iff_ne.mpr (Ne.symm hb), Bool.false_and]
      | cons c line =>
          show (b == c && pattern.isPrefixOf (line ++ 10 :: rest))
            = (b == c && pattern.isPrefixOf line)
          rw [ih (List.not_mem_of_not_mem_cons hp)]

theorem lineStart_line {pattern line : Bytes} (rest : Bytes)
    (hp : (10 : UInt8) ∉ pattern) :
    lineStart pattern (line ++ 10 :: rest) = lineStart pattern line := by
  have hhead : (line ++ 10 :: rest).head? = some 35 ↔ line.head? = some 35 := by
    cases line with
    | nil => simp
    | cons b line => simp
  have hstar : (10 : UInt8) ∉ str "*:" := by decide
  rw [lineStart, lineStart, isPrefixOf_line rest hp, isPrefixOf_line rest hstar]
  by_cases h : line.head? = some 35
  · rw [if_pos h, if_pos (hhead.mpr h)]
  · rw [if_neg h, if_neg (fun h' => h (hhead.mp h'))]

/-- The reference takes the options of a line from where the line starts. -/
theorem lineTokens_start {file line : Bytes}
    (hline : line.dropWhile isspace = line) :
    lineTokens file line = match lineStart (file ++ str ":") line with
      | some k => words isDelim (line.drop k)
      | none => [] := by
  have hlen : (file ++ str ":").length = file.length + 1 := by
    rw [List.length_append]
    rfl
  rw [lineTokens, lineOptions, hline, lineStart, hlen]
  by_cases h1 : line.head? = some 35
  · rw [if_pos h1, if_pos h1]
  rw [if_neg h1, if_neg h1]
  by_cases h2 : (file ++ str ":").isPrefixOf line = true
  · rw [if_pos h2, if_pos h2]
  rw [if_neg h2, if_neg h2]
  by_cases h3 : (str "*:").isPrefixOf line = true
  · rw [if_pos h3, if_pos h3]
  rw [if_neg h3, if_neg h3]

section Line

variable {file : Bytes}

/-- Skipping white space stops at the line. -/
theorem skip_spaces {ws line : Bytes} {b : UInt8} (r : Bytes)
    (hws : ∀ b ∈ ws, isspace b = true) (hline : line.dropWhile isspace = line)
    (hb : line = [] → isspace b = false) :
    spanLen isspace (ws ++ (line ++ b :: r)) = some ws.length := by
  cases line with
  | nil => exact spanLen_append_cons r hws (hb rfl)
  | cons a line =>
      refine spanLen_append_cons (line ++ b :: r) hws ?_
      rw [List.dropWhile_cons] at hline
      split at hline
      · have hlen := congrArg List.length hline
        have hle := (List.dropWhile_sublist isspace (l := line)).length_le
        rw [List.length_cons] at hlen
        omega
      · next ha => exact Bool.eq_false_iff.mpr ha

/-- The options of a line that ends at a NUL, applied. -/
theorem options_reads {m line r : Bytes} {p k : Nat} {c : ConfState}
    {v : ConfView} (hm : m.drop p = line ++ 0 :: r) (h0 : (0 : UInt8) ∉ line)
    (hk : k ≤ line.length) (h : Reads p m c v) :
    ∃ m' c', tokens isDelim handleTestconfToken m (p + k) c = some (m', c')
      ∧ Reads (p + line.length + 1) m' c'
          ((words isDelim (line.drop k)).foldl applyToken v)
      ∧ m'.drop (p + line.length) = 0 :: r := by
  have hm' : m.drop (p + k) = line.drop k ++ 0 :: r := by
    rw [← List.drop_drop, hm, List.drop_append_of_le_length hk]
  obtain ⟨m', c', htok, hreads, -, hdrop⟩ := tokens_reads hm'
    (fun hz => h0 (List.mem_of_mem_drop hz)) (h.frame (Nat.le_add_right p k) rfl)
  rw [List.length_drop, show p + k + (line.length - k) = p + line.length by omega]
    at hreads hdrop
  exact ⟨m', c', htok, hreads, hdrop⟩

/-- **The last line of the text**: the scan applies its tokens and stops. -/
theorem confLine_last {buf ws line r : Bytes} {c : Nat} {s : ConfState}
    {v : ConfView} (hfile : (0 : UInt8) ∉ file ++ str ":")
    (hws : ∀ b ∈ ws, isspace b = true) (hline : line.dropWhile isspace = line)
    (hnl : (10 : UInt8) ∉ line) (h0 : (0 : UInt8) ∉ line)
    (hbuf : buf.drop c = ws ++ (line ++ 0 :: r)) (h : Reads c buf s v) :
    ∃ buf' s', confLine (file ++ str ":") buf c s = some (buf', s', none)
      ∧ Reads (c + ws.length + line.length + 1) buf' s'
          ((lineTokens file line).foldl applyToken v) := by
  have hn : spanLen isspace (buf.drop c) = some ws.length := by
    rw [hbuf]
    exact skip_spaces r hws hline (fun _ => rfl)
  have hdrop : buf.drop (c + ws.length) = line ++ 0 :: r := by
    rw [← List.drop_drop, hbuf, List.drop_left]
  have hmono : Reads (c + ws.length) buf s v := h.frame (by omega) rfl
  rw [confLine, hn]
  dsimp only
  rw [hdrop, strchr_none r (by decide) h0 hnl, confLineStart_string line r hfile,
    lineTokens_start hline]
  cases hst : lineStart (file ++ str ":") line with
  | none => exact ⟨buf, s, rfl, hmono.frame (by omega) rfl⟩
  | some k =>
      obtain ⟨m', c', htok, hreads, -⟩ :=
        options_reads hdrop h0 (lineStart_le hst) hmono
      refine ⟨m', c', ?_, hreads⟩
      dsimp only [terminateLine]
      rw [htok]
      rfl

/-- **A line with a newline behind it**: the scan applies its tokens and goes
    on behind the newline, where the array is still as it was. -/
theorem confLine_next {buf ws line rest r : Bytes} {c : Nat} {s : ConfState}
    {v : ConfView} (hfile : (0 : UInt8) ∉ file ++ str ":")
    (hfile' : (10 : UInt8) ∉ file ++ str ":")
    (hws : ∀ b ∈ ws, isspace b = true) (hline : line.dropWhile isspace = line)
    (hne : line ≠ []) (hnl : (10 : UInt8) ∉ line)
    (h0 : (0 : UInt8) ∉ line ++ 10 :: rest)
    (hbuf : buf.drop c = ws ++ (line ++ 10 :: rest ++ 0 :: r))
    (h : Reads c buf s v) :
    ∃ buf' s', confLine (file ++ str ":") buf c s
        = some (buf', s', some (c + ws.length + line.length + 1))
      ∧ Reads (c + ws.length + line.length + 1) buf' s'
          ((lineTokens file line).foldl applyToken v)
      ∧ buf'.drop (c + ws.length + line.length + 1) = rest ++ 0 :: r := by
  have h0l : (0 : UInt8) ∉ line := fun hz => h0 (List.mem_append_left _ hz)
  have hn : spanLen isspace (buf.drop c) = some ws.length := by
    rw [hbuf, List.append_assoc]
    exact skip_spaces (rest ++ 0 :: r) hws hline (fun hnil => absurd hnil hne)
  have hdrop : buf.drop (c + ws.length) = line ++ 10 :: rest ++ 0 :: r := by
    rw [← List.drop_drop, hbuf, List.drop_left]
  have hmono : Reads (c + ws.length) buf s v := h.frame (by omega) rfl
  have hstr : strchr 10 (line ++ 10 :: rest ++ 0 :: r) = some (some line.length) := by
    rw [List.append_assoc]
    exact strchr_found _ h0l hnl
  have hend : buf.drop (c + ws.length + line.length + 1) = rest ++ 0 :: r := by
    rw [Nat.add_assoc, ← List.drop_drop, hdrop, ← List.drop_drop, List.append_assoc,
      List.drop_left]
    rfl
  rw [confLine, hn]
  dsimp only
  rw [hdrop, hstr, confLineStart_string _ r hfile, lineStart_line rest hfile',
    lineTokens_start hline]
  cases hst : lineStart (file ++ str ":") line with
  | none => exact ⟨buf, s, rfl, hmono.frame (by omega) rfl, hend⟩
  | some k =>
      -- null-terminate this line
      have hset : (buf.set (c + ws.length + line.length) 0).drop (c + ws.length)
          = line ++ 0 :: (rest ++ 0 :: r) := by
        rw [List.drop_set, if_neg (by omega), hdrop, Nat.add_sub_cancel_left,
          List.append_assoc, List.set_append_right _ _ (Nat.le_refl _),
          Nat.sub_self]
        rfl
      obtain ⟨m', c', htok, hreads, hdrop'⟩ := options_reads hset h0l
        (lineStart_le hst) (hmono.frame (Nat.le_refl _)
          (by rw [List.take_set_of_le (by omega)]))
      refine ⟨m', c', ?_, hreads, ?_⟩
      · dsimp only [terminateLine]
        rw [htok]
        rfl
      · rw [← List.drop_drop, hdrop']
        rfl

end Line

/-! ## The whole text -/

/-- White space in front, and a rest that does not start with any. -/
theorem spaces_cases (x : Bytes) :
    ∃ ws y, x = ws ++ y ∧ (∀ b ∈ ws, isspace b = true)
      ∧ y.dropWhile isspace = y := by
  induction x with
  | nil =>
      refine ⟨[], [], rfl, ?_, rfl⟩
      intro b hb
      exact nomatch hb
  | cons b x ih =>
      by_cases hb : isspace b = true
      · obtain ⟨ws, y, rfl, hws, hy⟩ := ih
        refine ⟨b :: ws, y, rfl, ?_, hy⟩
        intro a ha
        rcases List.mem_cons.mp ha with rfl | ha
        · exact hb
        · exact hws a ha
      · refine ⟨[], b :: x, rfl, ?_, ?_⟩
        · intro a ha
          exact nomatch ha
        · rw [List.dropWhile_cons, if_neg hb]

/-- If a text does not start with white space, neither does its first line,
    and the line is not empty. -/
theorem first_line_trimmed {line rest : Bytes}
    (h : (line ++ 10 :: rest).dropWhile isspace = line ++ 10 :: rest) :
    line ≠ [] ∧ line.dropWhile isspace = line := by
  cases line with
  | nil =>
      have hlen := congrArg List.length h
      have hle := (List.dropWhile_sublist isspace (l := rest)).length_le
      rw [List.nil_append, List.dropWhile_cons, if_pos (by decide),
        List.length_cons] at hlen
      omega
  | cons b line =>
      refine ⟨List.cons_ne_nil _ _, ?_⟩
      rw [List.cons_append, List.dropWhile_cons] at h
      rw [List.dropWhile_cons]
      split at h
      · have hlen := congrArg List.length h
        have hle := (List.dropWhile_sublist isspace
          (l := line ++ 10 :: rest)).length_le
        rw [List.length_cons] at hlen
        omega
      · next hb => rw [if_neg hb]

/-- **The scan of a text is the reference of the text**: by induction on the
    length, one line a step. -/
theorem confScan_reads {file : Bytes} (hfile : (0 : UInt8) ∉ file ++ str ":")
    (hfile' : (10 : UInt8) ∉ file ++ str ":") {x r buf : Bytes} {c : Nat}
    {s : ConfState} {v : ConfView} (hbuf : buf.drop c = x ++ 0 :: r)
    (h0 : (0 : UInt8) ∉ x) (h : Reads c buf s v) :
    ∃ b buf' s', confScan (file ++ str ":") buf c s = some (buf', s')
      ∧ Reads b buf' s' (referenceView file x v) := by
  induction hx : x.length using Nat.strongRecOn generalizing x buf c s v with
  | _ d ih =>
      subst hx
      have hget : buf[c]? = (x ++ 0 :: r)[0]? := by
        rw [← hbuf, List.getElem?_drop, Nat.add_zero]
      cases hx : x with
      | nil =>
          rw [hx] at hget
          refine ⟨c, buf, s, confScan_nul s hget, ?_⟩
          rw [referenceView, confTokens_nil]
          exact h
      | cons b z =>
          rw [hx] at hget
          have hb : b ≠ 0 := fun hz => h0 (by rw [hx, hz]; exact List.mem_cons_self)
          rw [← hx]
          obtain ⟨ws, y, rfl, hws, hy⟩ := spaces_cases x
          rw [referenceView, confTokens_spaces file y hws]
          rw [List.append_assoc] at hbuf
          have h0y : (0 : UInt8) ∉ y := fun hz => h0 (List.mem_append_right _ hz)
          obtain ⟨line, hnl, rfl | ⟨rest, rfl⟩⟩ := line_cases y
          · obtain ⟨buf', s', hl, hreads⟩ :=
              confLine_last hfile hws hy hnl h0y hbuf h
            rw [← confTokens_last hnl] at hreads
            exact ⟨_, buf', s', confScan_last hget hb hl, hreads⟩
          · obtain ⟨hne, hline⟩ := first_line_trimmed hy
            obtain ⟨buf', s', hl, hreads, hdrop⟩ :=
              confLine_next hfile hfile' hws hline hne hnl h0y hbuf h
            have h0r : (0 : UInt8) ∉ rest := fun hz =>
              h0y (List.mem_append_right _ (List.mem_cons_of_mem _ hz))
            have hshort : rest.length < (ws ++ (line ++ 10 :: rest)).length := by
              simp only [List.length_append, List.length_cons]
              omega
            obtain ⟨b', buf'', s'', hscan, hreads'⟩ :=
              ih rest.length hshort hdrop h0r hreads rfl
            refine ⟨b', buf'', s'', ?_, ?_⟩
            · rw [confScan_next hget hb hl]
              exact hscan
            · rw [confTokens_line rest hnl, List.foldl_append]
              exact hreads'

/-! ## tests.conf means what the README says -/

/-- A line of a test with another name contributes nothing, for names without
    a colon. -/
theorem lineTokens_other {file line g rest : Bytes}
    (hline : line.dropWhile isspace = g ++ 58 :: rest) (hg : (58 : UInt8) ∉ g)
    (hf : (58 : UInt8) ∉ file) (hne : g ≠ file) (hstar : g ≠ str "*") :
    lineTokens file line = [] := by
  -- two colon-free names in front of the same text are equal
  have hname : ∀ {f : Bytes}, (58 : UInt8) ∉ f → f ≠ g →
      ¬ (f ++ str ":").isPrefixOf (g ++ 58 :: rest) = true := by
    intro f hf hfg hpre
    obtain ⟨u, hu⟩ := List.isPrefixOf_iff_prefix.mp hpre
    rw [List.append_assoc] at hu
    rcases List.append_eq_append_iff.mp hu with ⟨d, rfl, hd⟩ | ⟨d, rfl, hd⟩
    · cases d with
      | nil => exact hfg (List.append_nil f).symm
      | cons b d =>
          have hb : 58 = b := (List.cons.inj hd).1
          exact hg (hb ▸ List.mem_append_right _ List.mem_cons_self)
    · cases d with
      | nil => exact hfg (List.append_nil g)
      | cons b d =>
          have hb : 58 = b := (List.cons.inj hd).1
          exact hf (hb ▸ List.mem_append_right _ List.mem_cons_self)
  rw [lineTokens, lineOptions, hline]
  by_cases h35 : (g ++ 58 :: rest).head? = some 35
  · rw [if_pos h35]
  have hwild : ¬ (str "*:").isPrefixOf (g ++ 58 :: rest) = true :=
    hname (f := str "*") (by decide) hstar.symm
  rw [if_neg h35, if_neg (hname hf hne.symm), if_neg hwild]

/-- The effect of `test_read_config` on a test: what the record denotes when
    the function returns, or nothing if the scan runs off the array. -/
def confEffect (fs : Bytes → ConfFile) (frame : Frame) (t : Test) :
    Option ConfView :=
  (testReadConfig fs frame t).bind (fun r => confView r.1 r.2.test)

theorem not_mem_pattern {b : UInt8} {file : Bytes} (hb : b ∉ file)
    (h58 : b ≠ 58) : b ∉ file ++ str ":" := by
  intro hmem
  rcases List.mem_append.mp hmem with hmem | hmem
  · exact hb hmem
  · exact h58 (List.mem_singleton.mp hmem)

/-- The test at `dir/file` reads its configuration from `dir/tests.conf`. -/
theorem testReadConfig_path {fs : Bytes → ConfFile} {frame : Frame}
    {dir file content : Bytes} (type : TestType) (hslash : (47 : UInt8) ∉ file)
    (hfs : fs (dir ++ str "/tests.conf") = .contents content) :
    testReadConfig fs frame (testCreate (dir ++ 47 :: file) type)
      = confScan (file ++ str ":") (readInto content frame) 0
          ⟨testCreate (dir ++ 47 :: file) type, []⟩ := by
  rw [testReadConfig, show (testCreate (dir ++ 47 :: file) type).path
    = dir ++ 47 :: file from rfl, splitLastSlash_append dir hslash]
  dsimp only
  rw [hfs]

/-- Whatever the array holds in front of its first NUL is what the test gets. -/
theorem confEffect_text {fs : Bytes → ConfFile} {frame : Frame}
    {dir file content x r : Bytes} (type : TestType)
    (hslash : (47 : UInt8) ∉ file) (hname0 : (0 : UInt8) ∉ file)
    (hname : (10 : UInt8) ∉ file)
    (hfs : fs (dir ++ str "/tests.conf") = .contents content)
    (hbuf : readInto content frame = x ++ 0 :: r) (h0 : (0 : UInt8) ∉ x) :
    confEffect fs frame (testCreate (dir ++ 47 :: file) type)
      = some (referenceView file x ⟨testCreate (dir ++ 47 :: file) type, []⟩) := by
  have hstart : Reads 0 (readInto content frame)
      ⟨testCreate (dir ++ 47 :: file) type, []⟩
      ⟨testCreate (dir ++ 47 :: file) type, []⟩ :=
    ⟨rfl, List.Forall₂.nil⟩
  obtain ⟨b, buf, s, hscan, hreads⟩ := confScan_reads
    (not_mem_pattern hname0 (by decide)) (not_mem_pattern hname (by decide))
    (by rw [List.drop_zero]; exact hbuf) h0 hstart
  rw [confEffect, testReadConfig_path type hslash hfs, hscan]
  exact hreads.view

/-- **tests.conf means what the README says**: on a file of fewer than 4096
    bytes whose leftover in the array is NUL, `test_read_config` returns with
    a record that denotes the reference semantics of the text, and no line of
    another test has a part in it, as long as neither name has a colon in it. -/
theorem testReadConfig_reference {fs : Bytes → ConfFile} {frame : Frame}
    {dir file content : Bytes} (type : TestType)
    (hslash : (47 : UInt8) ∉ file) (hname0 : (0 : UInt8) ∉ file)
    (hname : (10 : UInt8) ∉ file)
    (hfs : fs (dir ++ str "/tests.conf") = .contents content)
    (hlen : content.length < confBufSize) (hnul : (0 : UInt8) ∉ content)
    (htail : ∀ i, content.length ≤ i → i < confBufSize →
      frame.1[i]? = some 0) :
    confEffect fs frame (testCreate (dir ++ 47 :: file) type)
      = some (referenceView file content
          ⟨testCreate (dir ++ 47 :: file) type, []⟩)
    ∧ ∀ a line b g rest, content.splitOn 10 = a ++ line :: b →
        line.dropWhile isspace = g ++ 58 :: rest → (58 : UInt8) ∉ g →
        (58 : UInt8) ∉ file → g ≠ file → g ≠ str "*" →
        confTokens file content = (a ++ b).flatMap (lineTokens file) := by
  constructor
  · have hlt : content.length < frame.1.length := by
      rw [frame.2]
      exact hlen
    have hz := htail _ (Nat.le_refl _) hlen
    rw [List.getElem?_eq_getElem hlt] at hz
    have hbuf : readInto content frame
        = content ++ 0 :: frame.1.drop (content.length + 1) := by
      rw [readInto, List.take_of_length_le (Nat.le_of_lt hlen),
        List.drop_eq_getElem_cons hlt, Option.some.inj hz]
    exact confEffect_text type hslash hname0 hname hfs hbuf hnul
  · intro a line b g rest hsplit hline hg hf hne hstar
    rw [confTokens, hsplit, List.flatMap_append, List.flatMap_append,
      List.flatMap_cons, lineTokens_other hline hg hf hne hstar]
    rfl

/-- A file with a comment, another test's line and a wildcard line. -/
def sampleConf : Bytes :=
  str "# c\n01-ab: ignored\n\n 01-a:\tcap_x timeout=7\n*: disabled"

theorem testReadConfig_reference_sample :
    confEffect (fun _ => .contents sampleConf) zeroFrame
        (testCreate (str "t" ++ 47 :: str "01-a") .test)
      = some ⟨{ testCreate (str "t/01-a") .test with
          disabled := true, timeout := 7 }, [(str "x", false)]⟩ := by
  have href : referenceView (str "01-a") sampleConf
      ⟨testCreate (str "t" ++ 47 :: str "01-a") .test, []⟩
      = ⟨{ testCreate (str "t/01-a") .test with disabled := true, timeout := 7 },
          [(str "x", false)]⟩ := by decide
  rw [← href]
  exact (@testReadConfig_reference (fun _ => .contents sampleConf) zeroFrame
    (str "t") (str "01-a") sampleConf .test (by decide) (by decide) (by decide) rfl
    (by decide) (by decide) (fun _ _ hi => zeroFrame_get hi)).1

/-- One line, of the extension test `01:x`. -/
def colonConf : Bytes := str "01:x: disabled"

/-- Nothing keeps a name from containing a colon: the line of the test `01:x`
    disables `01`, which no other line of the file is about. -/
theorem testReadConfig_colon_name :
    lineTokens (str "01:x") colonConf = [str "disabled"]
    ∧ lineTokens (str "01") colonConf ≠ []
    ∧ confEffect (fun _ => .contents colonConf) zeroFrame
          (testCreate (str "t" ++ 47 :: str "01") .test)
        = some ⟨{ testCreate (str "t/01") .test with disabled := true }, []⟩
    ∧ confEffect (fun _ => .contents []) zeroFrame
          (testCreate (str "t" ++ 47 :: str "01") .test)
        = some ⟨testCreate (str "t/01") .test, []⟩ := by
  refine ⟨by decide, by decide, ?_, ?_⟩
  · have hbuf : readInto colonConf zeroFrame
        = colonConf ++ 0 :: List.replicate 4081 0 := rfl
    rw [@confEffect_text (fun _ => .contents colonConf) _ (str "t") (str "01")
      colonConf _ _ .test (by decide) (by decide) (by decide) rfl hbuf (by decide)]
    decide
  · have hbuf : readInto [] zeroFrame = [] ++ 0 :: List.replicate 4095 0 := rfl
    rw [@confEffect_text (fun _ => .contents []) _ (str "t") (str "01")
      [] _ _ .test (by decide) (by decide) (by decide) rfl hbuf (by decide)]
    decide

end SpufsConfReference
