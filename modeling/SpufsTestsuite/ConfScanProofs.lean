import SpufsTestsuite.TestRecordProofs

/-! # The tests.conf scanner — `test_read_config` on its buffer

    `test_read_config` reads the file into a local array of 4096 bytes and
    scans the array with one pointer: skip white space, find the newline, see
    whether the line is for this test, cut it into tokens, go on behind the
    newline.  The scan is modelled on the array itself, with the positions and
    the writes of the source, so that it can run off the array (`none`) and so
    that the capability names it stores are positions in the array. -/

namespace SpufsConfScan

open CString SpufsTest

/-! ## Numbers -/

/-- The value of the digits at the head of a string. -/
def digitsVal (acc : Nat) : Bytes → Nat
  | [] => acc
  | b :: s =>
      if isdigit b then digitsVal (acc * 10 + (b.toNat - 48)) s else acc

/-- `strtol(s, NULL, 10)` with a 64-bit `long`: out of range it saturates. -/
def strtol (s : Bytes) : Int :=
  match s.dropWhile isspace with
  | [] => 0
  | b :: r =>
      if b = 45 then max (-2 ^ 63) (-(digitsVal 0 r : Int))
      else if b = 43 then min (2 ^ 63 - 1) (digitsVal 0 r : Int)
      else min (2 ^ 63 - 1) (digitsVal 0 (b :: r) : Int)

/-- `atoi`: `strtol` narrowed to `int`. -/
def atoi (s : Bytes) : Int := Int.bmod (strtol s) (2 ^ 32)

/-! ## `handle_testconf_token` -/

/-- What a token can change: the test, and what was printed to stderr. -/
structure ConfState where
  test   : Test
  stderr : Bytes
  deriving DecidableEq, Repr

/-- `is_param_str`: the offset of the parameter's value. -/
def isParamStr (param m : Bytes) : Option (Option Nat) :=
  match startsWith param m with
  | none => none
  | some false => some none
  | some true =>
      match m[param.length]? with
      | none => none
      | some b => some (if b = 61 then some (param.length + 1) else none)

/-- `handle_testconf_token`, on the string at position `tok` of the memory. -/
def handleTestconfToken (c : ConfState) (m : Bytes) (tok : Nat) :
    Option ConfState := do
  let s := m.drop tok
  -- flags
  if ← streq s (str "disabled") then
    some { c with test := { c.test with disabled := true } }
  else if ← streq s (str "ignored") then
    some { c with test := { c.test with ignored := true } }
  -- parameters
  else if let some v ← isParamStr (str "timeout") s then
    some { c with test := { c.test with timeout := atoi (← cstr (s.drop v)) } }
  else if let some v ← isParamStr (str "expected_rc") s then
    some { c with test :=
      { c.test with expectedRc := atoi (← cstr (s.drop v)) } }
  else if let some v ← isParamStr (str "signal") s then
    some { c with test :=
      { c.test with expectedSig := atoi (← cstr (s.drop v)) } }
  -- capabilities
  else if ← startsWith (str "cap_") s then
    some { c with test := testAddRequiredCap c.test (tok + 4) false }
  else if ← startsWith (str "!cap_") s then
    some { c with test := testAddRequiredCap c.test (tok + 5) true }
  else
    some { c with stderr := c.stderr ++ str "Unknown test parameter "
      ++ (← cstr s) ++ str "\n" }

/-! ## `test_read_config` -/

/-- The delimiters of `strtok`: space and tab. -/
def isDelim (b : UInt8) : Bool := b == 32 || b == 9

/-- How the line at `m` starts: `none` for a comment or another test's line,
    else the number of bytes in front of its options. -/
def confLineStart (pattern m : Bytes) : Option (Option Nat) :=
  match m with
  | [] => none
  | b :: _ =>
      if b = 35 then some none
      else
        match startsWith pattern m with
        | none => none
        | some true => some (some pattern.length)
        | some false =>
            match startsWith (str "*:") m with
            | none => none
            | some true => some (some 2)
            | some false => some none

/-- `if (newline) *newline = 0`, the newline being `e` bytes behind `p`. -/
def terminateLine (buf : Bytes) (p : Nat) : Option Nat → Bytes
  | some e => buf.set (p + e) 0
  | none => buf

theorem terminateLine_length (buf : Bytes) (p : Nat) (newline : Option Nat) :
    (terminateLine buf p newline).length = buf.length := by
  cases newline with
  | none => rfl
  | some e => exact List.length_set

/-- One turn of the scan at position `c`: the array and the state after it,
    and the position behind the newline (`none` for a null pointer). -/
def confLine (pattern buf : Bytes) (c : Nat) (s : ConfState) :
    Option (Bytes × ConfState × Option Nat) :=
  -- skip whitespace
  match spanLen isspace (buf.drop c) with
  | none => none
  | some n =>
      match strchr 10 (buf.drop (c + n)) with
      | none => none
      | some newline =>
          match confLineStart pattern (buf.drop (c + n)) with
          | none => none
          | some none =>
              some (buf, s, newline.map (fun e => c + n + e + 1))
          | some (some k) =>
              match tokens isDelim handleTestconfToken
                  (terminateLine buf (c + n) newline) (c + n + k) s with
              | none => none
              | some (buf', s') =>
                  some (buf', s', newline.map (fun e => c + n + e + 1))

/-- **One turn of the scan, said once**: the white space it skips, the newline
    it finds, how the line starts, and what the token loop did. -/
theorem confLine_cases {pattern buf buf' : Bytes} {c : Nat} {s s' : ConfState}
    {o : Option Nat} (h : confLine pattern buf c s = some (buf', s', o)) :
    ∃ n newline, spanLen isspace (buf.drop c) = some n
      ∧ strchr 10 (buf.drop (c + n)) = some newline
      ∧ o = newline.map (fun e => c + n + e + 1)
      ∧ ((confLineStart pattern (buf.drop (c + n)) = some none
            ∧ buf' = buf ∧ s' = s)
        ∨ ∃ k, confLineStart pattern (buf.drop (c + n)) = some (some k)
            ∧ tokens isDelim handleTestconfToken
                (terminateLine buf (c + n) newline) (c + n + k) s
                = some (buf', s')) := by
  rw [confLine] at h
  cases hn : spanLen isspace (buf.drop c) with
  | none => rw [hn] at h; exact nomatch h
  | some n =>
      rw [hn] at h
      dsimp only at h
      cases hnl : strchr 10 (buf.drop (c + n)) with
      | none => rw [hnl] at h; exact nomatch h
      | some newline =>
          rw [hnl] at h
          dsimp only at h
          refine ⟨n, newline, rfl, hnl, ?_⟩
          cases hst : confLineStart pattern (buf.drop (c + n)) with
          | none => rw [hst] at h; exact nomatch h
          | some start =>
              rw [hst] at h
              cases start with
              | none =>
                  obtain ⟨rfl, h'⟩ := Prod.mk.inj (Option.some.inj h)
                  obtain ⟨rfl, rfl⟩ := Prod.mk.inj h'
                  exact ⟨rfl, Or.inl ⟨rfl, rfl, rfl⟩⟩
              | some k =>
                  dsimp only at h
                  split at h
                  · exact nomatch h
                  · next buf₁ s₁ htok =>
                    obtain ⟨rfl, h'⟩ := Prod.mk.inj (Option.some.inj h)
                    obtain ⟨rfl, rfl⟩ := Prod.mk.inj h'
                    exact ⟨rfl, Or.inr ⟨k, rfl, htok⟩⟩

/-- A turn keeps the array's size. -/
theorem confLine_length {pattern buf buf' : Bytes} {c : Nat} {s s' : ConfState}
    {o : Option Nat} (h : confLine pattern buf c s = some (buf', s', o)) :
    buf'.length = buf.length := by
  obtain ⟨n, newline, -, -, -, ⟨-, rfl, -⟩ | ⟨k, -, htok⟩⟩ := confLine_cases h
  · rfl
  · exact (tokens_length htok).trans (terminateLine_length buf _ newline)

/-- A turn ends behind the position it began at. -/
theorem confLine_progress {pattern buf buf' : Bytes} {c c' : Nat}
    {s s' : ConfState} (h : confLine pattern buf c s = some (buf', s', some c')) :
    buf'.length - c' < buf.length - c := by
  rw [confLine_length h]
  obtain ⟨n, newline, hn, -, ho, -⟩ := confLine_cases h
  have hlt := (spanLen_drop hn).1
  obtain ⟨e, -, he⟩ := Option.map_eq_some_iff.mp ho.symm
  omega

/-- The loop `for (c = buf; c && *c;)`. -/
def confScan (pattern buf : Bytes) (c : Nat) (s : ConfState) :
    Option (Bytes × ConfState) :=
  match buf[c]? with
  | none => none
  | some b =>
      if b = 0 then some (buf, s)
      else
        match _h : confLine pattern buf c s with
        | none => none
        | some (buf', s', none) => some (buf', s')
        | some (buf', s', some c') => confScan pattern buf' c' s'
termination_by buf.length - c
decreasing_by exact confLine_progress _h

section Scan

variable {pattern buf : Bytes} {c : Nat} {b : UInt8}

theorem confScan_outside (s : ConfState) (h : buf[c]? = none) :
    confScan pattern buf c s = none := by
  rw [confScan, h]

theorem confScan_nul (s : ConfState) (h : buf[c]? = some 0) :
    confScan pattern buf c s = some (buf, s) := by
  rw [confScan, h]
  exact if_pos rfl

/-- A turn of the scan that cannot read its line has no result. -/
theorem confScan_fault (s : ConfState) (h : buf[c]? = some b) (hb : b ≠ 0)
    (hl : confLine pattern buf c s = none) : confScan pattern buf c s = none := by
  rw [confScan, h]
  dsimp only
  rw [if_neg hb]
  split
  · rfl
  · next heq => rw [hl] at heq; exact nomatch heq
  · next heq => rw [hl] at heq; exact nomatch heq

/-- A turn without a newline is the last one. -/
theorem confScan_last {buf' : Bytes} {s s' : ConfState} (h : buf[c]? = some b)
    (hb : b ≠ 0) (hl : confLine pattern buf c s = some (buf', s', none)) :
    confScan pattern buf c s = some (buf', s') := by
  rw [confScan, h]
  dsimp only
  rw [if_neg hb]
  split
  · next heq => rw [hl] at heq; exact nomatch heq
  · next heq =>
      obtain ⟨rfl, h'⟩ := Prod.mk.inj (Option.some.inj (hl.symm.trans heq))
      rw [(Prod.mk.inj h').1]
  · next heq =>
      obtain ⟨-, h'⟩ := Prod.mk.inj (Option.some.inj (hl.symm.trans heq))
      exact nomatch (Prod.mk.inj h').2

/-- A turn that finds a newline goes on behind it. -/
theorem confScan_next {buf' : Bytes} {c' : Nat} {s s' : ConfState}
    (h : buf[c]? = some b) (hb : b ≠ 0)
    (hl : confLine pattern buf c s = some (buf', s', some c')) :
    confScan pattern buf c s = confScan pattern buf' c' s' := by
  rw [confScan, h]
  dsimp only
  rw [if_neg hb]
  split
  · next heq => rw [hl] at heq; exact nomatch heq
  · next heq =>
      obtain ⟨-, h'⟩ := Prod.mk.inj (Option.some.inj (hl.symm.trans heq))
      exact nomatch (Prod.mk.inj h').2
  · next heq =>
      obtain ⟨rfl, h'⟩ := Prod.mk.inj (Option.some.inj (hl.symm.trans heq))
      obtain ⟨rfl, hc⟩ := Prod.mk.inj h'
      rw [Option.some.inj hc]

end Scan

/-- **What the scan preserves**: a property that every turn keeps. -/
theorem confScan_preserves {P : Bytes → ConfState → Prop} {pattern : Bytes}
    (hline : ∀ {buf buf' c s s' o},
      confLine pattern buf c s = some (buf', s', o) → P buf s → P buf' s')
    {buf buf' : Bytes} {c : Nat} {s s' : ConfState}
    (h : confScan pattern buf c s = some (buf', s')) (hP : P buf s) :
    P buf' s' := by
  induction hd : buf.length - c using Nat.strongRecOn generalizing buf c s with
  | _ d ih =>
      cases hg : buf[c]? with
      | none => rw [confScan_outside s hg] at h; exact nomatch h
      | some b =>
          by_cases hb : b = 0
          · subst hb
            rw [confScan_nul s hg] at h
            obtain ⟨rfl, rfl⟩ := Prod.mk.inj (Option.some.inj h)
            exact hP
          · cases hl : confLine pattern buf c s with
            | none => rw [confScan_fault s hg hb hl] at h; exact nomatch h
            | some res =>
                obtain ⟨buf₁, s₁, o⟩ := res
                have hP₁ := hline hl hP
                cases o with
                | none =>
                    rw [confScan_last hg hb hl] at h
                    obtain ⟨rfl, rfl⟩ := Prod.mk.inj (Option.some.inj h)
                    exact hP₁
                | some c' =>
                    rw [confScan_next hg hb hl] at h
                    exact ih _ (hd ▸ confLine_progress hl) h hP₁ rfl

/-- The scan keeps the array's size. -/
theorem confScan_length {pattern buf buf' : Bytes} {c : Nat} {s s' : ConfState}
    (h : confScan pattern buf c s = some (buf', s')) : buf'.length = buf.length :=
  confScan_preserves (P := fun m _ => m.length = buf.length)
    (fun hl hP => (confLine_length hl).trans hP) h rfl

/-- `sizeof(buf)`. -/
def confBufSize : Nat := 4096

/-- The bytes that the automatic array `buf` happens to hold. -/
abbrev Frame := { b : Bytes // b.length = confBufSize }

/-- An array of NULs. -/
def zeroFrame : Frame := ⟨List.replicate confBufSize 0, List.length_replicate⟩

theorem zeroFrame_get {i : Nat} (hi : i < confBufSize) :
    zeroFrame.1[i]? = some 0 := List.getElem?_replicate_of_lt hi

/-- What `open` and `read` make of a tests.conf file. -/
inductive ConfFile where
  | absent
  | unreadable
  | contents (b : Bytes)

/-- The array after `read(fd, buf, sizeof(buf))`. -/
def readInto (b : Bytes) (frame : Frame) : Bytes :=
  b.take confBufSize ++ frame.1.drop (b.take confBufSize).length

/-- `test_read_config`: the array as the function leaves it, and the test. -/
def testReadConfig (fs : Bytes → ConfFile) (frame : Frame) (t : Test) :
    Option (Bytes × ConfState) :=
  match splitLastSlash t.path with
  | none => some (frame.1, ⟨t, []⟩)
  | some (dir, file) =>
      match fs (dir ++ str "/tests.conf") with
      | .absent => some (frame.1, ⟨t, []⟩)
      | .unreadable => confScan (file ++ str ":") frame.1 0 ⟨t, []⟩
      | .contents b =>
          confScan (file ++ str ":") (readInto b frame) 0 ⟨t, []⟩

end SpufsConfScan
