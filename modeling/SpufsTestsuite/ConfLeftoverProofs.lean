import SpufsTestsuite.ConfReferenceProofs

/-! # What the array still holds — the scanner and the bytes behind the file

    `test_read_config` never writes a NUL behind the bytes it has read: the
    scan stops at the first NUL the array happens to hold.  Four facts about
    the scan decide what that means, for every pattern (a file name may even
    hold a newline):

    * LOCALITY (`confScan_append`): a scan that returns depends only on the
      memory up to the end it needed;
    * STORED NAMES (`confScan_named`): every pointer it stores is a string's;
    * TOTALITY (`confScan_isSome`): if the last byte of the memory is NUL, the
      scan returns;
    * NO NUL, NO RESULT (`confScan_no_nul`).

    Together: the leftover does not matter exactly when its first byte is a
    NUL. -/

namespace SpufsConfLeftover

open CString SpufsTest SpufsConfScan SpufsConfReference

/-! ## Locality -/

/-- The handler reads the token it is given and nothing behind its NUL. -/
theorem handleTestconfToken_append {c c' : ConfState} {m w z : Bytes} {i : Nat}
    (t : Bytes) (hm : m.drop i = w ++ 0 :: z) (h0 : (0 : UInt8) ∉ w)
    (h : handleTestconfToken c m i = some c') :
    handleTestconfToken c (m ++ t) i = some c' := by
  have hi : i ≤ m.length := by
    have hlen := congrArg List.length hm
    simp only [List.length_drop, List.length_append, List.length_cons] at hlen
    omega
  have hm' : (m ++ t).drop i = w ++ 0 :: (z ++ t) := by
    rw [List.drop_append_of_le_length hi, hm, List.append_assoc]
    rfl
  rw [handleTestconfToken_word c hm h0] at h
  rw [handleTestconfToken_word c hm' h0]
  exact h

theorem confLineStart_append {pattern m : Bytes} {o : Option Nat} (t : Bytes)
    (h : confLineStart pattern m = some o) :
    confLineStart pattern (m ++ t) = some o := by
  cases m with
  | nil => cases h
  | cons b m =>
      rw [confLineStart] at h
      rw [List.cons_append, confLineStart]
      by_cases h35 : b = 35
      · rw [if_pos h35] at h ⊢
        exact h
      rw [if_neg h35] at h ⊢
      cases hs : startsWith pattern (b :: m) with
      | none => rw [hs] at h; cases h
      | some o₁ =>
          rw [hs] at h
          rw [← List.cons_append, startsWith_append t hs]
          cases o₁ with
          | true => exact h
          | false =>
              cases hs' : startsWith (str "*:") (b :: m) with
              | none => rw [hs'] at h; cases h
              | some o₂ =>
                  rw [hs'] at h
                  rw [startsWith_append t hs']
                  exact h

/-- A turn that ends is the same with more memory behind. -/
theorem confLine_append {pattern buf buf' : Bytes} {c : Nat} {s s' : ConfState}
    {o : Option Nat} (t : Bytes)
    (h : confLine pattern buf c s = some (buf', s', o)) :
    confLine pattern (buf ++ t) c s = some (buf' ++ t, s', o) := by
  obtain ⟨n, newline, hn, hnl, rfl, hbody⟩ := confLine_cases h
  have hlt := (spanLen_drop hn).1
  have hdrop : ∀ {i : Nat}, i ≤ buf.length →
      (buf ++ t).drop i = buf.drop i ++ t := fun hi =>
    List.drop_append_of_le_length hi
  rw [confLine, hdrop (by omega), spanLen_append t hn]
  dsimp only
  rw [hdrop (by omega), strchr_append t hnl]
  dsimp only
  rcases hbody with ⟨hst, rfl, rfl⟩ | ⟨k, hst, htok⟩
  · rw [confLineStart_append t hst]
  · rw [confLineStart_append t hst]
    dsimp only
    have hset : terminateLine (buf ++ t) (c + n) newline
        = terminateLine buf (c + n) newline ++ t := by
      cases newline with
      | none => rfl
      | some e =>
          have hget := strchr_some hnl
          rw [List.getElem?_drop] at hget
          exact List.set_append_left _ _ (List.getElem?_eq_some_iff.mp hget).1
    rw [hset, tokens_append t
      (fun hm h0 hf => handleTestconfToken_append t hm h0 hf) htok]

/-- **LOCALITY**: a scan that returns does not depend on the memory behind. -/
theorem confScan_append {pattern buf buf' : Bytes} {c : Nat} {s s' : ConfState}
    (t : Bytes) (h : confScan pattern buf c s = some (buf', s')) :
    confScan pattern (buf ++ t) c s = some (buf' ++ t, s') := by
  induction hd : buf.length - c using Nat.strongRecOn generalizing buf c s with
  | _ d ih =>
      cases hg : buf[c]? with
      | none => rw [confScan_outside s hg] at h; exact nomatch h
      | some b =>
          have hg' : (buf ++ t)[c]? = some b := by
            rw [List.getElem?_append_left (List.getElem?_eq_some_iff.mp hg).1, hg]
          by_cases hb : b = 0
          · subst hb
            rw [confScan_nul s hg] at h
            obtain ⟨rfl, rfl⟩ := Prod.mk.inj (Option.some.inj h)
            exact confScan_nul s hg'
          · cases hl : confLine pattern buf c s with
            | none => rw [confScan_fault s hg hb hl] at h; exact nomatch h
            | some res =>
                obtain ⟨buf₁, s₁, o⟩ := res
                have hl' := confLine_append t hl
                cases o with
                | none =>
                    rw [confScan_last hg hb hl] at h
                    obtain ⟨rfl, rfl⟩ := Prod.mk.inj (Option.some.inj h)
                    exact confScan_last hg' hb hl'
                | some c' =>
                    rw [confScan_next hg hb hl] at h
                    rw [confScan_next hg' hb hl']
                    exact ih _ (hd ▸ confLine_progress hl) h rfl

/-! ## Stored names -/

/-- Every stored capability points to a string. -/
def Named (m : Bytes) (s : ConfState) : Prop :=
  ∀ rc ∈ s.test.capsRequired, (0 : UInt8) ∈ m.drop rc.cap

/-- Pointers to strings lie in the memory. -/
theorem Named.inside {m : Bytes} {s : ConfState} {L : Nat} {rc : RequiredCap}
    (h : Named m s) (hm : m.length = L) (hrc : rc ∈ s.test.capsRequired) :
    rc.cap < L := by
  have hpos := List.length_pos_of_mem (h rc hrc)
  rw [List.length_drop, hm] at hpos
  omega

/-- A NUL more in the memory leaves every string a string. -/
theorem Named.set {m : Bytes} {s : ConfState} (h : Named m s) (i : Nat) :
    Named (m.set i 0) s := by
  intro rc hrc
  rw [List.drop_set]
  split
  · exact h rc hrc
  · obtain ⟨k, hk⟩ := List.getElem?_of_mem (h rc hrc)
    refine List.mem_of_getElem? (i := k) ?_
    rw [List.getElem?_set]
    split
    · next heq =>
        rw [heq, if_pos (List.getElem?_eq_some_iff.mp hk).1]
    · exact hk

/-- A token adds at most a pointer into the token. -/
theorem handleWord_caps {c : ConfState} {tok : Nat} {w : Bytes}
    {rc : RequiredCap} (h : rc ∈ (handleWord c tok w).test.capsRequired) :
    rc ∈ c.test.capsRequired ∨ ∃ k, k ≤ w.length ∧ rc.cap = tok + k := by
  have hadd : ∀ {k : Nat} {inv : Bool}, k ≤ w.length →
      rc ∈ c.test.capsRequired ++ [⟨tok + k, inv⟩] →
      rc ∈ c.test.capsRequired ∨ ∃ k, k ≤ w.length ∧ rc.cap = tok + k := by
    intro k inv hk hmem
    rcases List.mem_append.mp hmem with hmem | hmem
    · exact Or.inl hmem
    · rw [List.mem_singleton.mp hmem]
      exact Or.inr ⟨k, hk, rfl⟩
  rw [handleWord] at h
  by_cases h1 : w = str "disabled"
  · rw [if_pos h1] at h; exact Or.inl h
  rw [if_neg h1] at h
  by_cases h2 : w = str "ignored"
  · rw [if_pos h2] at h; exact Or.inl h
  rw [if_neg h2] at h
  by_cases h3 : (str "timeout=").isPrefixOf w = true
  · rw [if_pos h3] at h; exact Or.inl h
  rw [if_neg h3] at h
  by_cases h4 : (str "expected_rc=").isPrefixOf w = true
  · rw [if_pos h4] at h; exact Or.inl h
  rw [if_neg h4] at h
  by_cases h5 : (str "signal=").isPrefixOf w = true
  · rw [if_pos h5] at h; exact Or.inl h
  rw [if_neg h5] at h
  by_cases h6 : (str "cap_").isPrefixOf w = true
  · rw [if_pos h6] at h
    exact hadd (List.isPrefixOf_iff_prefix.mp h6).length_le h
  rw [if_neg h6] at h
  by_cases h7 : (str "!cap_").isPrefixOf w = true
  · rw [if_pos h7] at h
    exact hadd (List.isPrefixOf_iff_prefix.mp h7).length_le h
  rw [if_neg h7] at h
  exact Or.inl h

/-- The handler stores pointers to strings only. -/
theorem handleTestconfToken_named {c c' : ConfState} {m w z : Bytes} {i : Nat}
    (hm : m.drop i = w ++ 0 :: z) (h0 : (0 : UInt8) ∉ w)
    (h : handleTestconfToken c m i = some c') (hc : Named m c) : Named m c' := by
  rw [handleTestconfToken_word c hm h0] at h
  intro rc hrc
  rw [← Option.some.inj h] at hrc
  rcases handleWord_caps hrc with hrc | ⟨k, hk, hcap⟩
  · exact hc rc hrc
  · rw [hcap, ← List.drop_drop, hm, List.drop_append_of_le_length hk]
    exact List.mem_append_right _ List.mem_cons_self

theorem confLine_named {pattern buf buf' : Bytes} {c : Nat} {s s' : ConfState}
    {o : Option Nat} (h : confLine pattern buf c s = some (buf', s', o))
    (hs : Named buf s) : Named buf' s' := by
  obtain ⟨n, newline, -, -, -, ⟨-, rfl, rfl⟩ | ⟨k, -, htok⟩⟩ := confLine_cases h
  · exact hs
  · refine tokens_preserves (fun hP => hP.set _) handleTestconfToken_named htok ?_
    cases newline with
    | none => exact hs
    | some e => exact hs.set (c + n + e)

/-- A scan that returns has stored pointers to strings only. -/
theorem confScan_named {pattern buf buf' : Bytes} {c : Nat} {s s' : ConfState}
    (h : confScan pattern buf c s = some (buf', s')) (hs : Named buf s) :
    Named buf' s' :=
  confScan_preserves confLine_named h hs

/-- Pointers to strings denote names, whatever stands behind the memory. -/
theorem Named.view {m : Bytes} {s : ConfState} (h : Named m s) :
    ∃ v, ∀ t, confView (m ++ t) s.test = some v := by
  have hcaps : ∀ {rcs : List RequiredCap}, (∀ rc ∈ rcs, (0 : UInt8) ∈ m.drop rc.cap) →
      ∃ names, ∀ t, rcs.mapM (fun rc => (cstr ((m ++ t).drop rc.cap)).map
        (fun name => (name, rc.invert))) = some names := by
    intro rcs hrcs
    induction rcs with
    | nil => exact ⟨[], fun _ => rfl⟩
    | cons rc rcs ih =>
        obtain ⟨names, hnames⟩ := ih (fun r hr => hrcs r (List.mem_cons_of_mem _ hr))
        have hrc := hrcs rc List.mem_cons_self
        have hle : rc.cap ≤ m.length := by
          have hpos := List.length_pos_of_mem hrc
          rw [List.length_drop] at hpos
          omega
        obtain ⟨w, hw⟩ := cstr_isSome hrc
        refine ⟨(w, rc.invert) :: names, ?_⟩
        intro t
        rw [List.mapM_cons, hnames t, List.drop_append_of_le_length hle,
          cstr_append t hw]
        rfl
  obtain ⟨names, hnames⟩ := hcaps h
  refine ⟨⟨bare s.test, names⟩, ?_⟩
  intro t
  rw [confView, hnames t]
  rfl

/-! ## Totality -/

/-- Memory of `L` bytes that ends in a NUL. -/
structure Closed (L : Nat) (buf : Bytes) : Prop where
  length : buf.length = L
  last   : buf[L - 1]? = some 0

/-- A string starts at every position. -/
theorem Closed.mem {L : Nat} {buf : Bytes} (h : Closed L buf) {i : Nat}
    (hi : i < L) : (0 : UInt8) ∈ buf.drop i := by
  refine List.mem_of_getElem? (i := L - 1 - i) ?_
  rw [List.getElem?_drop, Nat.add_sub_cancel' (by omega)]
  exact h.last

/-- The token loop on a string returns and leaves the memory behind the string
    alone. -/
theorem tokens_behind {x r m : Bytes} {p : Nat} (c : ConfState)
    (hm : m.drop p = x ++ 0 :: r) (h0 : (0 : UInt8) ∉ x) :
    ∃ m' c', tokens isDelim handleTestconfToken m p c = some (m', c')
      ∧ m'.drop (p + x.length) = 0 :: r := by
  obtain ⟨m', c', htok, -, -, hdrop⟩ :=
    tokens_refines (f := handleTestconfToken)
      (g := fun (_ : Unit) _ => ()) (I := fun _ _ _ _ => True)
      (show isDelim 0 = false from rfl)
      (fun _ _ _ => trivial)
      (fun {_ _ _ _ s _} hm h0 _ => ⟨_, handleTestconfToken_word s hm h0, trivial⟩)
      (s := c) (a := ()) hm h0 trivial
  exact ⟨m', c', htok, hdrop⟩

/-- The token loop returns and keeps the memory closed. -/
theorem tokens_closed {L p : Nat} {m : Bytes} (c : ConfState) (h : Closed L m)
    (hp : p < L) :
    ∃ m' c', tokens isDelim handleTestconfToken m p c = some (m', c')
      ∧ Closed L m' := by
  obtain ⟨x, hx⟩ := cstr_isSome (h.mem hp)
  obtain ⟨r, hm, h0⟩ := cstr_eq_some.mp hx
  obtain ⟨m', c', htok, hdrop⟩ := tokens_behind c hm h0
  refine ⟨m', c', htok, (tokens_length htok).trans h.length, ?_⟩
  have hlen : m.length - p = x.length + (r.length + 1) := by
    have := congrArg List.length hm
    simpa using this
  have hL := h.length
  have hlast := h.last
  rw [show L - 1 = p + x.length + r.length by omega, ← List.getElem?_drop]
    at hlast ⊢
  have hsame : m.drop (p + x.length) = 0 :: r := by
    rw [← List.drop_drop, hm, List.drop_left]
  rw [hdrop, ← hsame]
  exact hlast

/-- How a line starts can be seen, and its options lie in front of the NUL. -/
theorem confLineStart_isSome {pattern m : Bytes} (hp : (0 : UInt8) ∉ pattern)
    (hm : (0 : UInt8) ∈ m) :
    ∃ o, confLineStart pattern m = some o
      ∧ ∀ k, o = some k → (0 : UInt8) ∈ m.drop k := by
  have hrest : ∀ {q : Bytes}, (0 : UInt8) ∉ q → startsWith q m = some true →
      (0 : UInt8) ∈ m.drop q.length := by
    intro q hq hs
    obtain ⟨r, rfl⟩ := startsWith_true.mp hs
    rw [List.drop_left]
    rcases List.mem_append.mp hm with h | h
    · exact absurd h hq
    · exact h
  obtain ⟨o₁, h1⟩ := startsWith_isSome hp hm
  obtain ⟨o₂, h2⟩ := startsWith_isSome
    (show (0 : UInt8) ∉ str "*:" by decide) hm
  cases m with
  | nil => cases hm
  | cons b m =>
      rw [confLineStart]
      by_cases h35 : b = 35
      · rw [if_pos h35]
        exact ⟨none, rfl, fun k hk => by cases hk⟩
      rw [if_neg h35, h1]
      cases o₁ with
      | true =>
          refine ⟨some pattern.length, rfl, ?_⟩
          intro k hk
          rw [← Option.some.inj hk]
          exact hrest hp h1
      | false =>
          rw [h2]
          cases o₂ with
          | true =>
              refine ⟨some 2, rfl, ?_⟩
              intro k hk
              rw [← Option.some.inj hk]
              exact hrest (q := str "*:") (by decide) h2
          | false => exact ⟨none, rfl, fun k hk => by cases hk⟩

/-- One turn returns and keeps the memory closed. -/
theorem confLine_closed {pattern buf : Bytes} {L c : Nat} (s : ConfState)
    (hp : (0 : UInt8) ∉ pattern) (h : Closed L buf) (hc : c < L) :
    ∃ buf' s' o, confLine pattern buf c s = some (buf', s', o)
      ∧ Closed L buf' ∧ ∀ c', o = some c' → c' < L := by
  obtain ⟨n, hn⟩ := spanLen_isSome (p := isspace) (h.mem hc) rfl
  have hcn : c + n < L := h.length ▸ (spanLen_drop hn).1
  obtain ⟨newline, hnl⟩ := strchr_isSome 10 (h.mem hcn)
  obtain ⟨start, hst, hstart⟩ := confLineStart_isSome hp (h.mem hcn)
  have hnext : ∀ c', newline.map (fun e => c + n + e + 1) = some c' → c' < L := by
    intro c' hc'
    obtain ⟨e, rfl, rfl⟩ := Option.map_eq_some_iff.mp hc'
    have hget := strchr_some hnl
    rw [List.getElem?_drop] at hget
    have hlt := h.length ▸ (List.getElem?_eq_some_iff.mp hget).1
    have hne : c + n + e ≠ L - 1 := by
      intro heq
      rw [heq, h.last] at hget
      exact nomatch hget
    omega
  rw [confLine, hn]
  dsimp only
  rw [hnl]
  dsimp only
  rw [hst]
  cases start with
  | none => exact ⟨buf, s, _, rfl, h, hnext⟩
  | some k =>
      have hk : c + n + k < L := by
        have hpos := List.length_pos_of_mem (hstart k rfl)
        rw [List.length_drop, List.length_drop, h.length] at hpos
        omega
      have hcl : Closed L (terminateLine buf (c + n) newline) := by
        refine ⟨(terminateLine_length buf _ newline).trans h.length, ?_⟩
        cases newline with
        | none => exact h.last
        | some e =>
            show (buf.set (c + n + e) 0)[L - 1]? = some 0
            rw [List.getElem?_set]
            split
            · next heq => rw [if_pos (by rw [h.length]; omega)]
            · exact h.last
      obtain ⟨buf', s', htok, hcl'⟩ := tokens_closed s hcl hk
      refine ⟨buf', s', _, ?_, hcl', hnext⟩
      dsimp only
      rw [htok]

/-- **TOTALITY**: in closed memory the scan returns. -/
theorem confScan_isSome {pattern buf : Bytes} {L c : Nat} (s : ConfState)
    (hp : (0 : UInt8) ∉ pattern) (h : Closed L buf) (hc : c < L) :
    ∃ buf' s', confScan pattern buf c s = some (buf', s') := by
  induction hd : L - c using Nat.strongRecOn generalizing buf c s with
  | _ d ih =>
      have hcb : c < buf.length := by rw [h.length]; exact hc
      have hg : buf[c]? = some buf[c] := List.getElem?_eq_getElem hcb
      by_cases hb : buf[c] = 0
      · rw [hb] at hg
        exact ⟨buf, s, confScan_nul s hg⟩
      · obtain ⟨buf₁, s₁, o, hl, hcl, hnext⟩ := confLine_closed s hp h hc
        cases o with
        | none => exact ⟨buf₁, s₁, confScan_last hg hb hl⟩
        | some c' =>
            have hlt := confLine_progress hl
            rw [hcl.length, h.length, hd] at hlt
            obtain ⟨buf', s', hscan⟩ := ih _ hlt s₁ hcl (hnext c' rfl) rfl
            exact ⟨buf', s', (confScan_next hg hb hl).trans hscan⟩

/-! ## No NUL, no result -/

/-- A turn in memory without a NUL faults, or goes on behind a newline with
    the memory behind it as it was. -/
theorem confLine_no_nul {pattern buf buf' : Bytes} {c : Nat} {s s' : ConfState}
    {o : Option Nat} (h0 : (0 : UInt8) ∉ buf.drop c)
    (h : confLine pattern buf c s = some (buf', s', o)) :
    ∃ c', o = some c' ∧ (0 : UInt8) ∉ buf'.drop c' := by
  obtain ⟨n, newline, -, hnl, rfl, hbody⟩ := confLine_cases h
  have h0n : ∀ i, c ≤ i → (0 : UInt8) ∉ buf.drop i := by
    intro i hi hz
    rw [show i = c + (i - c) by omega, ← List.drop_drop] at hz
    exact h0 (List.mem_of_mem_drop hz)
  cases newline with
  | none => exact absurd (strchr_stops hnl) (h0n _ (by omega))
  | some e =>
      refine ⟨_, rfl, ?_⟩
      rcases hbody with ⟨-, rfl, -⟩ | ⟨k, -, htok⟩
      · exact h0n (c + n + e + 1) (by omega)
      have hget := strchr_some hnl
      rw [List.getElem?_drop] at hget
      have hlt := (List.getElem?_eq_some_iff.mp hget).1
      rw [terminateLine] at htok
      by_cases hk : k ≤ e
      · -- the newline has become the NUL that ends the options
        have hm : (buf.set (c + n + e) 0).drop (c + n + k)
            = (buf.drop (c + n + k)).take (e - k) ++ 0 :: buf.drop (c + n + e + 1) := by
          rw [List.drop_set, if_neg (by omega), List.set_eq_take_append_cons_drop,
            if_pos (by rw [List.length_drop]; omega), List.drop_drop,
            show c + n + e - (c + n + k) = e - k by omega,
            show c + n + k + (e - k + 1) = c + n + e + 1 by omega]
        obtain ⟨m', c', htok', hdrop⟩ := tokens_behind s hm
          (fun hz => h0n (c + n + k) (by omega) (List.mem_of_mem_take hz))
        obtain ⟨rfl, -⟩ := Prod.mk.inj (Option.some.inj (htok'.symm.trans htok))
        rw [List.length_take, List.length_drop, Nat.min_eq_left (by omega),
          show c + n + k + (e - k) = c + n + e by omega] at hdrop
        rw [← List.drop_drop, hdrop]
        exact h0n (c + n + e + 1) (by omega)
      · -- a newline in the pattern: the options start behind the NUL
        rw [tokens_no_nul s (by
          rw [List.drop_set_of_lt (by omega)]
          exact h0n _ (by omega))] at htok
        exact nomatch htok

/-- **NO NUL, NO RESULT**: in memory without a NUL the scan runs off the end. -/
theorem confScan_no_nul {pattern buf : Bytes} {c : Nat} (s : ConfState)
    (h0 : (0 : UInt8) ∉ buf.drop c) : confScan pattern buf c s = none := by
  induction hd : buf.length - c using Nat.strongRecOn generalizing buf c s with
  | _ d ih =>
      cases hg : buf[c]? with
      | none => exact confScan_outside s hg
      | some b =>
          have hb : b ≠ 0 := by
            rintro rfl
            refine h0 (List.mem_of_getElem? (i := 0) ?_)
            rw [List.getElem?_drop]
            exact hg
          cases hl : confLine pattern buf c s with
          | none => exact confScan_fault s hg hb hl
          | some res =>
              obtain ⟨buf', s', o⟩ := res
              obtain ⟨c', rfl, h0'⟩ := confLine_no_nul h0 hl
              rw [confScan_next hg hb hl]
              exact ih _ (hd ▸ confLine_progress hl) s' h0' rfl

/-! ## What the leftover decides -/

/-- The array after `read`, at the first byte that `read` did not write. -/
theorem readInto_short {content : Bytes} {frame : Frame} {x : UInt8}
    (hlen : content.length < confBufSize)
    (hx : frame.1[content.length]? = some x) :
    readInto content frame
      = content ++ x :: frame.1.drop (content.length + 1) := by
  obtain ⟨hlt, rfl⟩ := List.getElem?_eq_some_iff.mp hx
  rw [readInto, List.take_of_length_le (Nat.le_of_lt hlen),
    List.drop_eq_getElem_cons hlt]

/-- Behind the file a zeroed array holds NULs. -/
theorem readInto_zeroFrame {content : Bytes} (hlen : content.length < confBufSize) :
    readInto content zeroFrame = content
      ++ 0 :: List.replicate (confBufSize - (content.length + 1)) 0 :=
  (readInto_short hlen (zeroFrame_get hlen)).trans
    (congrArg (fun r => content ++ 0 :: r) List.drop_replicate)

section Leftover

variable {fs : Bytes → ConfFile} {dir file content : Bytes}

/-- A NUL behind the file: the effect is that of the file. -/
theorem confEffect_nul_behind (type : TestType) (hslash : (47 : UInt8) ∉ file)
    (hname0 : (0 : UInt8) ∉ file)
    (hfs : fs (dir ++ str "/tests.conf") = .contents content)
    (hlen : content.length < confBufSize) :
    ∃ v, ∀ frame : Frame, frame.1[content.length]? = some 0 →
      confEffect fs frame (testCreate (dir ++ 47 :: file) type) = some v := by
  have hclosed : Closed (content.length + 1) (content ++ [0]) :=
    ⟨List.length_append, by simp⟩
  obtain ⟨buf', s', hscan⟩ := confScan_isSome (c := 0)
    ⟨testCreate (dir ++ 47 :: file) type, []⟩
    (not_mem_pattern hname0 (by decide)) hclosed (Nat.succ_pos _)
  obtain ⟨v, hv⟩ := (confScan_named hscan (fun rc hrc => nomatch hrc)).view
  refine ⟨v, ?_⟩
  intro frame hz
  have hbuf : readInto content frame
      = content ++ [0] ++ frame.1.drop (content.length + 1) := by
    rw [readInto_short hlen hz, List.append_assoc]
    rfl
  rw [confEffect, testReadConfig_path type hslash hfs, hbuf,
    confScan_append (frame.1.drop (content.length + 1)) hscan]
  exact hv _

/-- A leftover without a NUL: the scan leaves the array. -/
theorem confEffect_no_nul (type : TestType) (hslash : (47 : UInt8) ∉ file)
    (hfs : fs (dir ++ str "/tests.conf") = .contents content)
    (hnul : (0 : UInt8) ∉ content) {x : UInt8} (hx : x ≠ 0) :
    confEffect fs ⟨List.replicate confBufSize x, List.length_replicate⟩
      (testCreate (dir ++ 47 :: file) type) = none := by
  rw [confEffect, testReadConfig_path type hslash hfs, confScan_no_nul]
  · rfl
  · rw [List.drop_zero, readInto]
    intro hz
    rcases List.mem_append.mp hz with hz | hz
    · exact hnul (List.mem_of_mem_take hz)
    · exact hx (List.eq_of_mem_replicate (List.mem_of_mem_drop hz)).symm

/-- **The leftover decides**: two arrays give the test the same configuration,
    whatever they hold further behind, exactly when both hold a NUL right
    behind the file. -/
theorem testReadConfig_leftover (type : TestType) (hslash : (47 : UInt8) ∉ file)
    (hname0 : (0 : UInt8) ∉ file)
    (hfs : fs (dir ++ str "/tests.conf") = .contents content)
    (hlen : content.length < confBufSize) (hnul : (0 : UInt8) ∉ content)
    (x y : UInt8) :
    (∀ f g : Frame, f.1[content.length]? = some x →
        g.1[content.length]? = some y →
        ∃ v, confEffect fs f (testCreate (dir ++ 47 :: file) type) = some v
          ∧ confEffect fs g (testCreate (dir ++ 47 :: file) type) = some v)
      ↔ x = 0 ∧ y = 0 := by
  constructor
  · intro h
    obtain ⟨v, hf, hg⟩ :=
      h ⟨List.replicate confBufSize x, List.length_replicate⟩
        ⟨List.replicate confBufSize y, List.length_replicate⟩
        (List.getElem?_replicate_of_lt hlen) (List.getElem?_replicate_of_lt hlen)
    constructor
    · by_contra hx
      rw [confEffect_no_nul type hslash hfs hnul hx] at hf
      exact nomatch hf
    · by_contra hy
      rw [confEffect_no_nul type hslash hfs hnul hy] at hg
      exact nomatch hg
  · rintro ⟨rfl, rfl⟩ f g hf hg
    obtain ⟨v, hv⟩ := confEffect_nul_behind type hslash hname0 hfs hlen
    exact ⟨v, hv f hf, hv g hg⟩

end Leftover

/-- A line of 14 bytes. -/
def shortConf : Bytes := str "01-b: ignored\n"

theorem testReadConfig_leftover_sample :
    (∀ f g : Frame, f.1[shortConf.length]? = some 0 →
        g.1[shortConf.length]? = some 42 →
        ∃ v, confEffect (fun _ => .contents shortConf) f
              (testCreate (str "b" ++ 47 :: str "01-b") .test) = some v
          ∧ confEffect (fun _ => .contents shortConf) g
              (testCreate (str "b" ++ 47 :: str "01-b") .test) = some v)
      ↔ (0 : UInt8) = 0 ∧ (42 : UInt8) = 0 :=
  @testReadConfig_leftover (fun _ => .contents shortConf) (str "b") (str "01-b")
    shortConf .test (by decide) (by decide) rfl (by decide) (by decide) 0 42

/-- What an earlier call leaves in the array when it has read the longer file
    `"01-a: ignored\n*: disabled\n"` for the test `01-a`. -/
def staleFrame : Frame :=
  ⟨str "01-a: ignored" ++ 0 :: (str "*: disabled" ++ List.replicate 4071 0),
    by rw [List.length_append, List.length_cons, List.length_append,
      List.length_replicate]; rfl⟩

/-- The `*` line of the earlier file disables a test of another directory. -/
theorem testReadConfig_stale_options :
    confEffect (fun _ => .contents shortConf) zeroFrame
        (testCreate (str "b" ++ 47 :: str "01-b") .test)
      = some ⟨{ testCreate (str "b/01-b") .test with ignored := true }, []⟩
    ∧ confEffect (fun _ => .contents shortConf) staleFrame
        (testCreate (str "b" ++ 47 :: str "01-b") .test)
      = some ⟨{ testCreate (str "b/01-b") .test with
          ignored := true, disabled := true }, []⟩ := by
  constructor
  · have hbuf := readInto_zeroFrame (show shortConf.length < confBufSize by decide)
    rw [@confEffect_text (fun _ => .contents shortConf) _ (str "b") (str "01-b")
      shortConf _ _ .test (by decide) (by decide) (by decide) rfl hbuf (by decide)]
    decide
  · have hbuf : readInto shortConf staleFrame
        = shortConf ++ str "*: disabled" ++ 0 :: List.replicate 4070 0 := rfl
    rw [@confEffect_text (fun _ => .contents shortConf) _ (str "b") (str "01-b")
      shortConf _ _ .test (by decide) (by decide) (by decide) rfl hbuf (by decide)]
    decide

end SpufsConfLeftover
