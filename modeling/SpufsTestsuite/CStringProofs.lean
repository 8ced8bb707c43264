import Mathlib

/-! # C strings over byte memory — scans that may run off the end

    A piece of memory is a list of bytes and a pointer into it is an index.
    Every scan of the C library (`strchr`, `strcmp`, `strtok`, ...) stops only
    at a byte it can read, so each of them is partial here: `none` says that
    the scan reads past the end of the memory it was given.

    The file has three layers:

    * `spanLen`, the one scanning loop all others are made of, with its
      inversion lemma `spanLen_eq_some`;
    * the library functions on top of it, each with one lemma for memory that
      holds a NUL-terminated string and one lemma that says it does not look
      behind the bytes it reads;
    * the `strtok` loop `tokens`, with the rule `tokens_refines` that turns it
      into a fold over the words of the string. -/

namespace CString

/-- Bytes of memory, of a file, or of a NUL-free string. -/
abbrev Bytes := List UInt8

/-- The bytes of a string literal. -/
def str (s : String) : Bytes := s.toList.map Char.toUInt8

/-- `isspace` in the C locale; negative `char`s are not spaces. -/
def isspace (b : UInt8) : Bool := b == 32 || (9 ≤ b && b ≤ 13)

/-- `isdigit` in the C locale. -/
def isdigit (b : UInt8) : Bool := 48 ≤ b && b ≤ 57

/-- `isxdigit` in the C locale. -/
def isxdigit (b : UInt8) : Bool :=
  isdigit b || (65 ≤ b && b ≤ 70) || (97 ≤ b && b ≤ 102)

/-- The decimal digits of a number, as `%d` prints them. -/
def dec (n : Int) : Bytes := str (toString n)

/-- The last `k` hexadecimal digits of a number, as `%0kx` prints a number
    that has no more of them. -/
def hex : (k n : Nat) → Bytes
  | 0, _ => []
  | k + 1, n =>
      hex k (n / 16)
        ++ [if n % 16 < 10 then UInt8.ofNat (48 + n % 16) else UInt8.ofNat (87 + n % 16)]

/-! ## The scanning loop -/

/-- How many bytes of `m` satisfy `p` before the first one that does not. -/
def spanLen (p : UInt8 → Bool) : Bytes → Option Nat
  | [] => none
  | b :: m => if p b then (spanLen p m).map (· + 1) else some 0

/-- **The scan, said once**: it stops at the first byte that fails `p`. -/
theorem spanLen_eq_some {p : UInt8 → Bool} {m : Bytes} {n : Nat} :
    spanLen p m = some n ↔
      ∃ s b r, m = s ++ b :: r ∧ s.length = n ∧ (∀ x ∈ s, p x = true)
        ∧ p b = false := by
  induction m generalizing n with
  | nil =>
      constructor
      · intro h; exact nomatch h
      · rintro ⟨s, b, r, h, -⟩
        exact absurd h.symm (by simp)
  | cons c m ih =>
      by_cases hc : p c = true
      · rw [show spanLen p (c :: m)
          = if p c then (spanLen p m).map (· + 1) else some 0 from rfl,
          if_pos hc]
        constructor
        · intro h
          obtain ⟨k, hk, rfl⟩ := Option.map_eq_some_iff.mp h
          obtain ⟨s, b, r, rfl, rfl, hs, hb⟩ := ih.mp hk
          refine ⟨c :: s, b, r, rfl, rfl, ?_, hb⟩
          intro x hx
          rcases List.mem_cons.mp hx with rfl | hx
          · exact hc
          · exact hs x hx
        · rintro ⟨s, b, r, hm, hn, hs, hb⟩
          cases s with
          | nil =>
              obtain ⟨rfl, -⟩ := List.cons.inj hm
              rw [hc] at hb
              exact nomatch hb
          | cons d s =>
              obtain ⟨rfl, rfl⟩ := List.cons.inj hm
              have hk : spanLen p (s ++ b :: r) = some s.length :=
                ih.mpr ⟨s, b, r, rfl, rfl,
                  fun x hx => hs x (List.mem_cons_of_mem _ hx), hb⟩
              show (spanLen p (s ++ b :: r)).map (· + 1) = some n
              rw [hk, ← hn]
              rfl
      · rw [show spanLen p (c :: m)
          = if p c then (spanLen p m).map (· + 1) else some 0 from rfl,
          if_neg hc]
        constructor
        · intro h
          refine ⟨[], c, m, rfl, Option.some.inj h, ?_, Bool.eq_false_iff.mpr hc⟩
          intro x hx
          exact nomatch hx
        · rintro ⟨s, b, r, hm, hn, hs, hb⟩
          cases s with
          | nil => exact congrArg some hn
          | cons d s =>
              obtain ⟨rfl, -⟩ := List.cons.inj hm
              exact absurd (hs c List.mem_cons_self) hc

/-- The scan over `s` up to the byte `b` that stops it. -/
theorem spanLen_append_cons {p : UInt8 → Bool} {s : Bytes} {b : UInt8}
    (r : Bytes) (hs : ∀ x ∈ s, p x = true) (hb : p b = false) :
    spanLen p (s ++ b :: r) = some s.length :=
  spanLen_eq_some.mpr ⟨s, b, r, rfl, rfl, hs, hb⟩

/-- Bytes behind the end of a scan that succeeds are not looked at. -/
theorem spanLen_append {p : UInt8 → Bool} {m : Bytes} {n : Nat} (t : Bytes)
    (h : spanLen p m = some n) : spanLen p (m ++ t) = some n := by
  obtain ⟨s, b, r, rfl, rfl, hs, hb⟩ := spanLen_eq_some.mp h
  rw [List.append_assoc, List.cons_append]
  exact spanLen_append_cons (r ++ t) hs hb

/-- A scan over memory that holds a stopping byte succeeds. -/
theorem spanLen_isSome {p : UInt8 → Bool} {m : Bytes} {b : UInt8}
    (hb : b ∈ m) (hp : p b = false) : ∃ n, spanLen p m = some n := by
  induction m with
  | nil => exact nomatch hb
  | cons c m ih =>
      by_cases hc : p c = true
      · rcases List.mem_cons.mp hb with rfl | hm
        · rw [hp] at hc
          exact nomatch hc
        · obtain ⟨n, hn⟩ := ih hm
          exact ⟨n + 1, by simp [spanLen, hc, hn]⟩
      · exact ⟨0, by simp [spanLen, hc]⟩

/-- The scan from position `p`, in terms of the whole memory. -/
theorem spanLen_drop {p : UInt8 → Bool} {m : Bytes} {c n : Nat}
    (h : spanLen p (m.drop c) = some n) :
    c + n < m.length ∧ (∀ b, m[c + n]? = some b → p b = false)
      ∧ ∀ i, c ≤ i → i < c + n → ∀ b, m[i]? = some b → p b = true := by
  obtain ⟨s, b, r, hm, rfl, hs, hb⟩ := spanLen_eq_some.mp h
  have hlen : m.length - c = s.length + (r.length + 1) := by
    have := congrArg List.length hm
    simpa using this
  have hget : ∀ i, m[c + i]? = (s ++ b :: r)[i]? := by
    intro i
    rw [← hm, List.getElem?_drop]
  refine ⟨by omega, ?_, ?_⟩
  · intro b' hb'
    rw [hget, List.getElem?_append_right (Nat.le_refl _), Nat.sub_self] at hb'
    exact Option.some.inj hb' ▸ hb
  · intro i hci hi b' hb'
    rw [show i = c + (i - c) by omega, hget,
      List.getElem?_append_left (by omega)] at hb'
    exact hs b' (List.mem_of_getElem? hb')

/-! ## NUL-terminated strings -/

/-- The C string at the head of the memory: the bytes before its first NUL. -/
def cstr (m : Bytes) : Option Bytes :=
  (spanLen (· != 0) m).map (fun n => m.take n)

theorem cstr_eq_some {m s : Bytes} :
    cstr m = some s ↔ ∃ r, m = s ++ 0 :: r ∧ (0 : UInt8) ∉ s := by
  constructor
  · intro h
    obtain ⟨n, hn, rfl⟩ := Option.map_eq_some_iff.mp h
    obtain ⟨s, b, r, rfl, rfl, hs, hb⟩ := spanLen_eq_some.mp hn
    have hb0 : b = 0 := by simpa using hb
    refine ⟨r, by rw [List.take_left, hb0], ?_⟩
    rw [List.take_left]
    intro h0
    exact absurd (hs 0 h0) (by decide)
  · rintro ⟨r, rfl, h0⟩
    have hs : ∀ x ∈ s, (x != 0) = true := by
      intro x hx
      exact bne_iff_ne.mpr (fun h => h0 (h ▸ hx))
    rw [cstr, spanLen_append_cons r hs (by decide)]
    exact congrArg some (List.take_left ..)

/-- The string in front of its own NUL. -/
theorem cstr_append_zero {s : Bytes} (r : Bytes) (h0 : (0 : UInt8) ∉ s) :
    cstr (s ++ 0 :: r) = some s :=
  cstr_eq_some.mpr ⟨r, rfl, h0⟩

theorem cstr_append {m s : Bytes} (t : Bytes) (h : cstr m = some s) :
    cstr (m ++ t) = some s := by
  obtain ⟨r, rfl, h0⟩ := cstr_eq_some.mp h
  rw [List.append_assoc, List.cons_append]
  exact cstr_append_zero (r ++ t) h0

/-- Memory that holds a NUL holds a string. -/
theorem cstr_isSome {m : Bytes} (h : (0 : UInt8) ∈ m) : ∃ s, cstr m = some s := by
  obtain ⟨n, hn⟩ := spanLen_isSome (p := (· != 0)) h (by decide)
  exact ⟨m.take n, by rw [cstr, hn]; rfl⟩

@[simp] theorem cstr_isSome_iff {m : Bytes} :
    (cstr m).isSome = true ↔ (0 : UInt8) ∈ m := by
  constructor
  · intro h
    obtain ⟨s, hs⟩ := Option.isSome_iff_exists.mp h
    obtain ⟨r, rfl, -⟩ := cstr_eq_some.mp hs
    exact List.mem_append_right _ List.mem_cons_self
  · intro h
    exact Option.isSome_iff_exists.mpr (cstr_isSome h)

/-- `strchr`: the offset of the first `ch` before the NUL, if there is one. -/
def strchr (ch : UInt8) (m : Bytes) : Option (Option Nat) :=
  match spanLen (fun b => b != 0 && b != ch) m with
  | none => none
  | some n => some (if m[n]? = some ch then some n else none)

/-- `strchr` in a string that holds the character. -/
theorem strchr_found {ch : UInt8} {s : Bytes} (r : Bytes)
    (h0 : (0 : UInt8) ∉ s) (hs : ch ∉ s) :
    strchr ch (s ++ ch :: r) = some (some s.length) := by
  have hall : ∀ x ∈ s, (x != 0 && x != ch) = true := by
    intro x hx
    rw [Bool.and_eq_true, bne_iff_ne, bne_iff_ne]
    exact ⟨fun h => h0 (h ▸ hx), fun h => hs (h ▸ hx)⟩
  rw [strchr, spanLen_append_cons r hall (by simp)]
  simp

/-- `strchr` in a string that does not hold the character. -/
theorem strchr_none {ch : UInt8} {s : Bytes} (r : Bytes) (hch : ch ≠ 0)
    (h0 : (0 : UInt8) ∉ s) (hs : ch ∉ s) :
    strchr ch (s ++ 0 :: r) = some none := by
  have hall : ∀ x ∈ s, (x != 0 && x != ch) = true := by
    intro x hx
    rw [Bool.and_eq_true, bne_iff_ne, bne_iff_ne]
    exact ⟨fun h => h0 (h ▸ hx), fun h => hs (h ▸ hx)⟩
  rw [strchr, spanLen_append_cons r hall (by simp)]
  simp [hch.symm]

theorem strchr_append {ch : UInt8} {m : Bytes} {o : Option Nat} (t : Bytes)
    (h : strchr ch m = some o) : strchr ch (m ++ t) = some o := by
  rw [strchr] at h ⊢
  cases hn : spanLen (fun b => b != 0 && b != ch) m with
  | none => rw [hn] at h; exact nomatch h
  | some n =>
      rw [hn] at h
      rw [spanLen_append t hn]
      obtain ⟨s, b, r, rfl, rfl, -, -⟩ := spanLen_eq_some.mp hn
      rw [← h]
      simp

/-- In memory with a NUL in it `strchr` does not run off the end. -/
theorem strchr_isSome (ch : UInt8) {m : Bytes} (h : (0 : UInt8) ∈ m) :
    ∃ o, strchr ch m = some o := by
  obtain ⟨n, hn⟩ :=
    spanLen_isSome (p := fun b => b != 0 && b != ch) h rfl
  exact ⟨_, by rw [strchr, hn]⟩

/-- What `strchr` finds lies in the memory. -/
theorem strchr_some {ch : UInt8} {m : Bytes} {e : Nat}
    (h : strchr ch m = some (some e)) : m[e]? = some ch := by
  rw [strchr] at h
  cases hn : spanLen (fun b => b != 0 && b != ch) m with
  | none => rw [hn] at h; exact nomatch h
  | some n =>
      rw [hn] at h
      dsimp only at h
      by_cases hg : m[n]? = some ch
      · rw [if_pos hg] at h
        rw [← Option.some.inj (Option.some.inj h)]
        exact hg
      · rw [if_neg hg] at h
        exact nomatch Option.some.inj h

/-- Where `strchr` finds nothing it has found the NUL. -/
theorem strchr_stops {ch : UInt8} {m : Bytes}
    (h : strchr ch m = some none) : (0 : UInt8) ∈ m := by
  rw [strchr] at h
  cases hn : spanLen (fun b => b != 0 && b != ch) m with
  | none => rw [hn] at h; exact nomatch h
  | some n =>
      obtain ⟨s, b, r, rfl, rfl, -, hb⟩ := spanLen_eq_some.mp hn
      rw [hn] at h
      dsimp only at h
      have hget : (s ++ b :: r)[s.length]? = some b := by simp
      by_cases hch : b = ch
      · rw [hget, hch, if_pos rfl] at h
        exact nomatch Option.some.inj h
      · have h0 : b = 0 := by simpa [hch] using hb
        rw [h0]
        exact List.mem_append_right _ List.mem_cons_self

/-- `strncmp(m, pat, strlen(pat)) == 0`, for a NUL-free `pat`: the comparison
    stops at the first byte that differs. -/
def startsWith : (pat m : Bytes) → Option Bool
  | [], _ => some true
  | _ :: _, [] => none
  | p :: pat, b :: m => if b = p then startsWith pat m else some false

/-- The comparison against a string, decided by its bytes alone. -/
theorem startsWith_append_zero {pat : Bytes} (s r : Bytes)
    (hp : (0 : UInt8) ∉ pat) :
    startsWith pat (s ++ 0 :: r) = some (pat.isPrefixOf s) := by
  induction pat generalizing s with
  | nil => rfl
  | cons p pat ih =>
      have hp0 : (0 : UInt8) ≠ p := List.ne_of_not_mem_cons hp
      have hpat : (0 : UInt8) ∉ pat := List.not_mem_of_not_mem_cons hp
      cases s with
      | nil =>
          show (if (0 : UInt8) = p then _ else some false) = some false
          rw [if_neg hp0]
      | cons b s =>
          show (if b = p then startsWith pat (s ++ 0 :: r) else some false)
            = some ((p == b) && pat.isPrefixOf s)
          by_cases hbp : b = p
          · rw [if_pos hbp, ih s hpat, hbp, beq_self_eq_true, Bool.true_and]
          · rw [if_neg hbp, beq_eq_false_iff_ne.mpr (Ne.symm hbp), Bool.false_and]

theorem startsWith_append {pat m : Bytes} {o : Bool} (t : Bytes)
    (h : startsWith pat m = some o) : startsWith pat (m ++ t) = some o := by
  induction pat generalizing m with
  | nil => exact h
  | cons p pat ih =>
      cases m with
      | nil => exact nomatch h
      | cons b m =>
          rw [startsWith] at h
          rw [List.cons_append, startsWith]
          by_cases hbp : b = p
          · rw [if_pos hbp] at h ⊢
            exact ih h
          · rw [if_neg hbp] at h ⊢
            exact h

/-- A comparison that succeeds has read exactly the bytes of the pattern. -/
theorem startsWith_true {pat m : Bytes} :
    startsWith pat m = some true ↔ ∃ r, m = pat ++ r := by
  induction pat generalizing m with
  | nil => exact ⟨fun _ => ⟨m, rfl⟩, fun _ => rfl⟩
  | cons p pat ih =>
      cases m with
      | nil =>
          constructor
          · intro h; exact nomatch h
          · rintro ⟨r, h⟩; exact nomatch h
      | cons b m =>
          rw [startsWith]
          by_cases hbp : b = p
          · rw [if_pos hbp, ih, hbp]
            constructor
            · rintro ⟨r, rfl⟩; exact ⟨r, rfl⟩
            · rintro ⟨r, h⟩; exact ⟨r, (List.cons.inj h).2⟩
          · rw [if_neg hbp]
            constructor
            · intro h; exact nomatch h
            · rintro ⟨r, h⟩; exact absurd (List.cons.inj h).1 hbp

/-- The comparison against memory with a NUL in it never runs off the end. -/
theorem startsWith_isSome {pat m : Bytes} (hp : (0 : UInt8) ∉ pat)
    (hm : (0 : UInt8) ∈ m) : ∃ o, startsWith pat m = some o := by
  obtain ⟨s, hs⟩ := cstr_isSome hm
  obtain ⟨r, rfl, -⟩ := cstr_eq_some.mp hs
  exact ⟨_, startsWith_append_zero s r hp⟩

/-- The comparison runs off the end of a memory that ends within the pattern. -/
theorem startsWith_eq_none {pat m : Bytes} :
    startsWith pat m = none ↔ m <+: pat ∧ m.length < pat.length := by
  induction pat generalizing m with
  | nil => simp [startsWith]
  | cons p pat ih =>
      cases m with
      | nil => simp [startsWith]
      | cons b m =>
          rw [startsWith]
          by_cases hbp : b = p
          · rw [if_pos hbp, ih, hbp, List.cons_prefix_cons]
            simp
          · rw [if_neg hbp, List.cons_prefix_cons]
            simp [hbp]

/-- `strstr(m, needle) != NULL`: the needle is looked for at one place after the
    other, up to the NUL. -/
def strstr (needle : Bytes) : Bytes → Option Bool
  | [] => none
  | b :: m =>
      match startsWith needle (b :: m) with
      | none => none
      | some true => some true
      | some false => if b = 0 then some false else strstr needle m

/-- A prefix without a NUL ends in front of the first one. -/
theorem prefix_takeWhile_iff {pat m : Bytes} (hp : (0 : UInt8) ∉ pat) :
    pat <+: m.takeWhile (· != 0) ↔ pat <+: m := by
  constructor
  · intro h
    exact h.trans (List.takeWhile_prefix _)
  · rintro ⟨r, rfl⟩
    have hall : ∀ x ∈ pat, (x != 0) = true := by
      intro x hx
      exact bne_iff_ne.mpr (fun h => hp (h ▸ hx))
    rw [List.takeWhile_append_of_pos hall]
    exact List.prefix_append _ _

/-- **The search**: it finds what is in front of the first NUL, and it comes
    back empty where there is a NUL. -/
theorem strstr_iff {needle : Bytes} (hne : needle ≠ []) (hn : (0 : UInt8) ∉ needle)
    (m : Bytes) :
    (strstr needle m = some true ↔ needle <:+: m.takeWhile (· != 0))
      ∧ (strstr needle m = some false
        ↔ (0 : UInt8) ∈ m ∧ ¬ needle <:+: m.takeWhile (· != 0)) := by
  induction m with
  | nil => simp [strstr, hne]
  | cons b m ih =>
      rw [strstr]
      cases hs : startsWith needle (b :: m) with
      | none =>
          -- the memory ends within the needle
          obtain ⟨hpre, hlen⟩ := startsWith_eq_none.mp hs
          have h0 : (0 : UInt8) ∉ b :: m := fun h => hn (hpre.subset h)
          have hno : ¬ needle <:+: (b :: m).takeWhile (· != 0) := by
            intro h
            have := (h.trans (List.takeWhile_prefix _).isInfix).length_le
            omega
          exact ⟨iff_of_false (fun h => nomatch h) hno,
            iff_of_false (fun h => nomatch h) (fun h => h0 h.1)⟩
      | some found =>
          cases found with
          | true =>
              have hpre : needle <+: b :: m := by
                obtain ⟨r, hr⟩ := startsWith_true.mp hs
                exact ⟨r, hr.symm⟩
              have hyes := ((prefix_takeWhile_iff hn).mpr hpre).isInfix
              exact ⟨iff_of_true rfl hyes,
                iff_of_false (fun h => nomatch h) (fun h => h.2 hyes)⟩
          | false =>
              have hpre : ¬ needle <+: b :: m := by
                rintro ⟨r, hr⟩
                rw [startsWith_true.mpr ⟨r, hr.symm⟩] at hs
                exact nomatch hs
              dsimp only
              by_cases hb : b = 0
              · rw [if_pos hb, hb, List.takeWhile_cons_of_neg (by simp)]
                simp [hne]
              · rw [if_neg hb, List.takeWhile_cons_of_pos (by simpa using hb),
                  List.infix_cons_iff, ih.1, ih.2, List.mem_cons,
                  or_iff_right (Ne.symm hb), or_iff_right]
                · exact ⟨Iff.rfl, Iff.rfl⟩
                · intro h
                  refine hpre ((prefix_takeWhile_iff hn).mp ?_)
                  rw [List.takeWhile_cons_of_pos (by simpa using hb)]
                  exact h

/-- `strcmp(m, lit) == 0`, for a NUL-free `lit`. -/
def streq : (m lit : Bytes) → Option Bool
  | [], _ => none
  | b :: _, [] => some (b == 0)
  | b :: m, l :: lit => if b = l then streq m lit else some false

theorem streq_append_zero {s lit : Bytes} (r : Bytes) (h0 : (0 : UInt8) ∉ s)
    (hl : (0 : UInt8) ∉ lit) : streq (s ++ 0 :: r) lit = some (s == lit) := by
  induction s generalizing lit with
  | nil =>
      cases lit with
      | nil => rfl
      | cons l lit =>
          show (if (0 : UInt8) = l then _ else some false) = some false
          rw [if_neg (List.ne_of_not_mem_cons hl)]
  | cons b s ih =>
      have hb : (0 : UInt8) ≠ b := List.ne_of_not_mem_cons h0
      have hs : (0 : UInt8) ∉ s := List.not_mem_of_not_mem_cons h0
      cases lit with
      | nil =>
          show some (b == 0) = some false
          rw [beq_eq_false_iff_ne.mpr (Ne.symm hb)]
      | cons l lit =>
          show (if b = l then streq (s ++ 0 :: r) lit else some false)
            = some ((b == l) && (s == lit))
          by_cases hbl : b = l
          · rw [if_pos hbl, ih hs (List.not_mem_of_not_mem_cons hl), hbl,
              beq_self_eq_true, Bool.true_and]
          · rw [if_neg hbl, beq_eq_false_iff_ne.mpr hbl, Bool.false_and]

/-- The comparison runs off the end of a memory that ends within the string. -/
theorem streq_eq_none {m lit : Bytes} : streq m lit = none ↔ m <+: lit := by
  induction m generalizing lit with
  | nil => simp [streq]
  | cons b m ih =>
      cases lit with
      | nil => simp [streq]
      | cons l lit =>
          rw [streq, List.cons_prefix_cons]
          by_cases hbl : b = l
          · rw [if_pos hbl, ih]
            simp [hbl]
          · simp [hbl]

/-- The string is at the head of the memory, with its NUL. -/
theorem streq_eq_true {m lit : Bytes} : streq m lit = some true ↔ lit ++ [0] <+: m := by
  induction m generalizing lit with
  | nil => simp [streq]
  | cons b m ih =>
      cases lit with
      | nil =>
          rw [streq, List.nil_append, List.cons_prefix_cons, Option.some_inj, beq_iff_eq]
          exact ⟨fun h => ⟨h.symm, List.nil_prefix⟩, fun h => h.1.symm⟩
      | cons l lit =>
          rw [streq, List.cons_append, List.cons_prefix_cons]
          by_cases hbl : b = l
          · rw [if_pos hbl, ih]
            simp [hbl]
          · simp [hbl, Ne.symm hbl]

/-- `strrchr(path, '/')` as the split it is used for: the bytes before the
    last slash and the bytes after it. -/
def splitLastSlash : Bytes → Option (Bytes × Bytes)
  | [] => none
  | b :: s =>
      match splitLastSlash s with
      | some (d, f) => some (b :: d, f)
      | none => if b = 47 then some ([], s) else none

theorem splitLastSlash_none {s : Bytes} (hs : (47 : UInt8) ∉ s) :
    splitLastSlash s = none := by
  induction s with
  | nil => rfl
  | cons b s ih =>
      have hb : (47 : UInt8) ≠ b := List.ne_of_not_mem_cons hs
      rw [splitLastSlash, ih (List.not_mem_of_not_mem_cons hs)]
      exact if_neg (Ne.symm hb)

theorem splitLastSlash_append (d : Bytes) {f : Bytes} (hf : (47 : UInt8) ∉ f) :
    splitLastSlash (d ++ 47 :: f) = some (d, f) := by
  induction d with
  | nil =>
      show splitLastSlash (47 :: f) = some ([], f)
      rw [splitLastSlash, splitLastSlash_none hf]
      rfl
  | cons b d ih =>
      rw [List.cons_append, splitLastSlash, ih]

/-! ## `strtok`

    A call skips delimiters, takes the bytes up to the next delimiter or NUL
    as the token, and overwrites the delimiter behind it with a NUL. -/

/-- What one call of `strtok` leaves: the memory, the token it returns, and
    the position it saved for the next call. -/
structure Strtok where
  mem : Bytes
  tok : Option Nat
  save : Nat

/-- One call of `strtok`, on the string at `p` (the saved position, for the
    calls with a null pointer). -/
def strtok (delim : UInt8 → Bool) (m : Bytes) (p : Nat) : Option Strtok :=
  match spanLen delim (m.drop p) with
  | none => none
  | some n =>
      if m[p + n]? = some 0 then some ⟨m, none, p + n⟩
      else
        match spanLen (fun b => b != 0 && !delim b) (m.drop (p + n)) with
        | none => none
        | some k =>
            if m[p + n + k]? = some 0 then
              some ⟨m, some (p + n), p + n + k⟩
            else some ⟨m.set (p + n + k) 0, some (p + n), p + n + k + 1⟩

/-- **`strtok`, said once**: what a call that returns has read and written. -/
theorem strtok_cases {delim : UInt8 → Bool} {m : Bytes} {p : Nat} {r : Strtok}
    (h : strtok delim m p = some r) :
    (∃ n, spanLen delim (m.drop p) = some n ∧ m[p + n]? = some 0
        ∧ r = ⟨m, none, p + n⟩)
    ∨ ∃ n k, spanLen delim (m.drop p) = some n ∧ m[p + n]? ≠ some 0
        ∧ spanLen (fun b => b != 0 && !delim b) (m.drop (p + n)) = some k
        ∧ ((m[p + n + k]? = some 0 ∧ r = ⟨m, some (p + n), p + n + k⟩)
          ∨ (m[p + n + k]? ≠ some 0
            ∧ r = ⟨m.set (p + n + k) 0, some (p + n), p + n + k + 1⟩)) := by
  rw [strtok] at h
  cases hn : spanLen delim (m.drop p) with
  | none => rw [hn] at h; exact nomatch h
  | some n =>
      rw [hn] at h
      dsimp only at h
      by_cases hz : m[p + n]? = some 0
      · rw [if_pos hz] at h
        exact Or.inl ⟨n, rfl, hz, (Option.some.inj h).symm⟩
      · rw [if_neg hz] at h
        cases hk : spanLen (fun b => b != 0 && !delim b) (m.drop (p + n)) with
        | none => rw [hk] at h; exact nomatch h
        | some k =>
            rw [hk] at h
            dsimp only at h
            refine Or.inr ⟨n, k, rfl, hz, hk, ?_⟩
            by_cases hz' : m[p + n + k]? = some 0
            · rw [if_pos hz'] at h
              exact Or.inl ⟨hz', (Option.some.inj h).symm⟩
            · rw [if_neg hz'] at h
              exact Or.inr ⟨hz', (Option.some.inj h).symm⟩

/-- A word that is found is not empty. -/
theorem strtok_word_pos {delim : UInt8 → Bool} {m : Bytes} {p n k : Nat}
    (hn : spanLen delim (m.drop p) = some n) (hz : m[p + n]? ≠ some 0)
    (hk : spanLen (fun b => b != 0 && !delim b) (m.drop (p + n)) = some k) :
    0 < k := by
  rcases Nat.eq_zero_or_pos k with rfl | hpos
  · exfalso
    obtain ⟨hlt, hstop, -⟩ := spanLen_drop hn
    obtain ⟨-, hstop', -⟩ := spanLen_drop hk
    have hget : m[p + n]? = some m[p + n] := List.getElem?_eq_getElem hlt
    have hnd : delim m[p + n] = false := hstop _ hget
    have hb := hstop' _ hget
    rw [hnd, Bool.not_false, Bool.and_true, bne_eq_false_iff_eq] at hb
    exact hz (hb ▸ hget)
  · exact hpos

/-- A call that returns a token moves the saved position forward. -/
theorem strtok_progress {delim : UInt8 → Bool} {m : Bytes} {p t : Nat}
    {r : Strtok} (h : strtok delim m p = some r) (ht : r.tok = some t) :
    r.mem.length - r.save < m.length - p := by
  rcases strtok_cases h with ⟨n, -, -, rfl⟩ | ⟨n, k, hn, hz, hk, hr⟩
  · exact nomatch ht
  · have hpos := strtok_word_pos hn hz hk
    have hlt := (spanLen_drop hk).1
    rcases hr with ⟨-, rfl⟩ | ⟨-, rfl⟩
    · show m.length - (p + n + k) < m.length - p
      omega
    · show (m.set (p + n + k) 0).length - (p + n + k + 1) < m.length - p
      rw [List.length_set]
      omega

/-- The loop `for (tok = strtok(c, delim); tok; tok = strtok(NULL, delim))`
    around a body `f` that may look at the memory. -/
def tokens {σ : Type} (delim : UInt8 → Bool) (f : σ → Bytes → Nat → Option σ)
    (m : Bytes) (p : Nat) (s : σ) : Option (Bytes × σ) :=
  match _hr : strtok delim m p with
  | none => none
  | some r =>
      match _ht : r.tok with
      | none => some (r.mem, s)
      | some t =>
          match f s r.mem t with
          | none => none
          | some s' => tokens delim f r.mem r.save s'
termination_by m.length - p
decreasing_by exact strtok_progress _hr _ht

section TokenLoop

variable {σ : Type} {delim : UInt8 → Bool} {f : σ → Bytes → Nat → Option σ}

theorem tokens_fault {m : Bytes} {p : Nat} (s : σ)
    (h : strtok delim m p = none) : tokens delim f m p s = none := by
  rw [tokens]
  split
  · rfl
  · next r hr => rw [h] at hr; exact nomatch hr

theorem tokens_done {m : Bytes} {p : Nat} {r : Strtok} (s : σ)
    (h : strtok delim m p = some r) (ht : r.tok = none) :
    tokens delim f m p s = some (r.mem, s) := by
  rw [tokens]
  split
  · next hr => rw [h] at hr; exact nomatch hr
  · next r' hr =>
      obtain rfl := Option.some.inj (h.symm.trans hr)
      split
      · rfl
      · next t ht' => rw [ht] at ht'; exact nomatch ht'

theorem tokens_step {m : Bytes} {p t : Nat} {r : Strtok} (s : σ)
    (h : strtok delim m p = some r) (ht : r.tok = some t) :
    tokens delim f m p s
      = match f s r.mem t with
        | none => none
        | some s' => tokens delim f r.mem r.save s' := by
  rw [tokens]
  split
  · next hr => rw [h] at hr; exact nomatch hr
  · next r' hr =>
      obtain rfl := Option.some.inj (h.symm.trans hr)
      split
      · next ht' => rw [ht] at ht'; exact nomatch ht'
      · next t' ht' =>
          obtain rfl := Option.some.inj (ht.symm.trans ht')
          rfl

/-- A call does not look behind a NUL or a delimiter that ends it. -/
theorem strtok_append {m : Bytes} {p : Nat} {r : Strtok} (t : Bytes)
    (h : strtok delim m p = some r) :
    strtok delim (m ++ t) p = some { r with mem := r.mem ++ t } := by
  have hdrop : ∀ {c n : Nat} {q : UInt8 → Bool},
      spanLen q (m.drop c) = some n →
      spanLen q ((m ++ t).drop c) = some n ∧ (m ++ t)[c + n]? = m[c + n]? := by
    intro c n q hq
    have hlt := (spanLen_drop hq).1
    constructor
    · rw [List.drop_append_of_le_length (by omega)]
      exact spanLen_append t hq
    · exact List.getElem?_append_left hlt
  rcases strtok_cases h with ⟨n, hn, hz, rfl⟩ | ⟨n, k, hn, hz, hk, hr⟩
  · obtain ⟨hn', hg⟩ := hdrop hn
    rw [strtok, hn']
    show (if (m ++ t)[p + n]? = some 0 then _ else _) = _
    rw [if_pos (hg.trans hz)]
  · obtain ⟨hn', hg⟩ := hdrop hn
    obtain ⟨hk', hg'⟩ := hdrop hk
    have hlt := (spanLen_drop hk).1
    rw [strtok, hn']
    show (if (m ++ t)[p + n]? = some 0 then _ else _) = _
    rw [hg, if_neg hz, hk']
    show (if (m ++ t)[p + n + k]? = some 0 then _ else _) = _
    rw [hg']
    rcases hr with ⟨hz', rfl⟩ | ⟨hz', rfl⟩
    · rw [if_pos hz']
    · rw [if_neg hz', List.set_append_left _ _ hlt]

/-- The loop keeps the memory's size. -/
theorem tokens_length {m m' : Bytes} {p : Nat} {s s' : σ}
    (h : tokens delim f m p s = some (m', s')) : m'.length = m.length := by
  induction hd : m.length - p using Nat.strongRecOn generalizing m p s with
  | _ d ih =>
      cases hr : strtok delim m p with
      | none => rw [tokens_fault s hr] at h; exact nomatch h
      | some r =>
          have hmem : r.mem.length = m.length := by
            rcases strtok_cases hr with ⟨n, -, -, rfl⟩ | ⟨n, k, -, -, -, hr'⟩
            · rfl
            · rcases hr' with ⟨-, rfl⟩ | ⟨-, rfl⟩
              · rfl
              · exact List.length_set
          cases ht : r.tok with
          | none =>
              rw [tokens_done s hr ht] at h
              obtain ⟨rfl, -⟩ := Prod.mk.inj (Option.some.inj h)
              exact hmem
          | some i =>
              rw [tokens_step s hr ht] at h
              cases hb : f s r.mem i with
              | none => rw [hb] at h; exact nomatch h
              | some s₁ =>
                  rw [hb] at h
                  exact (ih _ (hd ▸ strtok_progress hr ht) h rfl).trans hmem

/-- Without a NUL the loop runs off the end of the memory. -/
theorem tokens_no_nul {m : Bytes} {p : Nat} (s : σ)
    (h0 : (0 : UInt8) ∉ m.drop p) : tokens delim f m p s = none := by
  induction hd : m.length - p using Nat.strongRecOn generalizing m p s with
  | _ d ih =>
      have hne : ∀ i, p ≤ i → m[i]? ≠ some 0 := by
        intro i hpi hi
        refine h0 (List.mem_of_getElem? (i := i - p) ?_)
        rw [List.getElem?_drop, Nat.add_sub_cancel' hpi]
        exact hi
      cases hr : strtok delim m p with
      | none => exact tokens_fault s hr
      | some r =>
          rcases strtok_cases hr with ⟨n, -, hz, -⟩ | ⟨n, k, -, -, hk, hr'⟩
          · exact absurd hz (hne _ (by omega))
          · rcases hr' with ⟨hz, -⟩ | ⟨-, rfl⟩
            · exact absurd hz (hne _ (by omega))
            · rw [tokens_step s hr rfl]
              dsimp only
              cases hf : f s (m.set (p + n + k) 0) (p + n) with
              | none => rfl
              | some s' =>
                  refine ih _ ?_ s' ?_ rfl
                  · exact hd ▸ strtok_progress hr rfl
                  · rw [List.drop_set_of_lt (by omega)]
                    intro hmem
                    refine h0 ?_
                    rw [show p + n + k + 1 = p + (n + k + 1) by omega,
                      ← List.drop_drop] at hmem
                    exact List.mem_of_mem_drop hmem

/-- A token that is returned is a string: a NUL ends it. -/
theorem strtok_token {m : Bytes} {p t : Nat} {r : Strtok}
    (h : strtok delim m p = some r) (ht : r.tok = some t) :
    ∃ w z, r.mem.drop t = w ++ 0 :: z ∧ (0 : UInt8) ∉ w := by
  rcases strtok_cases h with ⟨n, -, -, rfl⟩ | ⟨n, k, -, -, hk, hr⟩
  · exact nomatch ht
  · obtain ⟨w, b, z, hm, rfl, hw, -⟩ := spanLen_eq_some.mp hk
    have h0 : (0 : UInt8) ∉ w := by
      intro hz
      have := hw 0 hz
      exact nomatch this
    rcases hr with ⟨hz, rfl⟩ | ⟨-, rfl⟩
    · obtain rfl := Option.some.inj ht
      refine ⟨w, z, ?_, h0⟩
      rw [← List.getElem?_drop, hm] at hz
      have hb : b = 0 := by simpa using hz
      rw [← hb]
      exact hm
    · obtain rfl := Option.some.inj ht
      refine ⟨w, z, ?_, h0⟩
      show (m.set (p + n + w.length) 0).drop (p + n) = w ++ 0 :: z
      rw [List.drop_set, if_neg (by omega), hm, Nat.add_sub_cancel_left,
        List.set_append_right _ _ (Nat.le_refl _), Nat.sub_self]
      rfl

/-- **What the loop preserves**: a property that survives the NULs it writes
    and that the body keeps on every token. -/
theorem tokens_preserves {P : Bytes → σ → Prop}
    (hset : ∀ {m i s}, P m s → P (m.set i 0) s)
    (hstep : ∀ {m i w z s s'}, m.drop i = w ++ 0 :: z → (0 : UInt8) ∉ w →
      f s m i = some s' → P m s → P m s')
    {m m' : Bytes} {p : Nat} {s s' : σ}
    (h : tokens delim f m p s = some (m', s')) (hP : P m s) : P m' s' := by
  induction hd : m.length - p using Nat.strongRecOn generalizing m p s with
  | _ d ih =>
      cases hr : strtok delim m p with
      | none => rw [tokens_fault s hr] at h; exact nomatch h
      | some r =>
          have hmem : P r.mem s := by
            rcases strtok_cases hr with ⟨n, -, -, rfl⟩ | ⟨n, k, -, -, -, hr'⟩
            · exact hP
            · rcases hr' with ⟨-, rfl⟩ | ⟨-, rfl⟩
              · exact hP
              · exact hset hP
          cases ht : r.tok with
          | none =>
              rw [tokens_done s hr ht] at h
              obtain ⟨rfl, rfl⟩ := Prod.mk.inj (Option.some.inj h)
              exact hmem
          | some i =>
              obtain ⟨w, z, hw, h0⟩ := strtok_token hr ht
              rw [tokens_step s hr ht] at h
              cases hb : f s r.mem i with
              | none => rw [hb] at h; exact nomatch h
              | some s₁ =>
                  rw [hb] at h
                  exact ih _ (hd ▸ strtok_progress hr ht) h (hstep hw h0 hb hmem) rfl

/-- What the loop computes from memory it can read does not depend on the
    memory behind it, as long as the body does not either. -/
theorem tokens_append {m m' : Bytes} {p : Nat} {s s' : σ} (t : Bytes)
    (hf : ∀ {s s' m i w z}, m.drop i = w ++ 0 :: z → (0 : UInt8) ∉ w →
      f s m i = some s' → f s (m ++ t) i = some s')
    (h : tokens delim f m p s = some (m', s')) :
    tokens delim f (m ++ t) p s = some (m' ++ t, s') := by
  induction hd : m.length - p using Nat.strongRecOn generalizing m p s with
  | _ d ih =>
      cases hr : strtok delim m p with
      | none => rw [tokens_fault s hr] at h; exact nomatch h
      | some r =>
          have hr' := strtok_append t hr
          cases ht : r.tok with
          | none =>
              rw [tokens_done s hr ht] at h
              obtain ⟨rfl, rfl⟩ := Prod.mk.inj (Option.some.inj h)
              exact tokens_done s hr' ht
          | some i =>
              obtain ⟨w, z, hw, h0⟩ := strtok_token hr ht
              rw [tokens_step s hr ht] at h
              rw [tokens_step s hr' ht]
              cases hb : f s r.mem i with
              | none => rw [hb] at h; exact nomatch h
              | some s₁ =>
                  rw [hb] at h
                  rw [hf hw h0 hb]
                  exact ih _ (hd ▸ strtok_progress hr ht) h rfl

end TokenLoop

/-! ## Words

    The maximal runs of bytes that are not delimiters. -/

/-- The words of a string. -/
def words (delim : UInt8 → Bool) (s : Bytes) : List Bytes :=
  (s.splitOnP delim).filter (fun w => !w.isEmpty)

section Words

variable {delim : UInt8 → Bool}

/-- A string of delimiters has no words, also in front of another string. -/
theorem words_delim_append {ds : Bytes} (s : Bytes)
    (hds : ∀ x ∈ ds, delim x = true) : words delim (ds ++ s) = words delim s := by
  induction ds with
  | nil => rfl
  | cons d ds ih =>
      have hd : delim d = true := hds d List.mem_cons_self
      have hsplit : (d :: (ds ++ s)).splitOnP delim
          = [] :: (ds ++ s).splitOnP delim :=
        List.splitOnP_append_cons_of_forall_mem
          (show ∀ x ∈ ([] : Bytes), delim x = false from fun x hx => nomatch hx)
          d hd (ds ++ s)
      rw [List.cons_append, words, hsplit]
      exact ih (fun x hx => hds x (List.mem_cons_of_mem _ hx))

/-- A non-empty string without delimiters is one word. -/
theorem words_single {w : Bytes} (hw : w ≠ []) (hn : ∀ x ∈ w, delim x = false) :
    words delim w = [w] := by
  cases w with
  | nil => exact absurd rfl hw
  | cons b w =>
      rw [words, List.splitOnP_eq_singleton hn]
      rfl

/-- A word ends at the first delimiter. -/
theorem words_append_cons {w : Bytes} {d : UInt8} (s : Bytes) (hw : w ≠ [])
    (hn : ∀ x ∈ w, delim x = false) (hd : delim d = true) :
    words delim (w ++ d :: s) = w :: words delim s := by
  cases w with
  | nil => exact absurd rfl hw
  | cons b w =>
      rw [words, List.splitOnP_append_cons_of_forall_mem hn d hd s]
      rfl

end Words

/-! ## The rule for the token loop

    `I b m s a` relates the state `s` of the loop to an abstract value `a`,
    looking only at the first `b` bytes of the memory `m`. -/

section TokenRule

variable {σ α : Type} {delim : UInt8 → Bool} {f : σ → Bytes → Nat → Option σ}
  {g : α → Bytes → α} {I : Nat → Bytes → σ → α → Prop}

/-- A string has no word, or ends with its first word, or goes on behind the
    delimiter that ends its first word. -/
theorem word_cases (delim : UInt8 → Bool) (x : Bytes) :
    ∃ ds, (∀ b ∈ ds, delim b = true) ∧ (x = ds
      ∨ ∃ w, w ≠ [] ∧ (∀ b ∈ w, delim b = false) ∧ (x = ds ++ w
        ∨ ∃ c u, delim c = true ∧ x = ds ++ (w ++ c :: u))) := by
  refine ⟨x.takeWhile delim, fun b hb => List.mem_takeWhile_imp hb, ?_⟩
  have hx : x = x.takeWhile delim ++ x.dropWhile delim :=
    List.takeWhile_append_dropWhile.symm
  cases hy : x.dropWhile delim with
  | nil => exact Or.inl (by rw [hy, List.append_nil] at hx; exact hx)
  | cons b z =>
      have hb : delim b = false := by
        have := List.head?_dropWhile_not delim x
        rw [hy] at this
        simpa using this
      have hbz : b :: z = (b :: z).takeWhile (fun c => !delim c)
          ++ (b :: z).dropWhile (fun c => !delim c) :=
        List.takeWhile_append_dropWhile.symm
      refine Or.inr ⟨(b :: z).takeWhile (fun c => !delim c), ?_, ?_, ?_⟩
      · rw [List.takeWhile_cons, hb]
        exact List.cons_ne_nil _ _
      · intro c hc
        simpa using List.mem_takeWhile_imp hc
      · cases hv : (b :: z).dropWhile (fun c => !delim c) with
        | nil =>
            rw [hv, List.append_nil] at hbz
            refine Or.inl ?_
            rw [← hbz, ← hy]
            exact hx
        | cons c u =>
            have hc : delim c = true := by
              have := List.head?_dropWhile_not (fun c => !delim c) (b :: z)
              rw [hv] at this
              simpa using this
            rw [hv] at hbz
            refine Or.inr ⟨c, u, hc, ?_⟩
            rw [← hbz, ← hy]
            exact hx

/-- `strtok` on a string of delimiters. -/
theorem strtok_no_word (hd : delim 0 = false) {m ds r : Bytes} {p : Nat}
    (hds : ∀ b ∈ ds, delim b = true) (hm : m.drop p = ds ++ 0 :: r) :
    strtok delim m p = some ⟨m, none, p + ds.length⟩ := by
  have hn : spanLen delim (m.drop p) = some ds.length := by
    rw [hm]
    exact spanLen_append_cons r hds hd
  have hz : m[p + ds.length]? = some 0 := by
    rw [← List.getElem?_drop, hm]
    simp
  rw [strtok, hn]
  exact if_pos hz

/-- The first word of a string, as both scans of `strtok` see it. -/
theorem strtok_scans {m ds w v : Bytes} {p : Nat} {c : UInt8}
    (hds : ∀ b ∈ ds, delim b = true) (hw : w ≠ [])
    (hwn : ∀ b ∈ w, delim b = false) (h0 : (0 : UInt8) ∉ w)
    (hc : (c != 0 && !delim c) = false)
    (hm : m.drop p = ds ++ (w ++ c :: v)) :
    spanLen delim (m.drop p) = some ds.length
      ∧ m[p + ds.length]? ≠ some 0
      ∧ spanLen (fun b => b != 0 && !delim b) (m.drop (p + ds.length))
          = some w.length
      ∧ m[p + ds.length + w.length]? = some c
      ∧ m.drop (p + ds.length) = w ++ c :: v := by
  have hdrop : m.drop (p + ds.length) = w ++ c :: v := by
    rw [← List.drop_drop, hm, List.drop_left]
  refine ⟨?_, ?_, ?_, ?_, hdrop⟩
  · rw [hm]
    cases w with
    | nil => exact absurd rfl hw
    | cons b w =>
        exact spanLen_append_cons (w ++ c :: v) hds (hwn b List.mem_cons_self)
  · rw [show m[p + ds.length]? = (m.drop (p + ds.length))[0]? by
      rw [List.getElem?_drop]; rfl, hdrop]
    cases w with
    | nil => exact absurd rfl hw
    | cons b w =>
        intro h
        have hb : b = 0 := Option.some.inj h
        exact h0 (hb ▸ List.mem_cons_self)
  · rw [hdrop]
    refine spanLen_append_cons v ?_ hc
    intro b hb
    rw [Bool.and_eq_true, bne_iff_ne, hwn b hb]
    exact ⟨fun h => h0 (h ▸ hb), rfl⟩
  · rw [← List.getElem?_drop, hdrop]
    simp

/-- `strtok` on the last word of a string. -/
theorem strtok_last_word {m ds w r : Bytes} {p : Nat}
    (hds : ∀ b ∈ ds, delim b = true) (hw : w ≠ [])
    (hwn : ∀ b ∈ w, delim b = false) (h0 : (0 : UInt8) ∉ w)
    (hm : m.drop p = ds ++ (w ++ 0 :: r)) :
    strtok delim m p
      = some ⟨m, some (p + ds.length), p + ds.length + w.length⟩ := by
  obtain ⟨hn, hnz, hk, hz, -⟩ := strtok_scans hds hw hwn h0 rfl hm
  rw [strtok, hn]
  show (if m[p + ds.length]? = some 0 then _ else _) = _
  rw [if_neg hnz, hk]
  exact if_pos hz

/-- `strtok` on a word that a delimiter ends. -/
theorem strtok_next_word (hd : delim 0 = false) {m ds w u : Bytes} {p : Nat}
    {c : UInt8} (hds : ∀ b ∈ ds, delim b = true) (hw : w ≠ [])
    (hwn : ∀ b ∈ w, delim b = false) (h0 : (0 : UInt8) ∉ w)
    (hc : delim c = true) (hm : m.drop p = ds ++ (w ++ c :: u)) :
    strtok delim m p = some ⟨m.set (p + ds.length + w.length) 0,
      some (p + ds.length), p + ds.length + w.length + 1⟩ := by
  obtain ⟨hn, hnz, hk, hget, -⟩ :=
    strtok_scans hds hw hwn h0 (by simp [hc]) hm
  have hz : m[p + ds.length + w.length]? ≠ some 0 := by
    rw [hget]
    intro h
    rw [Option.some.inj h, hd] at hc
    exact nomatch hc
  rw [strtok, hn]
  show (if m[p + ds.length]? = some 0 then _ else _) = _
  rw [if_neg hnz, hk]
  exact if_neg hz

/-- At the end of the string the loop is over. -/
theorem tokens_at_nul (hd : delim 0 = false) {m r : Bytes} {p : Nat} (s : σ)
    (hm : m.drop p = 0 :: r) : tokens delim f m p s = some (m, s) := by
  have hnone : ∀ b ∈ ([] : Bytes), delim b = true := by
    intro b hb
    exact nomatch hb
  exact tokens_done s (strtok_no_word hd hnone hm) rfl

/-- **The token loop is a fold over the words of the string**, for every body
    that keeps the relation `I` and every relation that survives writes behind
    the bytes it looks at. -/
theorem tokens_refines (hd : delim 0 = false)
    (hframe : ∀ {b b' m m' s a}, I b m s a → b ≤ b' → m.take b = m'.take b →
      I b' m' s a)
    (hstep : ∀ {m t w r s a}, m.drop t = w ++ 0 :: r → (0 : UInt8) ∉ w →
      I t m s a → ∃ s', f s m t = some s' ∧ I (t + w.length + 1) m s' (g a w))
    {x r m : Bytes} {p : Nat} {s : σ} {a : α}
    (hm : m.drop p = x ++ 0 :: r) (h0 : (0 : UInt8) ∉ x) (hI : I p m s a) :
    ∃ m' s', tokens delim f m p s = some (m', s')
      ∧ I (p + x.length + 1) m' s' ((words delim x).foldl g a)
      ∧ m'.length = m.length ∧ m'.drop (p + x.length) = 0 :: r := by
  induction hx : x.length using Nat.strongRecOn generalizing x m p s a with
  | _ d ih =>
      subst hx
      obtain ⟨ds, hds, rfl | ⟨w, hw, hwn, rfl | ⟨c, u, hc, rfl⟩⟩⟩ :=
        word_cases delim x
      · -- no word left
        refine ⟨m, s, tokens_done s (strtok_no_word hd hds hm) rfl, ?_, rfl, ?_⟩
        · rw [← List.append_nil x, words_delim_append [] hds, List.append_nil]
          exact hframe hI (by omega) rfl
        · rw [← List.drop_drop, hm, List.drop_left]
      · -- the word ends at the NUL
        have h0w : (0 : UInt8) ∉ w := fun h => h0 (List.mem_append_right _ h)
        rw [List.append_assoc] at hm
        have hdrop := (strtok_scans hds hw hwn h0w rfl hm).2.2.2.2
        have hend : m.drop (p + ds.length + w.length) = 0 :: r := by
          rw [← List.drop_drop, hdrop, List.drop_left]
        obtain ⟨s', hs', hI'⟩ := hstep hdrop h0w (hframe hI (by omega) rfl)
        rw [List.length_append, ← Nat.add_assoc, words_delim_append w hds,
          words_single hw hwn]
        refine ⟨m, s', ?_, hI', rfl, hend⟩
        rw [tokens_step s (strtok_last_word hds hw hwn h0w hm) rfl]
        dsimp only
        rw [hs']
        exact tokens_at_nul hd s' hend
      · -- the word ends at a delimiter, which becomes its NUL
        have h0w : (0 : UInt8) ∉ w := fun h =>
          h0 (List.mem_append_right _ (List.mem_append_left _ h))
        have h0u : (0 : UInt8) ∉ u := fun h => h0 (List.mem_append_right _
          (List.mem_append_right _ (List.mem_cons_of_mem _ h)))
        rw [List.append_assoc, List.append_assoc, List.cons_append] at hm
        obtain ⟨-, -, hk, -, hdrop⟩ :=
          strtok_scans hds hw hwn h0w (by simp [hc]) hm
        have hlt := (spanLen_drop hk).1
        have hdropt : (m.set (p + ds.length + w.length) 0).drop
            (p + ds.length) = w ++ 0 :: (u ++ 0 :: r) := by
          rw [List.drop_set, if_neg (by omega), hdrop, Nat.add_sub_cancel_left,
            List.set_append_right _ _ (Nat.le_refl _), Nat.sub_self]
          rfl
        have hdropu : (m.set (p + ds.length + w.length) 0).drop
            (p + ds.length + w.length + 1) = u ++ 0 :: r := by
          rw [Nat.add_assoc _ w.length 1, ← List.drop_drop, hdropt,
            ← List.drop_drop, List.drop_left]
          rfl
        have hItset : I (p + ds.length)
            (m.set (p + ds.length + w.length) 0) s a :=
          hframe hI (by omega) (by rw [List.take_set_of_le (by omega)])
        obtain ⟨s', hs', hI'⟩ := hstep hdropt h0w hItset
        have hlen : (ds ++ (w ++ c :: u)).length
            = ds.length + (w.length + (u.length + 1)) := by
          simp only [List.length_append, List.length_cons]
        obtain ⟨m', s'', htok, hI'', hlen', hdrop'⟩ :=
          ih u.length (by omega) hdropu h0u hI' rfl
        rw [show p + (ds ++ (w ++ c :: u)).length
          = p + ds.length + w.length + 1 + u.length by omega,
          words_delim_append _ hds, words_append_cons u hw hwn hc]
        refine ⟨m', s'', ?_, hI'', hlen'.trans List.length_set, hdrop'⟩
        rw [tokens_step s (strtok_next_word hd hds hw hwn h0w hc hm) rfl]
        dsimp only
        rw [hs']
        exact htok

end TokenRule

end CString
