import SpufsTestsuite.TestRecordProofs

/-! # The result line of a benchmark — blanks at both ends

    `test_pass` prints the captured output of a benchmark without the blanks
    around it.  It steps over the leading ones, but ends the string, and starts
    to clear the trailing ones, at the length of the whole output; and it copies
    one byte more than was captured.

    So the line is right for an output that does not start with a blank, and for
    one leading blank if the byte behind the output happens to be a blank too
    (`testPass_benchmark`). -/

namespace SpufsBenchmarkLine

open CString SpufsTest

/-- The output without the blanks around it. -/
def trimmed (s : Bytes) : Bytes := (s.dropWhile isspace).rdropWhile isspace

/-- The output that is held in `test->output`, and what follows it in the
    buffer. -/
structure Held (o : Output) (data spare : Bytes) : Prop where
  buf_eq : o.buf.getD [] = data ++ spare
  len_eq : o.len = data.length
  bufsize_eq : o.bufsize = (data ++ spare).length

/-! ## The copy -/

/-- The bytes in front of the limit are counted, up to a NUL. -/
theorem strnlen_append {s : Bytes} (m : Bytes) (n : Nat) (h0 : (0 : UInt8) ∉ s) :
    strnlen (s ++ m) (s.length + n) = (strnlen m n).map (s.length + ·) := by
  induction s with
  | nil => simp
  | cons b s ih =>
      have hb : b ≠ 0 := (List.ne_of_not_mem_cons h0).symm
      have hs : (0 : UInt8) ∉ s := List.not_mem_of_not_mem_cons h0
      rw [List.cons_append, List.length_cons, Nat.add_right_comm, strnlen, if_neg hb, ih hs,
        Option.map_map]
      refine congrArg (fun f => Option.map f (strnlen m n)) ?_
      funext k
      show s.length + k + 1 = s.length + 1 + k
      omega

/-- The copy ends at the byte behind the data, which is copied unless it is a
    NUL; if there is none, it is looked for outside of the buffer. -/
theorem tallocStrndup_held {data : Bytes} (spare : Bytes) (h0 : (0 : UInt8) ∉ data) :
    tallocStrndup (data ++ spare) (data.length + 1)
      = match spare with
        | [] => none
        | d :: _ => some (if d = 0 then data ++ [0] else data ++ [d, 0]) := by
  rw [tallocStrndup, strnlen_append spare 1 h0]
  cases spare with
  | nil => rfl
  | cons d spare =>
      by_cases hd : d = 0
      · simp [strnlen, hd]
      · simp [strnlen, hd, List.take_append, List.take_of_length_le]

/-! ## The loop over trailing blanks -/

/-- **The loop clears the blanks at the end**, and looks in front of the copy if
    there is nothing else. -/
theorem clearTrailing_append (x z : Bytes) :
    clearTrailing (x ++ z) x.length
      = if x.rdropWhile isspace = [] then none
        else some (x.rdropWhile isspace
          ++ (List.replicate (x.length - (x.rdropWhile isspace).length) 0 ++ z)) := by
  induction x using List.reverseRecOn generalizing z with
  | nil => rfl
  | append_singleton x b ih =>
      have hget : (x ++ [b] ++ z)[x.length]? = some b := by simp
      rw [List.length_append, List.length_singleton, clearTrailing, hget]
      dsimp only
      cases hb : isspace b with
      | true =>
          have hset : (x ++ [b] ++ z).set x.length 0 = x ++ 0 :: z := by simp
          rw [if_pos rfl, hset, ih, List.rdropWhile_concat_pos _ _ _ hb]
          by_cases hx : x.rdropWhile isspace = []
          · rw [if_pos hx, if_pos hx]
          · have hle := (List.rdropWhile_prefix isspace x).length_le
            rw [if_neg hx, if_neg hx, Nat.succ_sub hle, List.replicate_succ']
            simp
      | false =>
          rw [if_neg Bool.false_ne_true,
            List.rdropWhile_concat_neg _ _ _ (by rw [hb]; exact Bool.false_ne_true)]
          simp

/-- The string that the loop leaves, from `i` on. -/
theorem clearTrailing_cstr {x : Bytes} (z : Bytes) {i : Nat} (h0 : (0 : UInt8) ∉ x)
    (hi : x.rdropWhile isspace ≠ [] → i ≤ (x.rdropWhile isspace).length) :
    (clearTrailing (x ++ 0 :: z) x.length).bind (fun copy => cstr (copy.drop i))
      = if x.rdropWhile isspace = [] then none else some ((x.rdropWhile isspace).drop i) := by
  rw [clearTrailing_append]
  by_cases hx : x.rdropWhile isspace = []
  · rw [if_pos hx, if_pos hx]
    rfl
  · rw [if_neg hx, if_neg hx, Option.bind_some, List.drop_append_of_le_length (hi hx)]
    have hno : (0 : UInt8) ∉ (x.rdropWhile isspace).drop i := fun h =>
      h0 ((List.rdropWhile_prefix isspace x).subset (List.mem_of_mem_drop h))
    generalize x.length - (x.rdropWhile isspace).length = k
    cases k with
    | zero => exact cstr_append_zero z hno
    | succ k =>
        rw [List.replicate_succ, List.cons_append]
        exact cstr_append_zero _ hno

/-! ## The line -/

section Line

variable {o : Output} {data spare copy : Bytes} {i : Nat}

/-- `test_pass` on a copy with `i` leading blanks. -/
theorem benchmarkLine_copy (h : Held o data spare)
    (hcopy : tallocStrndup (data ++ spare) (data.length + 1) = some copy)
    (hi : spanLen isspace copy = some i) :
    benchmarkLine o
      = if i + data.length < copy.length then
          (clearTrailing (copy.set (i + data.length) 0) (i + data.length)).bind
            (fun copy => cstr (copy.drop i))
        else none := by
  have hbuf : o.buf = some (data ++ spare) := by
    have hget := h.buf_eq
    cases hb : o.buf with
    | none =>
        rw [hb] at hget
        rw [← show [] = data ++ spare from hget] at hcopy
        exact nomatch hcopy
    | some buf =>
        rw [hb] at hget
        exact congrArg some hget
  rw [benchmarkLine, hbuf, h.len_eq]
  simp only [Option.bind_eq_bind, Option.bind_some, hcopy, hi]

/-- Without a byte behind the output the copy reads outside of the buffer. -/
theorem benchmarkLine_full (h : Held o data []) (h0 : (0 : UInt8) ∉ data) :
    benchmarkLine o = none := by
  rw [benchmarkLine]
  cases hb : o.buf with
  | none => rfl
  | some buf =>
      have hbuf : buf = data ++ [] := by
        have hget := h.buf_eq
        rw [hb] at hget
        exact hget
      rw [h.len_eq, hbuf]
      simp only [Option.bind_eq_bind, Option.bind_some, tallocStrndup_held [] h0]
      rfl

/-- What is left of `x` behind `i` leading blanks. -/
def leftOf (x : Bytes) (i : Nat) : Option Bytes :=
  if x.rdropWhile isspace = [] then none else some ((x.rdropWhile isspace).drop i)

/-- **A NUL behind the output**: no leading blank is allowed for. -/
theorem benchmarkLine_nul {sp : Bytes} (h : Held o data (0 :: sp))
    (h0 : (0 : UInt8) ∉ data) (hi : spanLen isspace (data ++ [0]) = some i) :
    benchmarkLine o = if i = 0 then leftOf data 0 else none := by
  have hcopy := tallocStrndup_held (0 :: sp) h0
  dsimp only at hcopy
  rw [if_pos rfl] at hcopy
  rw [benchmarkLine_copy h hcopy hi, List.length_append, List.length_singleton]
  by_cases hi0 : i = 0
  · subst hi0
    have hset : (data ++ [(0 : UInt8)]).set (0 + data.length) 0 = data ++ 0 :: [] := by simp
    rw [if_pos (by omega), if_pos rfl, hset, Nat.zero_add]
    exact clearTrailing_cstr [] h0 (fun _ => Nat.zero_le _)
  · rw [if_neg (by omega), if_neg hi0]

/-- **Another byte behind the output**: one leading blank is allowed for, and
    then the byte belongs to the line. -/
theorem benchmarkLine_spare {d : UInt8} {sp : Bytes} (h : Held o data (d :: sp))
    (hd : d ≠ 0) (h0 : (0 : UInt8) ∉ data)
    (hi : spanLen isspace (data ++ [d, 0]) = some i) :
    benchmarkLine o
      = if i = 0 then leftOf data 0 else if i = 1 then leftOf (data ++ [d]) 1 else none := by
  have hcopy := tallocStrndup_held (d :: sp) h0
  dsimp only at hcopy
  rw [if_neg hd] at hcopy
  rw [benchmarkLine_copy h hcopy hi, List.length_append,
    show [d, (0 : UInt8)].length = 2 from rfl]
  by_cases hi0 : i = 0
  · subst hi0
    have hset : (data ++ [d, (0 : UInt8)]).set (0 + data.length) 0 = data ++ 0 :: [0] := by
      simp
    rw [if_pos (by omega), if_pos rfl, hset, Nat.zero_add]
    exact clearTrailing_cstr [0] h0 (fun _ => Nat.zero_le _)
  · rw [if_neg hi0]
    by_cases hi1 : i = 1
    · subst hi1
      have hset : (data ++ [d, (0 : UInt8)]).set (1 + data.length) 0
          = (data ++ [d]) ++ 0 :: [] := by
        simp [Nat.add_comm 1]
      have hlen : 1 + data.length = (data ++ [d]).length := by simp [Nat.add_comm]
      have h0' : (0 : UInt8) ∉ data ++ [d] := by
        rw [List.mem_append, List.mem_singleton]
        exact fun h => h.elim h0 (fun h => hd h.symm)
      rw [if_pos (by omega), if_pos rfl, hset, hlen]
      exact clearTrailing_cstr [] h0' (fun hx => List.length_pos_iff.mpr hx)
    · rw [if_neg (by omega), if_neg hi1]

/-! ## When the line is right -/

theorem rdropWhile_ne_nil {s : Bytes} {c : UInt8} (hc : c ∈ s) (h : isspace c = false) :
    s.rdropWhile isspace ≠ [] := by
  intro hs
  have hall := List.rdropWhile_eq_nil_iff.mp hs c hc
  rw [h] at hall
  exact nomatch hall

/-- A byte in front of something that is kept is kept. -/
theorem rdropWhile_cons {s : Bytes} (b : UInt8) (h : s.rdropWhile isspace ≠ []) :
    (b :: s).rdropWhile isspace = b :: s.rdropWhile isspace := by
  rw [List.rdropWhile, ne_eq, List.reverse_eq_nil_iff] at h
  rw [List.rdropWhile, List.rdropWhile, List.reverse_cons, List.dropWhile_append,
    if_neg (by rw [List.isEmpty_iff]; exact h), List.reverse_append]
  rfl

theorem trimmed_plain {c : UInt8} (rest : Bytes) (hc : isspace c = false) :
    trimmed (c :: rest) = (c :: rest).rdropWhile isspace := by
  rw [trimmed, List.dropWhile_cons_of_neg (by rw [hc]; exact Bool.false_ne_true)]

theorem trimmed_blank {b : UInt8} (rest : Bytes) (hb : isspace b = true) :
    trimmed (b :: rest) = trimmed rest := by
  rw [trimmed, trimmed, List.dropWhile_cons_of_pos hb]

/-- The output fits the code: there is a byte behind it in the buffer; and it
    starts with a byte that is not a blank, or with one blank and such a byte
    while the byte behind it is a blank too. -/
def Trimmable (data spare : Bytes) : Prop :=
  (∃ c rest d sp, data = c :: rest ∧ spare = d :: sp ∧ isspace c = false)
    ∨ ∃ b c rest d sp, data = b :: c :: rest ∧ spare = d :: sp
      ∧ isspace b = true ∧ isspace c = false ∧ isspace d = true

/-- One blank, something else, and a byte behind the output that is copied. -/
theorem leftOf_blank {b c : UInt8} (rest : Bytes) (d : UInt8) (hb : isspace b = true)
    (hc : isspace c = false) :
    leftOf (b :: c :: rest ++ [d]) 1 = some (trimmed (b :: c :: rest))
      ↔ isspace d = true := by
  rw [trimmed_blank _ hb, trimmed_plain rest hc, leftOf]
  have hkeep : (c :: rest).rdropWhile isspace ≠ [] :=
    rdropWhile_ne_nil List.mem_cons_self hc
  cases hd : isspace d with
  | true =>
      rw [List.rdropWhile_concat_pos _ _ _ hd, rdropWhile_cons b hkeep,
        if_neg (List.cons_ne_nil _ _)]
      exact iff_of_true rfl rfl
  | false =>
      rw [List.rdropWhile_concat_neg _ _ _ (by rw [hd]; exact Bool.false_ne_true),
        if_neg (List.append_ne_nil_of_right_ne_nil _ (List.cons_ne_nil _ _))]
      -- the byte is one too many
      have hle := (List.rdropWhile_prefix isspace (c :: rest)).length_le
      refine iff_of_false ?_ Bool.false_ne_true
      intro heq
      have hlen := congrArg List.length (Option.some.inj heq)
      simp only [List.cons_append, List.drop_succ_cons, List.drop_zero, List.length_append,
        List.length_cons, List.length_nil] at hlen hle
      omega

/-- Behind a blank there has to be something else, and then a blank. -/
theorem trimmable_blank {b d : UInt8} {rest sp : Bytes} (hb : isspace b = true) :
    Trimmable (b :: rest) (d :: sp)
      ↔ ∃ c rest', rest = c :: rest' ∧ isspace c = false ∧ isspace d = true := by
  constructor
  · rintro (⟨c, rest', d', sp', hdata, -, hc⟩ | ⟨b', c, rest', d', sp', hdata, hsp, -, hc, hd⟩)
    · rw [← (List.cons.inj hdata).1, hb] at hc
      exact nomatch hc
    · rw [← (List.cons.inj hsp).1] at hd
      exact ⟨c, rest', (List.cons.inj hdata).2, hc, hd⟩
  · rintro ⟨c, rest', rfl, hc, hd⟩
    exact Or.inr ⟨b, c, rest', d, sp, rfl, rfl, hb, hc, hd⟩

theorem spanLen_cons_blank {b : UInt8} (m : Bytes) (hb : isspace b = true) :
    spanLen isspace (b :: m) = (spanLen isspace m).map (· + 1) := by
  rw [spanLen, if_pos hb]

theorem spanLen_cons_plain {b : UInt8} (m : Bytes) (hb : isspace b = false) :
    spanLen isspace (b :: m) = some 0 := by
  rw [spanLen, if_neg (by rw [hb]; exact Bool.false_ne_true)]

/-- An output without a blank in front fits. -/
theorem benchmarkLine_plain {c d : UInt8} {rest sp : Bytes}
    (h : Held o (c :: rest) (d :: sp)) (h0 : (0 : UInt8) ∉ c :: rest)
    (hc : isspace c = false) : benchmarkLine o = some (trimmed (c :: rest)) := by
  have hleft : leftOf (c :: rest) 0 = some (trimmed (c :: rest)) := by
    rw [leftOf, if_neg (rdropWhile_ne_nil List.mem_cons_self hc), trimmed_plain rest hc]
    rfl
  by_cases hd : d = 0
  · subst hd
    rw [benchmarkLine_nul h h0 (spanLen_cons_plain _ hc), if_pos rfl, hleft]
  · rw [benchmarkLine_spare h hd h0 (spanLen_cons_plain _ hc), if_pos rfl, hleft]

/-- The scan over leading blanks ends at the NUL of the copy. -/
theorem spanLen_copy (m : Bytes) : ∃ n, spanLen isspace (m ++ [0]) = some n :=
  spanLen_isSome (List.mem_append_right m (List.mem_singleton.mpr rfl)) (by decide)

/-- An output with a blank in front fits by accident at most. -/
theorem benchmarkLine_blank {b d : UInt8} {rest sp : Bytes}
    (h : Held o (b :: rest) (d :: sp)) (h0 : (0 : UInt8) ∉ b :: rest)
    (hb : isspace b = true) :
    benchmarkLine o = some (trimmed (b :: rest))
      ↔ ∃ c rest', rest = c :: rest' ∧ isspace c = false ∧ isspace d = true := by
  by_cases hd : d = 0
  · subst hd
    obtain ⟨n, hn⟩ := spanLen_copy rest
    have hi : spanLen isspace (b :: rest ++ [0]) = some (n + 1) := by
      rw [List.cons_append, spanLen_cons_blank _ hb, hn]
      rfl
    rw [benchmarkLine_nul h h0 hi, if_neg (Nat.succ_ne_zero n)]
    refine iff_of_false (fun h => nomatch h) ?_
    rintro ⟨c, rest', -, -, hd⟩
    exact nomatch hd
  · cases rest with
    | nil =>
        refine iff_of_false ?_ (fun ⟨c, rest', hrest, _⟩ => nomatch hrest)
        cases hds : isspace d with
        | true =>
            have hi : spanLen isspace ([b] ++ [d, 0]) = some 2 := by
              rw [List.singleton_append, spanLen_cons_blank _ hb, spanLen_cons_blank _ hds]
              rfl
            rw [benchmarkLine_spare h hd h0 hi]
            exact fun h => nomatch h
        | false =>
            have hi : spanLen isspace ([b] ++ [d, 0]) = some 1 := by
              rw [List.singleton_append, spanLen_cons_blank _ hb, spanLen_cons_plain _ hds]
              rfl
            have hkeep : isspace d ≠ true := by rw [hds]; exact Bool.false_ne_true
            rw [benchmarkLine_spare h hd h0 hi, if_neg (by decide), if_pos rfl, leftOf,
              List.rdropWhile_concat_neg _ _ _ hkeep, trimmed_blank _ hb]
            -- the line is the byte behind the output
            exact fun h => nomatch h
    | cons c rest =>
        cases hc : isspace c with
        | true =>
            obtain ⟨n, hn⟩ := spanLen_copy (rest ++ [d])
            have hi : spanLen isspace (b :: c :: rest ++ [d, 0]) = some (n + 1 + 1) := by
              rw [List.append_assoc] at hn
              rw [List.cons_append, List.cons_append, spanLen_cons_blank _ hb,
                spanLen_cons_blank _ hc]
              exact congrArg (fun e => (Option.map (· + 1) e).map (· + 1)) hn
            rw [benchmarkLine_spare h hd h0 hi, if_neg (by omega), if_neg (by omega)]
            refine iff_of_false (fun h => nomatch h) ?_
            rintro ⟨c', rest', hrest, hc', -⟩
            rw [← (List.cons.inj hrest).1, hc] at hc'
            exact nomatch hc'
        | false =>
            have hi : spanLen isspace (b :: c :: rest ++ [d, 0]) = some 1 := by
              rw [List.cons_append, List.cons_append, spanLen_cons_blank _ hb,
                spanLen_cons_plain _ hc]
              rfl
            rw [benchmarkLine_spare h hd h0 hi, if_neg (by decide), if_pos rfl,
              leftOf_blank rest d hb hc]
            constructor
            · intro hds
              exact ⟨c, rest, rfl, hc, hds⟩
            · rintro ⟨c', rest', -, -, hds⟩
              exact hds

/-- An empty output has nothing to stop at: the byte in front of the copy is
    looked at. -/
theorem benchmarkLine_empty {d : UInt8} {sp : Bytes} (h : Held o [] (d :: sp)) :
    benchmarkLine o = none := by
  by_cases hd : d = 0
  · subst hd
    exact benchmarkLine_nul h List.not_mem_nil (i := 0) rfl
  · cases hds : isspace d with
    | true =>
        have hi : spanLen isspace ([] ++ [d, 0]) = some 1 := by
          rw [List.nil_append, spanLen_cons_blank _ hds]
          rfl
        rw [benchmarkLine_spare h hd List.not_mem_nil hi, if_neg (by decide), if_pos rfl,
          leftOf, List.nil_append, List.rdropWhile_singleton, if_pos hds, if_pos rfl]
    | false =>
        exact benchmarkLine_spare h hd List.not_mem_nil (spanLen_cons_plain _ hds)

/-- **The line is right exactly for an output that fits.** -/
theorem benchmarkLine_trimmed (h : Held o data spare) (h0 : (0 : UInt8) ∉ data) :
    benchmarkLine o = some (trimmed data) ↔ Trimmable data spare := by
  cases spare with
  | nil =>
      rw [benchmarkLine_full h h0]
      refine iff_of_false (fun h => nomatch h) ?_
      rintro (⟨c, rest, d, sp, -, hsp, -⟩ | ⟨b, c, rest, d, sp, -, hsp, -⟩) <;> exact nomatch hsp
  | cons d sp =>
      cases data with
      | nil =>
          rw [benchmarkLine_empty h]
          refine iff_of_false (fun h => nomatch h) ?_
          rintro (⟨c, rest, d, sp, hdata, -, -⟩ | ⟨b, c, rest, d, sp, hdata, -, -⟩) <;>
            exact nomatch hdata
      | cons b rest =>
          cases hb : isspace b with
          | true => rw [benchmarkLine_blank h h0 hb, trimmable_blank hb]
          | false =>
              exact iff_of_true (benchmarkLine_plain h h0 hb)
                (Or.inl ⟨b, rest, d, sp, rfl, rfl, hb⟩)

end Line

/-- **`test_pass` on a benchmark** prints the output without the blanks around
    it, and stays inside of the buffer and the copy, exactly if the output fits:
    it does not start with a blank, or by accident. -/
theorem testPass_benchmark {t : Test} {data spare : Bytes} (ht : t.type = .benchmark)
    (h : Held t.output data spare) (h0 : (0 : UInt8) ∉ data) :
    testPass t = some ({ t with result := .passed }, trimmed data ++ str "\n")
      ↔ Trimmable data spare := by
  rw [← benchmarkLine_trimmed h h0, testPass, ht]
  dsimp only
  cases benchmarkLine t.output with
  | none => exact iff_of_false (fun h => by cases h) (fun h => by cases h)
  | some line =>
      rw [Option.map_some, Option.some_inj, Option.some_inj, Prod.mk.injEq,
        List.append_cancel_right_eq]
      exact and_iff_right rfl

/-- A benchmark with this much output in a buffer of 4096 bytes. -/
def benchmarkWith (buf : Bytes) (len : Nat) : Test :=
  { testCreate (str "b/01-a") .benchmark with
    output := ⟨some (buf ++ List.replicate (4096 - buf.length) 0), len, 4096⟩ }

theorem testPass_benchmark_sample :
    testPass (benchmarkWith (str "12.5\n") 5)
        = some ({ benchmarkWith (str "12.5\n") 5 with result := .passed },
          trimmed (str "12.5\n") ++ str "\n")
      ↔ Trimmable (str "12.5\n") (List.replicate 4091 0) :=
  testPass_benchmark rfl
    ⟨rfl, rfl, by rw [List.length_append, List.length_replicate]; rfl⟩ (by decide)

/-- **Two outputs that do not fit**: of an empty one the byte in front of the
    copy is read; and behind one leading blank a stale byte is printed. -/
theorem testPass_blanks :
    testPass (benchmarkWith [] 0) = none
      ∧ (testPass (benchmarkWith (str " 7x") 2)).map Prod.snd = some (str "7x\n")
      ∧ trimmed (str " 7") ++ str "\n" = str "7\n" := by
  decide +kernel

end SpufsBenchmarkLine
