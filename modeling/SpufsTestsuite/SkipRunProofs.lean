import SpufsTestsuite.MemoProofs
import SpufsTestsuite.RunTestsProofs

/-! # Skip decisions over a run — one answer for each capability

    The probe functions may answer as they like: `capTable` is the table of
    `bin/capabilities.c` with any probe functions in it, and `logging` writes
    down every call of one.  In a run that starts with the fresh table, the
    table is a memo of that log (`recalls`), lookups and listings are questions
    to the memo (`capLookup_recalls`, `printCapabilities_recalls`), and every
    decision of `test_should_run` can be read from the log of the whole run
    (`performAll_consistent`). -/

namespace SpufsSkipRun

open CString Memoized SpufsTest SpufsConfScan SpufsConfReference SpufsConfLeftover
open SpufsCapability SpufsShouldRun SpufsRunTest SpufsRunTests

variable {W : Type}

/-! ## The table -/

/-- The names of the table, and which of them are internal. -/
def capEntries : List (Bytes × Bool) :=
  [(str "always", true), (str "never", true), (str "root", false),
    (str "affinity", false), (str "hugepages", false), (str "sputrace", false)]

/-- `caps` with the probe function `probe name` for `name`. -/
def capTable (probe : Bytes → W → Int × W) : List (Capability W) :=
  capEntries.map (fun e => .fresh e.1 (probe e.1) e.2)

/-- The probe functions of the program. -/
def capFn (K : Kernel W) (name : Bytes) : W → Int × W :=
  if name = str "always" then capAlways
  else if name = str "never" then capNever
  else if name = str "root" then capRoot K
  else if name = str "affinity" then capAffinity K
  else if name = str "hugepages" then capHugepages K
  else capSputrace K

theorem caps_eq (K : Kernel W) : caps K = capTable (capFn K) := by
  rw [capTable, capEntries]
  simp only [List.map_cons, List.map_nil, capFn]
  rfl

theorem capEntries_nodup : (capEntries.map Prod.fst).Nodup := by decide

theorem capEntries_names : capEntries.map Prod.fst = capNames := rfl

/-! ## The log of the calls -/

/-- The calls of probe functions, with their answers. -/
abbrev Log := List (Bytes × Int)

/-- A probe function that writes its calls down. -/
def logging (probe : Bytes → W → Int × W) (name : Bytes) (w : Log × W) :
    Int × (Log × W) :=
  ((probe name w.2).1, (w.1 ++ [(name, (probe name w.2).1)], (probe name w.2).2))

/-- The memo of a run. -/
abbrev CapMemo := Memo Bytes Int capNames

/-- The availability that is remembered of `name`. -/
def available (log : Log) (name : Bytes) : Bool := (log.lookup name).getD 0 != 0

/-- The entry that remembers what the log has of it. -/
def recalled (probe : Bytes → W → Int × W) (m : CapMemo) (e : Bytes × Bool) :
    Capability (Log × W) :=
  ⟨e.1, logging probe e.1, e.2, (m.log.lookup e.1).getD 0, (m.log.lookup e.1).isSome⟩

@[simp] theorem recalled_name (probe : Bytes → W → Int × W) (m : CapMemo)
    (e : Bytes × Bool) : (recalled probe m e).name = e.1 := rfl

@[simp] theorem recalled_internal (probe : Bytes → W → Int × W) (m : CapMemo)
    (e : Bytes × Bool) : (recalled probe m e).internal = e.2 := rfl

/-- The state in which the table remembers the log. -/
def recalls (probe : Bytes → W → Int × W) (m : CapMemo) (w : W) : CapState (Log × W) :=
  ⟨capEntries.map (recalled probe m), (m.log, w)⟩

/-- The fresh table remembers nothing. -/
theorem recalls_start (probe : Bytes → W → Int × W) (w : W) :
    recalls probe .empty w = ⟨capTable (logging probe), ([], w)⟩ := rfl

section Memo

variable {probe : Bytes → W → Int × W} {m : CapMemo} {w : W}

/-- `__cap_available` is a question to the memo. -/
theorem memoCapAvailable_recalled {e : Bytes × Bool} (he : e.1 ∈ capNames) :
    memoCapAvailable (recalled probe m e) (m.log, w)
      = ((ask probe e.1 m w).1, recalled probe (ask probe e.1 m w).2.1 e,
          ((ask probe e.1 m w).2.1.log, (ask probe e.1 m w).2.2)) := by
  have hlookup := @ask_lookup _ _ _ _ _ _ probe _ m w he
  rw [memoCapAvailable]
  cases hm : m.log.lookup e.1 with
  | some v =>
      rw [ask_known hm, recalled, hm]
      rfl
  | none =>
      rw [ask_new hm] at hlookup ⊢
      dsimp only at hlookup ⊢
      rw [recalled, recalled, hlookup, hm, Memo.record_log he hm]
      rfl

/-- A question to the memo changes the entry of the name only. -/
theorem recalled_ask {k : Bytes} {e : Bytes × Bool} (hne : e.1 ≠ k) :
    recalled probe (ask probe k m w).2.1 e = recalled probe m e := by
  rw [recalled, recalled, ask_lookup_ne hne]

theorem map_recalled_ask {k : Bytes} {entries : List (Bytes × Bool)}
    (h : k ∉ entries.map Prod.fst) :
    entries.map (recalled probe (ask probe k m w).2.1)
      = entries.map (recalled probe m) := by
  refine List.map_congr_left ?_
  intro e he
  refine recalled_ask ?_
  rintro rfl
  exact h (List.mem_map_of_mem he)

/-- **A lookup is a question to the memo**; a name that is not in the table is
    unavailable. -/
theorem capLookup_recalls (name : Bytes) :
    capLookup name (recalls probe m w).table (recalls probe m w).world
      = if name ∈ capNames then
          ((ask probe name m w).1, recalls probe (ask probe name m w).2.1
            (ask probe name m w).2.2)
        else (0, recalls probe m w) := by
  have hentries : ∀ entries : List (Bytes × Bool), (entries.map Prod.fst).Nodup →
      (∀ e ∈ entries, e.1 ∈ capNames) → name ∈ entries.map Prod.fst →
      capLookup name (entries.map (recalled probe m)) (m.log, w)
        = ((ask probe name m w).1, ⟨entries.map (recalled probe (ask probe name m w).2.1),
            ((ask probe name m w).2.1.log, (ask probe name m w).2.2)⟩) := by
    intro entries
    induction entries with
    | nil => intro _ _ hmem; exact nomatch hmem
    | cons e entries ih =>
        intro hnd hin hmem
        rw [List.map_cons, List.nodup_cons] at hnd
        rw [List.map_cons, List.map_cons, capLookup, recalled_name]
        by_cases hname : name = e.1
        · subst hname
          rw [if_pos rfl, memoCapAvailable_recalled (hin e List.mem_cons_self),
            map_recalled_ask hnd.1]
        · have hrest : name ∈ entries.map Prod.fst :=
            (List.mem_cons.mp hmem).resolve_left hname
          rw [if_neg (fun h => hname h), ih hnd.2
            (fun e' he' => hin e' (List.mem_cons_of_mem _ he')) hrest,
            recalled_ask (fun h => hname h.symm)]
          rfl
  by_cases hk : name ∈ capNames
  · rw [if_pos hk]
    exact hentries capEntries capEntries_nodup
      (fun e he => capEntries_names ▸ List.mem_map_of_mem he) hk
  · rw [if_neg hk]
    refine capLookup_unknown _ ?_
    rw [recalls, List.map_map]
    exact hk

/-- What a lookup returns can be read from the log from then on. -/
theorem capLookup_settles (probe : Bytes → W → Int × W) (name : Bytes) (m : CapMemo)
    (w : W) :
    ∃ v m' w', capLookup name (recalls probe m w).table (recalls probe m w).world
        = (v, recalls probe m' w')
      ∧ m.log <+: m'.log ∧ m'.Settled name ∧ (v != 0) = available m'.log name := by
  rw [capLookup_recalls]
  by_cases hk : name ∈ capNames
  · rw [if_pos hk]
    refine ⟨_, _, _, rfl, ask_prefix, ask_settled name m w, ?_⟩
    rw [available, ask_lookup hk, Option.getD_some]
  · rw [if_neg hk]
    refine ⟨_, _, _, rfl, List.prefix_rfl, fun h => absurd h hk, ?_⟩
    rw [available, m.lookup_unknown hk]
    rfl

/-! ## The listing -/

/-- A line of `print_capabilities`. -/
def capLine (name : Bytes) (v : Bool) : Bytes :=
  name ++ List.replicate (20 - name.length) 32 ++ str ": "
    ++ (if v then str "yes" else str "no") ++ str "\n"

/-- The listing of remembered answers. -/
def listing (log : Log) (entries : List (Bytes × Bool)) : Bytes :=
  (entries.filter (fun e => !e.2)).flatMap (fun e => capLine e.1 (available log e.1))

theorem listing_cons_internal (log : Log) (name : Bytes) (entries : List (Bytes × Bool)) :
    listing log ((name, true) :: entries) = listing log entries := rfl

theorem listing_cons (log : Log) (name : Bytes) (entries : List (Bytes × Bool)) :
    listing log ((name, false) :: entries)
      = capLine name (available log name) ++ listing log entries := rfl

/-- The listing of a part of the table: what it leaves alone, and what it
    settles. -/
theorem printCapabilities_entries (probe : Bytes → W → Int × W)
    {entries : List (Bytes × Bool)} (m : CapMemo) (w : W) (hnd : (entries.map Prod.fst).Nodup)
    (hin : ∀ e ∈ entries, e.1 ∈ capNames) :
    ∃ (m' : CapMemo) (w' : W),
      printCapabilities (entries.map (recalled probe m)) (m.log, w)
        = (listing m'.log entries, ⟨entries.map (recalled probe m'), (m'.log, w')⟩)
      ∧ m.log <+: m'.log ∧ (∀ e ∈ entries, e.2 = false → m'.Settled e.1)
      ∧ ∀ k ∉ entries.map Prod.fst, m'.log.lookup k = m.log.lookup k := by
  induction entries generalizing m w with
  | nil => exact ⟨m, w, rfl, List.prefix_rfl, (fun _ h => by cases h), fun _ _ => rfl⟩
  | cons e entries ih =>
      rw [List.map_cons, List.nodup_cons] at hnd
      have hin' : ∀ e' ∈ entries, e'.1 ∈ capNames :=
        fun e' he' => hin e' (List.mem_cons_of_mem _ he')
      obtain ⟨name, internal⟩ := e
      cases internal with
      | true =>
          obtain ⟨m', w', hprint, hpre, hset, hframe⟩ := ih m w hnd.2 hin'
          have hhead : recalled probe m (name, true) = recalled probe m' (name, true) := by
            rw [recalled, recalled, hframe name hnd.1]
          refine ⟨m', w', ?_, hpre, ?_, ?_⟩
          · rw [List.map_cons, printCapabilities, recalled_internal, if_pos rfl, hprint,
              hhead, listing_cons_internal]
            rfl
          · intro e' he' hint
            rcases List.mem_cons.mp he' with rfl | he'
            · cases hint
            · exact hset e' he' hint
          · intro k hk
            exact hframe k (fun h => hk (List.mem_cons_of_mem _ h))
      | false =>
          have hname : name ∈ capNames := hin _ List.mem_cons_self
          obtain ⟨m', w', hprint, hpre, hset, hframe⟩ :=
            ih (ask probe name m w).2.1 (ask probe name m w).2.2 hnd.2 hin'
          have hlookup := (hframe name hnd.1).trans (ask_lookup hname)
          have hhead : recalled probe (ask probe name m w).2.1 (name, false)
              = recalled probe m' (name, false) := by
            rw [recalled, recalled, hframe name hnd.1]
          have hyes : available m'.log name = ((ask probe name m w).1 != 0) := by
            rw [available, hlookup, Option.getD_some]
          refine ⟨m', w', ?_, ask_prefix.trans hpre, ?_, ?_⟩
          · rw [List.map_cons, printCapabilities, recalled_internal,
              if_neg Bool.false_ne_true, memoCapAvailable_recalled hname,
              ← map_recalled_ask hnd.1]
            dsimp only
            rw [hprint, hhead, listing_cons, hyes, capLine]
            simp only [bne_iff_ne]
            rfl
          · intro e' he' hint
            rcases List.mem_cons.mp he' with rfl | he'
            · exact (ask_settled name m w).later hpre
            · exact hset e' he' hint
          · intro k hk
            obtain ⟨hne, hk'⟩ := not_or.mp (fun h => hk (List.mem_cons.mpr h))
            rw [hframe k hk', ask_lookup_ne hne]

/-- **A listing asks for every entry that is not internal** and prints what is
    remembered then. -/
theorem printCapabilities_recalls (probe : Bytes → W → Int × W) (m : CapMemo) (w : W) :
    ∃ m' w', printCapabilities (recalls probe m w).table (recalls probe m w).world
        = (listing m'.log capEntries, recalls probe m' w')
      ∧ m.log <+: m'.log ∧ ∀ e ∈ capEntries, e.2 = false → m'.Settled e.1 := by
  obtain ⟨m', w', hprint, hpre, hset, -⟩ := printCapabilities_entries probe m w
    capEntries_nodup (fun e he => capEntries_names ▸ List.mem_map_of_mem he)
  exact ⟨m', w', hprint, hpre, hset⟩

/-- Remembered answers are listed the same way ever after. -/
theorem listing_later {m m' : CapMemo} (hpre : m.log <+: m'.log)
    (hset : ∀ e ∈ capEntries, e.2 = false → m.Settled e.1) :
    listing m'.log capEntries = listing m.log capEntries := by
  rw [listing, listing]
  refine List.flatMap_congr ?_
  intro e he
  obtain ⟨he, hint⟩ := List.mem_filter.mp he
  rw [available, available,
    Memo.lookup_later (hset e he (by simpa using hint)) hpre]

/-! ## The decision -/

/-- What decides on a test that is not disabled: every required capability is
    there, and every excluded one is not. -/
def Met (log : Log) (names : List (Bytes × Bool)) : Prop :=
  ∀ n ∈ names, available log n.1 ≠ n.2

/-- The required names are looked up until one is not met; what was looked up
    decides in every later log. -/
theorem requireNames_recalls (probe : Bytes → W → Int × W) (t : Test)
    (names : List (Bytes × Bool)) (m : CapMemo) (w : W) :
    ∃ m' w', (requireNames t names (recalls probe m w)).caps = recalls probe m' w'
      ∧ m.log <+: m'.log
      ∧ ∀ m'' : CapMemo, m'.log <+: m''.log →
          ((requireNames t names (recalls probe m w)).run = true ↔ Met m''.log names) := by
  induction names generalizing m w with
  | nil =>
      refine ⟨m, w, rfl, List.prefix_rfl, ?_⟩
      intro m'' _
      exact ⟨(fun _ _ h => by cases h), fun _ => rfl⟩
  | cons n names ih =>
      obtain ⟨name, invert⟩ := n
      obtain ⟨v, m₁, w₁, hlook, hpre, hset, hv⟩ := capLookup_settles probe name m w
      have hlater : ∀ m'' : CapMemo, m₁.log <+: m''.log →
          available m''.log name = (v != 0) := by
        intro m'' hm''
        rw [hv, available, available, Memo.lookup_later hset hm'']
      rw [requireNames, hlook]
      dsimp only
      by_cases hinv : (v != 0) = invert
      · rw [if_pos hinv]
        refine ⟨m₁, w₁, rfl, hpre, ?_⟩
        intro m'' hm''
        constructor
        · intro h
          cases h
        · intro h
          exact absurd ((hlater m'' hm'').trans hinv) (h _ List.mem_cons_self)
      · rw [if_neg hinv]
        obtain ⟨m', w', hcaps, hpre', hiff⟩ := ih m₁ w₁
        refine ⟨m', w', hcaps, hpre.trans hpre', ?_⟩
        intro m'' hm''
        rw [hiff m'' hm'', Met, Met, List.forall_mem_cons]
        refine (and_iff_right ?_).symm
        rw [hlater m'' (hpre'.trans hm'')]
        exact hinv

/-- **The decision is in the log**: whether a test is run, by its configuration
    and the remembered answers. -/
theorem shouldRunNamed_recalls (probe : Bytes → W → Int × W) (t : Test)
    (names : List (Bytes × Bool)) (m : CapMemo) (w : W) :
    ∃ m' w', (shouldRunNamed t names (recalls probe m w)).caps = recalls probe m' w'
      ∧ m.log <+: m'.log
      ∧ ∀ m'' : CapMemo, m'.log <+: m''.log →
          ((shouldRunNamed t names (recalls probe m w)).run = true
            ↔ t.disabled = false ∧ Met m''.log names) := by
  rw [shouldRunNamed]
  cases hdis : t.disabled with
  | true =>
      rw [if_pos rfl]
      refine ⟨m, w, rfl, List.prefix_rfl, ?_⟩
      intro m'' _
      exact ⟨(fun h => by cases h), fun h => by cases h.1⟩
  | false =>
      rw [if_neg Bool.false_ne_true]
      obtain ⟨m', w', hcaps, hpre, hiff⟩ := requireNames_recalls probe t names m w
      refine ⟨m', w', hcaps, hpre, ?_⟩
      intro m'' hm''
      rw [hiff m'' hm'']
      exact (and_iff_right rfl).symm

end Memo

/-! ## A run -/

/-- What a run does: it decides on a test and runs it or not, or it lists the
    capabilities; in between the world goes on. -/
inductive Use (W : Type) where
  | test (sc : Script) (t : Test)
  | print
  | elapse (w : W)

/-- What comes of it.  For a test: the array and the record after
    `test_read_config`, the decision, and what `run_test` returns with. -/
inductive Deed (W : Type) where
  | tested (sc : Script) (buf : Bytes) (conf : Test) (ran : Bool)
      (o : Option (Outcome W))
  | printed (out : Bytes)
  | elapsed

/-- One use of the table. -/
def perform (enableTimeout : Bool) :
    Use W → CapState (Log × W) → Option (Deed (Log × W) × CapState (Log × W))
  | .test sc t, cs =>
      match testReadConfig sc.fs sc.frame t with
      | none => none
      | some (buf, s) =>
          (testShouldRun s.test sc.dead cs).map (fun d =>
            (.tested sc buf s.test d.run (runTest enableTimeout sc cs t), d.caps))
  | .print, cs =>
      let (out, cs) := printCapabilities cs.table cs.world
      some (.printed out, cs)
  | .elapse w, cs => some (.elapsed, ⟨cs.table, (cs.world.1, w)⟩)

/-- A run. -/
def performAll (enableTimeout : Bool) :
    List (Use W) → CapState (Log × W) →
      Option (List (Deed (Log × W)) × CapState (Log × W))
  | [], cs => some ([], cs)
  | u :: uses, cs =>
      match perform enableTimeout u cs with
      | none => none
      | some (deed, cs) =>
          (performAll enableTimeout uses cs).map (fun r => (deed :: r.1, r.2))

/-- The names that the parser has stored are still there for
    `test_should_run`. -/
def Use.Intact : Use W → Prop
  | .test sc t => ∀ buf s, testReadConfig sc.fs sc.frame t = some (buf, s) →
      ∃ names, List.Forall₂ (Denotes buf) s.test.capsRequired names
        ∧ List.Forall₂ (Denotes sc.dead) s.test.capsRequired names
  | _ => True

/-- A pointer denotes one name. -/
theorem denotes_unique {mem : Bytes} {rcs : List RequiredCap}
    {names names' : List (Bytes × Bool)} (h : List.Forall₂ (Denotes mem) rcs names)
    (h' : List.Forall₂ (Denotes mem) rcs names') : names = names' := by
  refine List.right_unique_forall₂' ?_ h h'
  intro rc n n' hn hn'
  exact Prod.ext (Option.some.inj (hn.name.symm.trans hn'.name))
    (hn.invert.symm.trans hn'.invert)

/-- An array that is untouched keeps the names. -/
theorem intact_of_dead {sc : Script} {path : Bytes} {type : TestType}
    (h : ∀ buf s, testReadConfig sc.fs sc.frame (testCreate path type) = some (buf, s) →
      sc.dead = buf) : (Use.test sc (testCreate path type) : Use W).Intact := by
  intro buf s hread
  obtain ⟨hnamed, -⟩ := testReadConfig_caps hread
  obtain ⟨v, hv⟩ := hnamed.view
  have hview : confView buf s.test = some v := by
    rw [← List.append_nil buf]
    exact hv []
  obtain ⟨-, hden⟩ := confView_eq_some hview
  exact ⟨v.caps, hden, by rw [h buf s hread]; exact hden⟩

/-- What came of a use can be read from the log: a test is run exactly if it is
    not disabled and its requirements are met, and otherwise it is skipped
    without a system call; a listing shows the remembered answers. -/
def Deed.ReadsFrom (log : Log) : Deed (Log × W) → Prop
  | .tested sc buf conf ran o => ∀ names,
      List.Forall₂ (Denotes buf) conf.capsRequired names →
      (ran = true ↔ conf.disabled = false ∧ Met log names)
      ∧ (∀ o', o = some o' → (ran = true ↔ sc.answers ≠ []))
      ∧ (ran = false → sc.answers = [] →
          ∃ o', o = some o' ∧ o'.rc = 0 ∧ o'.test.result = .skipped ∧ o'.calls = [])
  | .printed out => out = listing log capEntries
  | .elapsed => True

section Run

variable {enableTimeout : Bool}

/-- `run_test` does what `test_should_run` has decided. -/
theorem runTest_decided {V : Type} (enableTimeout : Bool) {sc : Script}
    {cs : CapState V} {t : Test} {buf : Bytes} {s : ConfState} {d : ShouldRun V}
    (hread : testReadConfig sc.fs sc.frame t = some (buf, s))
    (hrun : testShouldRun s.test sc.dead cs = some d) :
    (∀ o, runTest enableTimeout sc cs t = some o →
        o.caps = d.caps ∧ (d.run = true ↔ sc.answers ≠ []))
      ∧ (d.run = false → sc.answers = [] →
          ∃ o, runTest enableTimeout sc cs t = some o ∧ o.rc = 0
            ∧ o.test.result = .skipped ∧ o.calls = []) := by
  rw [runTest, hread]
  dsimp only
  rw [hrun]
  dsimp only
  rcases testShouldRun_test hrun with ⟨hd, -⟩ | ⟨hd, ht⟩
  · rw [hd, if_pos rfl]
    refine ⟨?_, fun h => by cases h⟩
    intro o ho
    have hans : sc.answers ≠ [] := by
      -- without an answer the runner still waits for the pipe
      intro hempty
      rw [hempty] at ho
      cases ho
    split at ho
    · rw [← Option.some.inj ho]
      exact ⟨rfl, (fun _ => hans), fun _ => rfl⟩
    · cases ho
  · rw [hd, if_neg Bool.false_ne_true]
    cases hans : sc.answers with
    | nil =>
        refine ⟨?_, fun _ _ => ⟨_, rfl, rfl, by rw [ht], rfl⟩⟩
        intro o ho
        rw [← Option.some.inj ho]
        exact ⟨rfl, (fun h => by cases h), fun h => absurd rfl h⟩
    | cons a as =>
        refine ⟨?_, fun _ h => by cases h⟩
        intro o ho
        cases ho

/-- **One use**: the table remembers a longer log, and what came of the use can
    be read from that and from every later log. -/
theorem perform_step {probe : Bytes → W → Int × W} {u : Use W} {m : CapMemo} {w : W}
    {deed : Deed (Log × W)} {cs : CapState (Log × W)} (hu : u.Intact)
    (h : perform enableTimeout u (recalls probe m w) = some (deed, cs)) :
    ∃ m' w', cs = recalls probe m' w' ∧ m.log <+: m'.log
      ∧ ∀ m'' : CapMemo, m'.log <+: m''.log → deed.ReadsFrom m''.log := by
  cases u with
  | test sc t =>
      rw [perform] at h
      cases hread : testReadConfig sc.fs sc.frame t with
      | none => rw [hread] at h; exact nomatch h
      | some bs =>
          obtain ⟨buf, s⟩ := bs
          rw [hread] at h
          obtain ⟨d, hd, heq⟩ := Option.map_eq_some_iff.mp h
          obtain ⟨rfl, rfl⟩ := Prod.mk.inj heq
          obtain ⟨names, hbuf, hdead⟩ := hu buf s hread
          have hcs : ∀ c ∈ (recalls probe m w).table, (0 : UInt8) ∉ c.name := by
            intro c hc
            obtain ⟨e, he, rfl⟩ := List.mem_map.mp hc
            have hall : ∀ e ∈ capEntries, (0 : UInt8) ∉ e.1 := by decide
            exact hall e he
          rw [testShouldRun_named hcs hdead] at hd
          obtain rfl := Option.some.inj hd
          obtain ⟨m', w', hcaps, hpre, hiff⟩ := shouldRunNamed_recalls probe s.test names m w
          obtain ⟨hforks, hskip⟩ :=
            runTest_decided enableTimeout hread (testShouldRun_named hcs hdead)
          refine ⟨m', w', hcaps, hpre, ?_⟩
          intro m'' hm'' names' hnames'
          rw [denotes_unique hnames' hbuf]
          exact ⟨hiff m'' hm'', (fun o ho => (hforks o ho).2), hskip⟩
  | print =>
      obtain ⟨m', w', hprint, hpre, hset⟩ := printCapabilities_recalls probe m w
      rw [perform, hprint] at h
      obtain ⟨rfl, rfl⟩ := Prod.mk.inj (Option.some.inj h)
      refine ⟨m', w', rfl, hpre, ?_⟩
      intro m'' hm''
      exact (listing_later hm'' hset).symm
  | elapse w' =>
      obtain ⟨rfl, rfl⟩ := Prod.mk.inj (Option.some.inj h)
      exact ⟨m, w', rfl, List.prefix_rfl, fun _ _ => trivial⟩

/-- A run: the log grows, and what came of every use can be read from the log
    at its end. -/
theorem performAll_recalls {probe : Bytes → W → Int × W} {uses : List (Use W)}
    {m : CapMemo} {w : W} {deeds : List (Deed (Log × W))} {cs : CapState (Log × W)}
    (hu : ∀ u ∈ uses, u.Intact)
    (h : performAll enableTimeout uses (recalls probe m w) = some (deeds, cs)) :
    ∃ m' w', cs = recalls probe m' w' ∧ m.log <+: m'.log
      ∧ ∀ m'' : CapMemo, m'.log <+: m''.log → ∀ deed ∈ deeds, deed.ReadsFrom m''.log := by
  induction uses generalizing m w deeds with
  | nil =>
      obtain ⟨rfl, rfl⟩ := Prod.mk.inj (Option.some.inj h)
      exact ⟨m, w, rfl, List.prefix_rfl, fun _ _ _ hd => nomatch hd⟩
  | cons u uses ih =>
      rw [performAll] at h
      cases hone : perform enableTimeout u (recalls probe m w) with
      | none => rw [hone] at h; exact nomatch h
      | some r =>
          obtain ⟨deed, cs₁⟩ := r
          rw [hone] at h
          obtain ⟨⟨deeds', cs'⟩, hall, heq⟩ := Option.map_eq_some_iff.mp h
          obtain ⟨rfl, rfl⟩ := Prod.mk.inj heq
          obtain ⟨m₁, w₁, rfl, hpre₁, hreads⟩ := perform_step (hu u List.mem_cons_self) hone
          obtain ⟨m', w', rfl, hpre, hrest⟩ :=
            ih (fun v hv => hu v (List.mem_cons_of_mem _ hv)) hall
          refine ⟨m', w', rfl, hpre₁.trans hpre, ?_⟩
          intro m'' hm'' d hd
          rcases List.mem_cons.mp hd with rfl | hd
          · exact hreads m'' (hpre.trans hm'')
          · exact hrest m'' hm'' d hd

/-- **Skip decisions are consistent**: no probe function is called twice, none
    outside the table, a name that is not in the table is unavailable, every
    decision and every listing can be read from the log, and of two tests that
    require `X` and `!X` and nothing else exactly one is run. -/
structure Consistent (log : Log) (deeds : List (Deed (Log × W))) : Prop where
  once : (log.map Prod.fst).Nodup
  known : ∀ name ∈ log.map Prod.fst, name ∈ capNames
  unknown : ∀ name, name ∉ capNames → available log name = false
  reads : ∀ deed ∈ deeds, deed.ReadsFrom log
  opposite : ∀ sc₁ buf₁ conf₁ ran₁ o₁ sc₂ buf₂ conf₂ ran₂ o₂ name,
    Deed.tested sc₁ buf₁ conf₁ ran₁ o₁ ∈ deeds → Deed.tested sc₂ buf₂ conf₂ ran₂ o₂ ∈ deeds →
    conf₁.disabled = false → conf₂.disabled = false →
    List.Forall₂ (Denotes buf₁) conf₁.capsRequired [(name, false)] →
    List.Forall₂ (Denotes buf₂) conf₂.capsRequired [(name, true)] → ran₁ = !ran₂

/-- **Every run is consistent**, whatever the probe functions answer. -/
theorem performAll_consistent (probe : Bytes → W → Int × W) {uses : List (Use W)} {w : W}
    {deeds : List (Deed (Log × W))} {cs : CapState (Log × W)}
    (hintact : ∀ u ∈ uses, u.Intact)
    (h : performAll enableTimeout uses ⟨capTable (logging probe), ([], w)⟩
      = some (deeds, cs)) : Consistent cs.world.1 deeds := by
  rw [← recalls_start] at h
  obtain ⟨m, w', rfl, -, hreads⟩ := performAll_recalls hintact h
  have hall := hreads m List.prefix_rfl
  refine ⟨m.nodup, m.known, ?_, hall, ?_⟩
  · intro name hname
    show ((m.log.lookup name).getD 0 != 0) = false
    rw [m.lookup_unknown hname]
    rfl
  · intro sc₁ buf₁ conf₁ ran₁ o₁ sc₂ buf₂ conf₂ ran₂ o₂ name h₁ h₂ hdis₁ hdis₂ hreq₁ hreq₂
    obtain ⟨hran₁, -⟩ := hall _ h₁ _ hreq₁
    obtain ⟨hran₂, -⟩ := hall _ h₂ _ hreq₂
    simp only [hdis₁, hdis₂, Met, List.mem_singleton, forall_eq, true_and] at hran₁ hran₂
    cases hav : available m.log name with
    | true =>
        rw [hav] at hran₁ hran₂
        rw [hran₁.mpr Bool.false_ne_true.symm, Bool.eq_false_iff.mpr (fun h => hran₂.mp h rfl)]
        rfl
    | false =>
        rw [hav] at hran₁ hran₂
        rw [hran₂.mpr Bool.false_ne_true, Bool.eq_false_iff.mpr (fun h => hran₁.mp h rfl)]
        rfl

/-- A test that `run_test` returns from is a use of the table. -/
theorem perform_runTest {sc : Script} {cs : CapState (Log × W)} {t : Test}
    {o : Outcome (Log × W)} (h : runTest enableTimeout sc cs t = some o) :
    ∃ deed, perform enableTimeout (.test sc t) cs = some (deed, o.caps) := by
  obtain ⟨buf, s, hread, hret⟩ := runTest_cases h
  obtain ⟨d, hrun, hcaps⟩ := hret.decided
  refine ⟨.tested sc buf s.test d.run (runTest enableTimeout sc cs t), ?_⟩
  rw [perform, hread]
  dsimp only
  rw [hrun, hcaps]
  rfl

/-- **The loop of `run_tests` is a run**: it uses the table for the tests that it
    processes, one after the other. -/
theorem runLoop_performed {contOnFailure : Bool} {rc : Int32} {scripts : List Script}
    {tests : List Test} {cs : CapState (Log × W)}
    {l : Loop Script (List Script × CapState (Log × W))}
    (h : runLoop (scripted enableTimeout) contOnFailure rc tests (scripts, cs) = some l) :
    ∃ deeds, performAll enableTimeout
        (((scripts.zip tests).take l.done.length).map (fun p => .test p.1 p.2)) cs
      = some (deeds, l.state.2) := by
  induction tests generalizing rc scripts cs l with
  | nil =>
      rw [← Option.some.inj h]
      exact ⟨[], rfl⟩
  | cons t tests ih =>
      obtain ⟨turn, s', hone, hrest⟩ := runLoop_cons h
      cases scripts with
      | nil => exact nomatch hone
      | cons sc scripts =>
          obtain ⟨o, ho, heq⟩ := Option.map_eq_some_iff.mp hone
          obtain ⟨-, rfl⟩ := Prod.mk.inj heq
          obtain ⟨deed, hdeed⟩ := perform_runTest ho
          rcases hrest with ⟨-, rfl⟩ | ⟨l', hl', rfl⟩
          · refine ⟨[deed], ?_⟩
            show performAll enableTimeout [.test sc t] cs = some ([deed], o.caps)
            rw [performAll, hdeed]
            rfl
          · obtain ⟨deeds, hdeeds⟩ := ih hl'
            refine ⟨deed :: deeds, ?_⟩
            rw [List.zip_cons_cons, List.length_cons, List.take_succ_cons, List.map_cons,
              performAll, hdeed]
            dsimp only
            rw [hdeeds]
            rfl

end Run

/-- A probe function that answers 0 and 1 in turn. -/
def fickle (_ : Bytes) (n : Nat) : Int × Nat := (n % 2, n + 1)

/-- Two tests with opposite requirements. -/
def rootConf : Bytes := str "01-a: cap_root\n02-b: !cap_root"

/-- What a test meets whose configuration stays where it was read. -/
def rootScript (path : Bytes) (answers : List Answer) : Script :=
  ⟨fun _ => .contents rootConf, zeroFrame,
    ((testReadConfig (fun _ => .contents rootConf) zeroFrame
      (testCreate path .test)).map Prod.fst).getD [], answers⟩

def rootRun : List (Use Nat) :=
  [.test (rootScript (str "t/01-a") []) (testCreate (str "t/01-a") .test), .print,
    .elapse 7, .test (rootScript (str "t/02-b") [.pipe none]) (testCreate (str "t/02-b") .test)]

theorem performAll_consistent_sample :
    ∃ deeds cs, performAll true rootRun ⟨capTable (logging fickle), ([], 0)⟩
        = some (deeds, cs)
      ∧ cs.world.1 = [(str "root", 0), (str "affinity", 1), (str "hugepages", 0),
          (str "sputrace", 1)]
      ∧ Consistent cs.world.1 deeds := by
  have hlog : (performAll true rootRun ⟨capTable (logging fickle), ([], 0)⟩).map
      (fun r => r.2.world.1) = some [(str "root", 0), (str "affinity", 1),
        (str "hugepages", 0), (str "sputrace", 1)] := by
    decide +kernel
  obtain ⟨⟨deeds, cs⟩, hall, hcs⟩ := Option.map_eq_some_iff.mp hlog
  refine ⟨deeds, cs, hall, hcs, performAll_consistent fickle ?_ hall⟩
  have htest : ∀ path answers,
      (Use.test (rootScript path answers) (testCreate path .test) : Use Nat).Intact := by
    intro path answers
    refine intact_of_dead ?_
    intro buf s hread
    have hdead : (testReadConfig (fun _ => .contents rootConf) zeroFrame
        (testCreate path .test)) = some (buf, s) := hread
    rw [rootScript, hdead]
    rfl
  intro u hu
  simp only [rootRun, List.mem_cons, List.not_mem_nil, or_false] at hu
  rcases hu with rfl | rfl | rfl | rfl
  · exact htest _ _
  · trivial
  · trivial
  · exact htest _ _

end SpufsSkipRun
