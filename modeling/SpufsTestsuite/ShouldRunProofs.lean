import SpufsTestsuite.CapabilityProofs
import SpufsTestsuite.ConfLeftoverProofs

/-! # The decision to run a test — names read after their buffer died

    `test_should_run` looks up the required names of a test.  They are pointers
    into the local array of `test_read_config`, which has returned by then:
    `testShouldRun` takes the memory that is found there, from the address of
    the array on, as an argument.

    On names that are intact the decision is `shouldRunNamed`, a function of
    the names alone (`requireCaps_named`).  It survives every content of the
    dead array exactly when there is no name to read
    (`testShouldRun_dead_frame`). -/

namespace SpufsShouldRun

open CString SpufsTest SpufsConfScan SpufsConfReference SpufsConfLeftover
open SpufsCapability

variable {W : Type}

/-! ## `test_should_run` -/

/-- What `test_should_run` returns and leaves behind. -/
structure ShouldRun (W : Type) where
  run    : Bool
  test   : Test
  stdout : Bytes
  caps   : CapState W

/-- The decision: run, or skip and the reason that is printed. -/
def ShouldRun.decision (r : ShouldRun W) : Bool × TestResult × Bytes :=
  (r.run, r.test.result, r.stdout)

/-- `test_skip(test, "requires %s%s", ...)` and the return behind it. -/
def skipRequires (t : Test) (invert : Bool) (name : Bytes) (cs : CapState W) :
    ShouldRun W :=
  let (t, out) :=
    testSkip t (str "requires " ++ (if invert then str "!" else []) ++ name)
  ⟨false, { t with result := .skipped }, out, cs⟩

/-- The loop over `test->caps_required`. -/
def requireCaps (t : Test) (mem : Bytes) : List RequiredCap → CapState W →
    Option (ShouldRun W)
  | [], cs => some ⟨true, t, [], cs⟩
  | rc :: rcs, cs =>
      match capAvailable (mem.drop rc.cap) cs.table cs.world with
      | none => none
      | some (v, cs) =>
          if (v != 0) = rc.invert then
            match cstr (mem.drop rc.cap) with
            | none => none
            | some name => some (skipRequires t rc.invert name cs)
          else requireCaps t mem rcs cs

/-- `test_should_run`, the capability names being read from `mem`. -/
def testShouldRun (t : Test) (mem : Bytes) (cs : CapState W) :
    Option (ShouldRun W) :=
  if t.disabled then
    let (t, out) := testSkip t (str "disabled")
    some ⟨false, t, out, cs⟩
  else requireCaps t mem t.capsRequired cs

/-! ## The decision by names -/

/-- The loop over required names. -/
def requireNames (t : Test) : List (Bytes × Bool) → CapState W → ShouldRun W
  | [], cs => ⟨true, t, [], cs⟩
  | (name, invert) :: names, cs =>
      let (v, cs) := capLookup name cs.table cs.world
      if (v != 0) = invert then skipRequires t invert name cs
      else requireNames t names cs

/-- The decision for a test whose required names are `names`. -/
def shouldRunNamed (t : Test) (names : List (Bytes × Bool)) (cs : CapState W) :
    ShouldRun W :=
  if t.disabled then
    let (t, out) := testSkip t (str "disabled")
    ⟨false, t, out, cs⟩
  else requireNames t names cs

/-- The pointer `rc.cap` denotes the name `cap.1` in `mem`. -/
structure Denotes (mem : Bytes) (rc : RequiredCap) (cap : Bytes × Bool) : Prop where
  name   : cstr (mem.drop rc.cap) = some cap.1
  invert : rc.invert = cap.2

variable {K : Kernel W}

/-- **Pointers that denote names**: the loop is the loop over the names. -/
theorem requireCaps_named {t : Test} {mem : Bytes} {rcs : List RequiredCap}
    {names : List (Bytes × Bool)} {cs : CapState W}
    (hcs : ∀ c ∈ cs.table, (0 : UInt8) ∉ c.name)
    (h : List.Forall₂ (Denotes mem) rcs names) :
    requireCaps t mem rcs cs = some (requireNames t names cs) := by
  induction h generalizing cs with
  | nil => rfl
  | @cons rc name _ _ hd _ ih =>
      obtain ⟨r, hmem, h0⟩ := cstr_eq_some.mp hd.name
      rw [requireCaps, hmem, capAvailable_string r cs.world h0 hcs, requireNames]
      dsimp only
      rw [hd.invert, cstr_append_zero r h0]
      split
      · rfl
      · have hnames : ∀ n ∈ (capLookup name.1 cs.table cs.world).2.table.map
            Capability.name, (0 : UInt8) ∉ n := by
          rw [capLookup_names]
          exact List.forall_mem_map.mpr hcs
        exact ih (fun c hc => hnames _ (List.mem_map_of_mem hc))

theorem testShouldRun_named {t : Test} {mem : Bytes} {names : List (Bytes × Bool)}
    {cs : CapState W} (hcs : ∀ c ∈ cs.table, (0 : UInt8) ∉ c.name)
    (h : List.Forall₂ (Denotes mem) t.capsRequired names) :
    testShouldRun t mem cs = some (shouldRunNamed t names cs) := by
  rw [testShouldRun, shouldRunNamed]
  split
  · rfl
  · exact requireCaps_named hcs h

/-- Names that are all unknown: the first one that is not inverted decides. -/
theorem requireNames_unknown {t : Test} {names : List (Bytes × Bool)}
    {cs : CapState W} (h : ∀ n ∈ names, n.1 ∉ cs.table.map Capability.name) :
    ((∀ n ∈ names, n.2 = true) ∧ requireNames t names cs = ⟨true, t, [], cs⟩)
    ∨ ((∃ n ∈ names, n.2 = false)
      ∧ ∃ n ∈ names, requireNames t names cs = skipRequires t false n.1 cs) := by
  induction names with
  | nil =>
      refine Or.inl ⟨?_, rfl⟩
      intro n hn
      exact nomatch hn
  | cons n names ih =>
      obtain ⟨name, invert⟩ := n
      rw [requireNames, capLookup_unknown cs.world (h _ List.mem_cons_self)]
      dsimp only
      cases invert with
      | false =>
          exact Or.inr ⟨⟨_, List.mem_cons_self, rfl⟩, _, List.mem_cons_self,
            if_pos rfl⟩
      | true =>
          rw [if_neg (by decide)]
          rcases ih (fun n hn => h n (List.mem_cons_of_mem _ hn)) with
            ⟨hall, hrun⟩ | ⟨⟨n, hn, hinv⟩, n', hn', hskip⟩
          · refine Or.inl ⟨?_, hrun⟩
            intro n hn
            rcases List.mem_cons.mp hn with rfl | hn
            · rfl
            · exact hall n hn
          · exact Or.inr ⟨⟨n, List.mem_cons_of_mem _ hn, hinv⟩, n',
              List.mem_cons_of_mem _ hn', hskip⟩

/-! ## Two contents of the dead array -/

/-- What the pointers denote when all names are given by their position. -/
theorem denotes_map {mem : Bytes} {rcs : List RequiredCap} (name : Nat → Bytes)
    (h : ∀ rc ∈ rcs, cstr (mem.drop rc.cap) = some (name rc.cap)) :
    List.Forall₂ (Denotes mem) rcs
      (rcs.map (fun rc => (name rc.cap, rc.invert))) := by
  induction rcs with
  | nil => exact List.Forall₂.nil
  | cons rc rcs ih =>
      exact List.Forall₂.cons ⟨h rc List.mem_cons_self, rfl⟩
        (ih (fun r hr => h r (List.mem_cons_of_mem _ hr)))

/-- In an array of NULs every name is empty. -/
theorem denotes_zero {rcs : List RequiredCap}
    (hin : ∀ rc ∈ rcs, rc.cap < confBufSize) :
    List.Forall₂ (Denotes (List.replicate confBufSize 0)) rcs
      (rcs.map (fun rc => ([], rc.invert))) := by
  refine denotes_map (fun _ => []) ?_
  intro rc hrc
  have hlt := hin rc hrc
  rw [List.drop_replicate,
    show confBufSize - rc.cap = (confBufSize - rc.cap - 1) + 1 by omega]
  rfl

/-- In an array of `z`s every name is a run of `z`s. -/
theorem denotes_fill {rcs : List RequiredCap}
    (hin : ∀ rc ∈ rcs, rc.cap < confBufSize) :
    List.Forall₂ (Denotes (List.replicate confBufSize 122 ++ [0])) rcs
      (rcs.map (fun rc =>
        (List.replicate (confBufSize - rc.cap) 122, rc.invert))) := by
  refine denotes_map (fun p => List.replicate (confBufSize - p) 122) ?_
  intro rc hrc
  rw [List.drop_append_of_le_length
    (by rw [List.length_replicate]; exact Nat.le_of_lt (hin rc hrc)),
    List.drop_replicate]
  refine cstr_append_zero [] ?_
  intro h0
  exact absurd (List.eq_of_mem_replicate h0) (by decide)

/-- No capability has an empty name, or one that starts with a `z`. -/
theorem unknown_of_head {cs : CapState W} (hcs : Reached K cs) {name : Bytes}
    (h : name.head? ∈ [none, some 122]) :
    name ∉ cs.table.map Capability.name := by
  intro hmem
  rw [hcs.names] at hmem
  have hall : ∀ a ∈ capNames, a.head? ∉ [none, some 122] := by decide
  exact hall _ hmem h

/-- A requirement that is not inverted, and names that are all unknown: the
    test is skipped for one of them. -/
theorem requireNames_skips {t : Test} {cs : CapState W} (hcs : Reached K cs)
    {rcs : List RequiredCap} (hinv : ∃ rc ∈ rcs, rc.invert = false)
    (name : RequiredCap → Bytes)
    (hname : ∀ rc ∈ rcs, (name rc).head? ∈ [none, some 122]) :
    ∃ rc ∈ rcs, requireNames t (rcs.map (fun rc => (name rc, rc.invert))) cs
      = skipRequires t false (name rc) cs := by
  obtain ⟨rc, hrc, hf⟩ := hinv
  have hunknown : ∀ n ∈ rcs.map (fun rc => (name rc, rc.invert)),
      n.1 ∉ cs.table.map Capability.name := by
    intro n hn
    obtain ⟨rc', hrc', rfl⟩ := List.mem_map.mp hn
    exact unknown_of_head hcs (hname rc' hrc')
  rcases requireNames_unknown (t := t) hunknown with ⟨hall, -⟩ | ⟨-, n, hn, hs⟩
  · have ht := hall _ (List.mem_map_of_mem hrc)
    rw [hf] at ht
    exact nomatch ht
  · obtain ⟨rc', hrc', rfl⟩ := List.mem_map.mp hn
    exact ⟨rc', hrc', hs⟩

/-- Requirements that are all inverted, and names that are all empty: the test
    is run. -/
theorem requireNames_runs {t : Test} {cs : CapState W} (hcs : Reached K cs)
    {rcs : List RequiredCap} (hinv : ∀ rc ∈ rcs, rc.invert = true) :
    requireNames t (rcs.map (fun rc => ([], rc.invert))) cs
      = ⟨true, t, [], cs⟩ := by
  have hunknown : ∀ n ∈ rcs.map (fun rc => (([] : Bytes), rc.invert)),
      n.1 ∉ cs.table.map Capability.name := by
    intro n hn
    obtain ⟨rc, -, rfl⟩ := List.mem_map.mp hn
    exact unknown_of_head hcs List.mem_cons_self
  rcases requireNames_unknown (t := t) hunknown with ⟨-, hr⟩ | ⟨⟨n, hn, hf⟩, -⟩
  · exact hr
  · obtain ⟨rc, hrc, rfl⟩ := List.mem_map.mp hn
    have ht : rc.invert = false := hf
    rw [hinv rc hrc] at ht
    exact nomatch ht

/-- An inverted first requirement whose pointer finds `always` skips. -/
theorem requireCaps_always {t : Test} {cs : CapState W} (hcs : Reached K cs)
    {rc : RequiredCap} (rcs : List RequiredCap) (hinv : rc.invert = true)
    {mem r : Bytes} (hmem : mem.drop rc.cap = str "always" ++ 0 :: r) :
    ∃ cs', requireCaps t mem (rc :: rcs) cs
      = some (skipRequires t true (str "always") cs') := by
  rw [requireCaps, hmem, capAvailable_string r cs.world (by decide) hcs.nul_free]
  dsimp only
  rw [hcs.always, hinv, cstr_append_zero r (by decide)]
  exact ⟨_, rfl⟩

/-- The decision of a test that is not disabled is that of its requirements. -/
theorem testShouldRun_enabled {t : Test} (hdis : t.disabled = false) (mem : Bytes)
    (cs : CapState W) :
    testShouldRun t mem cs = requireCaps t mem t.capsRequired cs := by
  rw [testShouldRun, hdis]
  rfl

/-- With a requirement that is not inverted two contents skip, for names of
    different lengths. -/
theorem testShouldRun_skips {t : Test} {cs : CapState W} (hcs : Reached K cs)
    (hdis : t.disabled = false) (hin : ∀ rc ∈ t.capsRequired, rc.cap < confBufSize)
    (hinv : ∃ rc ∈ t.capsRequired, rc.invert = false) :
    ∃ m₁ m₂ r₁ r₂, confBufSize ≤ m₁.length ∧ confBufSize ≤ m₂.length
      ∧ testShouldRun t m₁ cs = some r₁ ∧ testShouldRun t m₂ cs = some r₂
      ∧ r₁.decision ≠ r₂.decision := by
  have hzero := (testShouldRun_enabled hdis _ _).trans
    (requireCaps_named hcs.nul_free (denotes_zero hin))
  have hfill := (testShouldRun_enabled hdis _ _).trans
    (requireCaps_named hcs.nul_free (denotes_fill hin))
  obtain ⟨-, -, hs₁⟩ := requireNames_skips (t := t) hcs hinv (fun _ => [])
    (fun _ _ => List.mem_cons_self)
  obtain ⟨rc₂, hrc₂, hs₂⟩ := requireNames_skips (t := t) hcs hinv
    (fun rc => List.replicate (confBufSize - rc.cap) 122) (by
      intro rc hrc
      have hlt := hin rc hrc
      rw [show confBufSize - rc.cap = (confBufSize - rc.cap - 1) + 1 by omega]
      exact List.mem_cons_of_mem _ List.mem_cons_self)
  refine ⟨_, _, _, _, (List.length_replicate).ge, ?_, hzero, hfill, ?_⟩
  · rw [List.length_append, List.length_replicate]
    exact Nat.le_add_right _ _
  · rw [hs₁, hs₂]
    intro heq
    have hout := congrArg (fun d => d.2.2.length) heq
    have hlt := hin rc₂ hrc₂
    simp only [ShouldRun.decision, skipRequires, testSkip, List.length_append,
      List.length_replicate, List.length_nil] at hout
    omega

/-- With inverted requirements only, the array of NULs runs the test, and an
    `always` at the first requirement skips it. -/
theorem testShouldRun_runs {t : Test} {cs : CapState W} (hcs : Reached K cs)
    (hdis : t.disabled = false) (hin : ∀ rc ∈ t.capsRequired, rc.cap < confBufSize)
    (hcaps : t.capsRequired ≠ []) (hall : ∀ rc ∈ t.capsRequired, rc.invert = true) :
    ∃ m₁ m₂ r₁ r₂, confBufSize ≤ m₁.length ∧ confBufSize ≤ m₂.length
      ∧ testShouldRun t m₁ cs = some r₁ ∧ testShouldRun t m₂ cs = some r₂
      ∧ r₁.decision ≠ r₂.decision := by
  have hzero := (testShouldRun_enabled hdis _ _).trans
    (requireCaps_named hcs.nul_free (denotes_zero hin))
  have hruns := requireNames_runs (t := t) hcs hall
  obtain ⟨rc, rcs, hrcs⟩ := List.exists_cons_of_ne_nil hcaps
  have hmem : (List.replicate rc.cap 0 ++ (str "always"
      ++ 0 :: List.replicate confBufSize 0)).drop rc.cap
      = str "always" ++ 0 :: List.replicate confBufSize 0 := by
    rw [List.drop_append_of_le_length (List.length_replicate).ge,
      List.drop_replicate, Nat.sub_self]
    rfl
  obtain ⟨cs', hskip⟩ := requireCaps_always (t := t) hcs rcs
    (hall rc (hrcs ▸ List.mem_cons_self)) hmem
  rw [← hrcs] at hskip
  refine ⟨_, _, _, _, (List.length_replicate).ge, ?_, hzero,
    (testShouldRun_enabled hdis _ _).trans hskip, ?_⟩
  · rw [List.length_append, List.length_append, List.length_cons,
      List.length_replicate, List.length_replicate]
    omega
  · rw [hruns]
    intro heq
    exact nomatch (Prod.mk.inj heq).1

/-- **Whoever has to read a name depends on the memory**: two contents of the
    dead array on which the decisions are defined and differ. -/
theorem testShouldRun_differs {t : Test} {cs : CapState W} (hcs : Reached K cs)
    (hdis : t.disabled = false) (hcaps : t.capsRequired ≠ [])
    (hin : ∀ rc ∈ t.capsRequired, rc.cap < confBufSize) :
    ∃ m₁ m₂ r₁ r₂, confBufSize ≤ m₁.length ∧ confBufSize ≤ m₂.length
      ∧ testShouldRun t m₁ cs = some r₁ ∧ testShouldRun t m₂ cs = some r₂
      ∧ r₁.decision ≠ r₂.decision := by
  by_cases hinv : ∃ rc ∈ t.capsRequired, rc.invert = false
  · exact testShouldRun_skips hcs hdis hin hinv
  · refine testShouldRun_runs hcs hdis hin hcaps ?_
    intro rc hrc
    rcases Bool.eq_false_or_eq_true rc.invert with h | h
    · exact h
    · exact absurd ⟨rc, hrc, h⟩ hinv

/-! ## The requirements a file sets -/

/-- A token that requires a capability. -/
def isCapToken (w : Bytes) : Bool :=
  (str "cap_").isPrefixOf w || (str "!cap_").isPrefixOf w

theorem applyToken_disabled (v : ConfView) (w : Bytes) :
    (applyToken v w).test.disabled = true
      ↔ v.test.disabled = true ∨ w = str "disabled" := by
  rw [applyToken]
  by_cases h : w = str "disabled"
  · rw [if_pos h]
    exact ⟨fun _ => Or.inr h, fun _ => rfl⟩
  · rw [if_neg h]
    refine Iff.trans ?_ (or_iff_left h).symm
    repeat' split
    all_goals exact Iff.rfl

/-- Only a capability token adds a requirement. -/
theorem applyToken_caps (v : ConfView) (w : Bytes) :
    (applyToken v w).caps = [] ↔ v.caps = [] ∧ isCapToken w = false := by
  have hkeep : isCapToken w = false →
      (v.caps = [] ↔ v.caps = [] ∧ isCapToken w = false) := fun h =>
    ⟨fun hv => ⟨hv, h⟩, fun hv => hv.1⟩
  have hadd : ∀ {n : Bytes × Bool}, isCapToken w = true →
      (v.caps ++ [n] = [] ↔ v.caps = [] ∧ isCapToken w = false) := by
    intro n h
    rw [h]
    exact ⟨fun hv => absurd hv (by simp), fun hv => nomatch hv.2⟩
  -- a token with another parameter in front requires nothing
  have hparam : ∀ {p : Bytes}, p.isPrefixOf w = true →
      (∀ u, isCapToken (p ++ u) = false) → isCapToken w = false := by
    intro p hp hother
    obtain ⟨u, rfl⟩ := List.isPrefixOf_iff_prefix.mp hp
    exact hother u
  rw [applyToken]
  by_cases h1 : w = str "disabled"
  · rw [if_pos h1]
    exact hkeep (h1 ▸ rfl)
  rw [if_neg h1]
  by_cases h2 : w = str "ignored"
  · rw [if_pos h2]
    exact hkeep (h2 ▸ rfl)
  rw [if_neg h2]
  by_cases h3 : (str "timeout=").isPrefixOf w = true
  · rw [if_pos h3]
    exact hkeep (hparam h3 (fun _ => rfl))
  rw [if_neg h3]
  by_cases h4 : (str "expected_rc=").isPrefixOf w = true
  · rw [if_pos h4]
    exact hkeep (hparam h4 (fun _ => rfl))
  rw [if_neg h4]
  by_cases h5 : (str "signal=").isPrefixOf w = true
  · rw [if_pos h5]
    exact hkeep (hparam h5 (fun _ => rfl))
  rw [if_neg h5]
  by_cases h6 : (str "cap_").isPrefixOf w = true
  · rw [if_pos h6]
    exact hadd (by rw [isCapToken, h6, Bool.true_or])
  rw [if_neg h6]
  by_cases h7 : (str "!cap_").isPrefixOf w = true
  · rw [if_pos h7]
    exact hadd (by rw [isCapToken, h7, Bool.or_true])
  rw [if_neg h7]
  refine hkeep ?_
  rw [isCapToken, Bool.eq_false_iff.mpr h6, Bool.eq_false_iff.mpr h7, Bool.or_false]

/-- What the tokens of a file leave for `test_should_run` to read. -/
theorem applyTokens_requirements (ws : List Bytes) (v : ConfView) :
    ((ws.foldl applyToken v).test.disabled = true
      ↔ v.test.disabled = true ∨ str "disabled" ∈ ws)
    ∧ ((ws.foldl applyToken v).caps = []
      ↔ v.caps = [] ∧ ∀ w ∈ ws, isCapToken w = false) := by
  induction ws generalizing v with
  | nil =>
      constructor
      · exact (or_iff_left List.not_mem_nil).symm
      · refine (and_iff_left ?_).symm
        intro w hw
        exact nomatch hw
  | cons w ws ih =>
      obtain ⟨hdis, hcaps⟩ := ih (applyToken v w)
      rw [List.foldl_cons, hdis, hcaps, applyToken_disabled, applyToken_caps]
      constructor
      · rw [List.mem_cons, or_assoc, eq_comm (a := w)]
      · rw [List.forall_mem_cons, and_assoc]

/-- What a record denotes, pointer by pointer. -/
theorem confView_eq_some {mem : Bytes} {t : Test} {v : ConfView}
    (h : confView mem t = some v) :
    v.test = bare t ∧ List.Forall₂ (Denotes mem) t.capsRequired v.caps := by
  have hcaps : ∀ {rcs : List RequiredCap} {caps : List (Bytes × Bool)},
      rcs.mapM (fun rc => (cstr (mem.drop rc.cap)).map (fun n => (n, rc.invert)))
        = some caps → List.Forall₂ (Denotes mem) rcs caps := by
    intro rcs
    induction rcs with
    | nil =>
        intro caps h
        rw [← Option.some.inj h]
        exact List.Forall₂.nil
    | cons rc rcs ih =>
        intro caps h
        rw [List.mapM_cons] at h
        cases hn : cstr (mem.drop rc.cap) with
        | none => rw [hn] at h; exact nomatch h
        | some name =>
            rw [hn] at h
            obtain ⟨n, hname, h⟩ := Option.bind_eq_some_iff.mp h
            obtain ⟨names, hnames, hcons⟩ := Option.bind_eq_some_iff.mp h
            rw [← Option.some.inj hcons, ← Option.some.inj hname]
            exact List.Forall₂.cons ⟨hn, rfl⟩ (ih hnames)
  obtain ⟨caps, hc, rfl⟩ := Option.map_eq_some_iff.mp h
  exact ⟨rfl, hcaps hc⟩

/-- A configuration that has been read points to strings in the array. -/
theorem testReadConfig_caps {fs : Bytes → ConfFile} {frame : Frame}
    {path buf : Bytes} {type : TestType} {s : ConfState}
    (h : testReadConfig fs frame (testCreate path type) = some (buf, s)) :
    Named buf s ∧ buf.length = confBufSize := by
  have hscan : ∀ {pattern b : Bytes}, b.length = confBufSize →
      confScan pattern b 0 ⟨testCreate path type, []⟩ = some (buf, s) →
      Named buf s ∧ buf.length = confBufSize := by
    intro pattern b hb hs
    refine ⟨confScan_named hs ?_, (confScan_length hs).trans hb⟩
    intro rc hrc
    exact nomatch hrc
  have hnone : some (frame.1, (⟨testCreate path type, []⟩ : ConfState))
      = some (buf, s) → Named buf s ∧ buf.length = confBufSize := by
    intro hs
    obtain ⟨rfl, rfl⟩ := Prod.mk.inj (Option.some.inj hs)
    refine ⟨?_, frame.2⟩
    intro rc hrc
    exact nomatch hrc
  rw [testReadConfig] at h
  split at h
  · exact hnone h
  · split at h
    · exact hnone h
    · exact hscan frame.2 h
    · next b _ =>
        refine hscan ?_ h
        rw [readInto, List.length_append, List.length_drop, frame.2]
        have hle : (b.take confBufSize).length ≤ confBufSize := by
          rw [List.length_take]
          exact Nat.min_le_left _ _
        omega

/-! ## The decision after the array died -/

/-- The decision by the names read is the decision for every content of the
    dead array exactly when no name is read. -/
theorem testShouldRun_independent {cs : CapState W} (hcs : Reached K cs)
    {buf : Bytes} {s : ConfState} {v : ConfView} (hnamed : Named buf s)
    (hlen : buf.length = confBufSize) (hview : confView buf s.test = some v) :
    (∀ mem : Bytes, confBufSize ≤ mem.length →
        ∃ r, testShouldRun s.test mem cs = some r
          ∧ r.decision = (shouldRunNamed s.test v.caps cs).decision)
      ↔ (s.test.disabled = true ∨ s.test.capsRequired = []) := by
  constructor
  · intro hall
    by_contra hread
    obtain ⟨hdis, hcaps⟩ := not_or.mp hread
    obtain ⟨m₁, m₂, r₁, r₂, hm₁, hm₂, hr₁, hr₂, hne⟩ :=
      testShouldRun_differs hcs (Bool.eq_false_iff.mpr hdis) hcaps
        (fun _ hrc => hnamed.inside hlen hrc)
    obtain ⟨r₁', hr₁', hd₁⟩ := hall m₁ hm₁
    obtain ⟨r₂', hr₂', hd₂⟩ := hall m₂ hm₂
    rw [Option.some.inj (hr₁.symm.trans hr₁'),
      Option.some.inj (hr₂.symm.trans hr₂'), hd₁, hd₂] at hne
    exact hne rfl
  · obtain ⟨-, hden⟩ := confView_eq_some hview
    rintro (hdis | hcaps) mem -
    · rw [testShouldRun, shouldRunNamed, if_pos hdis, if_pos hdis]
      exact ⟨_, rfl, rfl⟩
    · rw [hcaps] at hden
      have hnil : List.Forall₂ (Denotes mem) s.test.capsRequired v.caps := by
        rw [hcaps, List.forall₂_nil_left_iff.mp hden]
        exact List.Forall₂.nil
      exact ⟨_, testShouldRun_named hcs.nul_free hnil, rfl⟩

/-- Which files name no capability, or disable the test. -/
theorem referenceView_requirements {t : Test} {file x buf : Bytes}
    {path : Bytes} {type : TestType}
    (hview : confView buf t = some (referenceView file x ⟨testCreate path type, []⟩)) :
    (t.disabled = true ∨ t.capsRequired = [])
      ↔ (str "disabled" ∈ confTokens file x
        ∨ ∀ w ∈ confTokens file x, isCapToken w = false) := by
  obtain ⟨hbare, hden⟩ := confView_eq_some hview
  obtain ⟨hdis, hcaps⟩ :=
    applyTokens_requirements (confTokens file x) ⟨testCreate path type, []⟩
  have hdisabled : t.disabled
      = (referenceView file x ⟨testCreate path type, []⟩).test.disabled := by
    rw [hbare]
    rfl
  have hnil : t.capsRequired = []
      ↔ (referenceView file x ⟨testCreate path type, []⟩).caps = [] := by
    rw [← List.length_eq_zero_iff, hden.length_eq, List.length_eq_zero_iff]
  rw [hdisabled, hnil, referenceView, hdis, hcaps]
  constructor
  · rintro ((hd | hd) | ⟨-, hc⟩)
    · cases hd
    · exact Or.inl hd
    · exact Or.inr hc
  · rintro (hd | hc)
    · exact Or.inl (Or.inr hd)
    · exact Or.inr ⟨rfl, hc⟩

/-- **A requirement does not survive**: whatever `test_read_config` has stored,
    the decision is the decision by the names it read for every content of the
    dead array exactly when no name is read at all; for a file name without a
    newline this is the case when the file disables the test or requires no
    capability. -/
theorem testShouldRun_dead_frame {cs : CapState W} (hcs : Reached K cs)
    {fs : Bytes → ConfFile} {frame : Frame} {path buf : Bytes} {type : TestType}
    {s : ConfState}
    (h : testReadConfig fs frame (testCreate path type) = some (buf, s)) :
    ∃ v, confView buf s.test = some v
      ∧ ((∀ mem : Bytes, confBufSize ≤ mem.length →
            ∃ r, testShouldRun s.test mem cs = some r
              ∧ r.decision = (shouldRunNamed s.test v.caps cs).decision)
          ↔ (s.test.disabled = true ∨ s.test.capsRequired = []))
      ∧ ∀ dir file content x r, path = dir ++ 47 :: file → (47 : UInt8) ∉ file →
          (0 : UInt8) ∉ file → (10 : UInt8) ∉ file →
          fs (dir ++ str "/tests.conf") = .contents content →
          readInto content frame = x ++ 0 :: r → (0 : UInt8) ∉ x →
          ((s.test.disabled = true ∨ s.test.capsRequired = [])
            ↔ (str "disabled" ∈ confTokens file x
              ∨ ∀ w ∈ confTokens file x, isCapToken w = false)) := by
  obtain ⟨hnamed, hlen⟩ := testReadConfig_caps h
  obtain ⟨v, hv⟩ := hnamed.view
  have hview : confView buf s.test = some v := by
    rw [← List.append_nil buf]
    exact hv []
  refine ⟨v, hview, testShouldRun_independent hcs hnamed hlen hview, ?_⟩
  intro dir file content x r hpath hslash hname0 hname hfs hbuf h0
  have heff := confEffect_text type hslash hname0 hname hfs hbuf h0
  rw [confEffect, ← hpath, h] at heff
  exact referenceView_requirements heff

/-- A machine on which every probe fails. -/
def bareKernel : Kernel Unit where
  getuid := fun w => (1000, w)
  stat := fun _ w => (false, w)
  openRead := fun _ w => (-1, w)
  readByte := fun _ w => (0, w)
  close := fun _ w => w
  system := fun _ w => w

/-- A requirement in the last line of a file. -/
def capConf : Bytes := str "01-a: cap_always"

/-- What reading the file yields. -/
theorem capConf_read :
    ∃ buf s, testReadConfig (fun _ => .contents capConf) zeroFrame
        (testCreate (str "t" ++ 47 :: str "01-a") .test) = some (buf, s)
      ∧ confView buf s.test
        = some ⟨testCreate (str "t" ++ 47 :: str "01-a") .test,
            [(str "always", false)]⟩ := by
  have heff := @confEffect_text (fun _ => .contents capConf) zeroFrame (str "t")
    (str "01-a") capConf capConf _ .test (by decide) (by decide) (by decide) rfl
    (readInto_zeroFrame (by decide)) (by decide)
  obtain ⟨⟨buf, s⟩, hread, hview⟩ := Option.bind_eq_some_iff.mp heff
  refine ⟨buf, s, hread, hview.trans ?_⟩
  decide

theorem testShouldRun_dead_frame_sample :
    ∃ buf s v, testReadConfig (fun _ => .contents capConf) zeroFrame
        (testCreate (str "t" ++ 47 :: str "01-a") .test) = some (buf, s)
      ∧ confView buf s.test = some v
      ∧ ((∀ mem : Bytes, confBufSize ≤ mem.length →
            ∃ r, testShouldRun s.test mem ⟨caps bareKernel, ()⟩ = some r
              ∧ r.decision
                = (shouldRunNamed s.test v.caps ⟨caps bareKernel, ()⟩).decision)
          ↔ (s.test.disabled = true ∨ s.test.capsRequired = [])) := by
  obtain ⟨buf, s, hread, -⟩ := capConf_read
  obtain ⟨v, hv, hiff, -⟩ :=
    testShouldRun_dead_frame (Reached.start (K := bareKernel) ()) hread
  exact ⟨buf, s, v, hread, hv, hiff⟩

/-- A test that requires `always` is skipped, for the requirement of a
    capability without a name, when the dead array has been overwritten. -/
theorem testShouldRun_overwritten :
    ∃ buf s r, testReadConfig (fun _ => .contents capConf) zeroFrame
        (testCreate (str "t" ++ 47 :: str "01-a") .test) = some (buf, s)
      ∧ confView buf s.test
        = some ⟨testCreate (str "t" ++ 47 :: str "01-a") .test,
            [(str "always", false)]⟩
      ∧ (shouldRunNamed s.test [(str "always", false)]
          ⟨caps bareKernel, ()⟩).decision = (true, .notrun, [])
      ∧ testShouldRun s.test (List.replicate confBufSize 0) ⟨caps bareKernel, ()⟩
          = some r
      ∧ r.decision = (false, .skipped, str "SKIPPED (requires )\n") := by
  obtain ⟨buf, s, hread, hview⟩ := capConf_read
  obtain ⟨hnamed, hlen⟩ := testReadConfig_caps hread
  obtain ⟨hbare, hden⟩ := confView_eq_some hview
  have hdis : s.test.disabled = false := (congrArg Test.disabled hbare).symm
  have hres : s.test.result = .notrun := (congrArg Test.result hbare).symm
  have hzero := requireCaps_named (t := s.test) (Reached.start (K := bareKernel) ()).nul_free
    (denotes_zero (fun rc hrc => hnamed.inside hlen hrc))
  cases hrcs : s.test.capsRequired with
  | nil => rw [hrcs] at hden; exact nomatch hden
  | cons rc rcs =>
      rw [hrcs, List.forall₂_cons] at hden
      obtain ⟨⟨-, hinv⟩, hrest⟩ := hden
      have hnil : rcs = [] := List.forall₂_nil_right_iff.mp hrest
      rw [hrcs, hnil, List.map_singleton, hinv] at hzero
      have hnow : testShouldRun s.test (List.replicate confBufSize 0)
          ⟨caps bareKernel, ()⟩ = some (requireNames s.test [([], false)]
            ⟨caps bareKernel, ()⟩) := by
        rw [testShouldRun, hdis, hrcs, hnil]
        exact hzero
      refine ⟨buf, s, _, hread, hview, ?_, hnow, rfl⟩
      rw [shouldRunNamed, hdis, ← hres]
      rfl

end SpufsShouldRun
