import SpufsTestsuite.SchedSystemProofs

/-! # sched_multiple — on which data files the test completes

    A context that the pattern names is sent its identity first, and the stop
    message ends its program (`stopped_full`).  A context that the pattern does
    not name is sent the stop message alone: it takes it for its identity and
    waits for ever, and so does `main`, in the join.

    So the test completes exactly on the files whose pattern names every
    context (`completes_iff`), whatever the order of the steps. -/

namespace SpufsSchedMultiple

open Spu SpufsSchedSpe SpufsSchedSystem
open Relation (ReflTransGen)
open Transition (Ends Final Ranked)

variable {n : Nat} {cap : Nat} {pattern : List Byte} {s s' : Sys n} {r : Nat}

/-- All the words for a context. -/
def full (pattern : List Byte) (i : Nat) : List Word := words pattern i ++ [stopMsg]

/-- The test completes: from the start on, the indices are in range, no program
    stops with 0, every run ends, and it ends with success and every program
    stopped behind its words. -/
structure Correct (cap : Nat) (pattern : List Byte) (start : Sys n) : Prop where
  inRange : ∀ s, ReflTransGen (Step cap pattern) start s → s.main ≠ .outOfRange
  noStop0 : ∀ s, ReflTransGen (Step cap pattern) start s → ∀ i,
    (s.thread i).run ≠ .returned 0 ∧ (s.thread i).run ≠ .exited 0
  ends    : Ends (Step cap pattern) start
  final   : ∀ s, ReflTransGen (Step cap pattern) start s → Final (Step cap pattern) s →
    s.main = .exit 0
      ∧ ∀ i, (s.thread i).run = .exited 0x1337 ∧ (s.thread i).taken = full pattern i

/-- Every context is named by the pattern, and there is none to name without a
    context. -/
def NamesAll (n : Nat) (pattern : List Byte) : Prop :=
  (n = 0 → pattern = []) ∧ ∀ i < n, ∃ p ∈ pattern, p.toNat = i

/-! ## What a context reads -/

/-- A context's words are its index, over and over. -/
theorem words_eq (pattern : List Byte) (i : Nat) :
    words pattern i = List.replicate (words pattern i).length (BitVec.ofNat 32 i) := by
  refine List.eq_replicate_of_mem ?_
  intro w hw
  obtain ⟨p, hp, rfl⟩ := List.mem_map.mp hw
  have hpi : p.toNat = i := of_decide_eq_true (List.mem_filter.mp hp).2
  apply BitVec.eq_of_toNat_eq
  rw [BitVec.toNat_setWidth, BitVec.toNat_ofNat, hpi]

theorem words_pos {i : Nat} (h : ∃ p ∈ pattern, p.toNat = i) :
    0 < (words pattern i).length := by
  obtain ⟨p, hp, hpi⟩ := h
  exact List.length_pos_of_mem
    (List.mem_map_of_mem (List.mem_filter.mpr ⟨hp, decide_eq_true hpi⟩))

theorem ofNat_ne_stop {i : Nat} (h : i < 256) : BitVec.ofNat 32 i ≠ stopMsg := by
  intro he
  have := congrArg BitVec.toNat he
  rw [BitVec.toNat_ofNat, Nat.mod_eq_of_lt (by omega)] at this
  exact absurd this (by rw [show stopMsg.toNat = 4294967295 from rfl]; omega)

/-- **A program stops only behind all the words**, and with the code `0x1337`. -/
theorem stopped_full {i : Nat} (hi : i < 256) (hnamed : ∃ p ∈ pattern, p.toNat = i)
    {taken : List Word} (hpre : taken <+: full pattern i) {code : BitVec 14}
    (h : phaseOf taken = .stopped code) : taken = full pattern i ∧ code = 0x1337 := by
  have hid := ofNat_ne_stop hi
  obtain ⟨m, hm⟩ : ∃ m, (words pattern i).length = m + 1 :=
    ⟨_, (Nat.succ_pred_eq_of_pos (words_pos hnamed)).symm⟩
  rcases List.prefix_concat_iff.mp hpre with rfl | hpre
  · refine ⟨rfl, ?_⟩
    rw [words_eq, hm, phaseOf_complete _ hid] at h
    cases h
    rfl
  · rw [words_eq, List.prefix_replicate_iff] at hpre
    rw [hpre.2] at h
    cases hlen : taken.length with
    | zero =>
        rw [hlen] at h
        exact nomatch h
    | succ k =>
        rw [hlen, phaseOf_replicate _ hid] at h
        exact nomatch h

/-- The program of a context that has read all its words has stopped. -/
theorem full_stopped {i : Nat} (hi : i < 256) (hnamed : ∃ p ∈ pattern, p.toNat = i) :
    phaseOf (full pattern i) = .stopped 0x1337 := by
  obtain ⟨m, hm⟩ : ∃ m, (words pattern i).length = m + 1 :=
    ⟨_, (Nat.succ_pred_eq_of_pos (words_pos hnamed)).symm⟩
  rw [full, words_eq, hm, phaseOf_complete _ (ofNat_ne_stop hi)]

/-! ## A pattern that names every context -/

/-- Nothing has gone wrong so far. -/
structure Good (s : Sys n) : Prop where
  inRange : s.main ≠ .outOfRange
  noAbort : s.abort = false
  exit    : ∀ rc, s.main = .exit rc → rc = 0

/-- What has been sent is the front of all the words. -/
theorem sent_front (h : Invariant pattern s r) (hg : Good s) (i : Fin n) :
    (s.thread i).sent <+: full pattern i := by
  have hsent := h.sent i
  have htake : ∀ j, words (pattern.take j) i <+: full pattern i := by
    intro j
    exact (((List.take_prefix j pattern).filter _).map _).trans (List.prefix_append ..)
  have hif : ∀ b : Prop, ∀ [Decidable b],
      words pattern i ++ (if b then [stopMsg] else []) <+: full pattern i := by
    intro b _
    by_cases hb : b
    · rw [if_pos hb]
      exact List.prefix_refl _
    · rw [if_neg hb, List.append_nil]
      exact List.prefix_append ..
  cases hm : s.main with
  | write j =>
      rw [hm] at hsent
      rw [show (s.thread i).sent = _ from hsent]
      exact htake j
  | abortCheck j =>
      rw [hm] at hsent
      rw [show (s.thread i).sent = _ from hsent]
      exact htake (j + 1)
  | complete j =>
      rw [hm] at hsent
      rw [show (s.thread i).sent = _ from hsent]
      exact hif _
  | join k =>
      rw [hm] at hsent
      rw [show (s.thread i).sent = _ from hsent]
      exact hif _
  | exit rc =>
      rw [hm] at hsent
      rw [hsent (hg.exit rc hm)]
      exact List.prefix_refl _
  | outOfRange => exact absurd hm hg.inRange

theorem taken_front (h : Invariant pattern s r) (hg : Good s) (i : Fin n) :
    (s.thread i).taken <+: full pattern i :=
  (List.prefix_append ..).trans (sent_front h hg i)

/-- There are at most 256 contexts, the pattern names nothing else, and all of
    them. -/
structure Named (n : Nat) (pattern : List Byte) : Prop where
  small   : n ≤ 256
  inRange : ∀ p ∈ pattern, p.toNat < n
  named   : ∀ i < n, ∃ p ∈ pattern, p.toNat = i

/-- A thread whose `spu_run` has returned has read everything, with the right
    stop code. -/
theorem returned_full (hN : Named n pattern) (h : Invariant pattern s r) (hg : Good s)
    {i : Fin n} {code : BitVec 14} (hr : (s.thread i).run = .returned code
      ∨ (s.thread i).run = .exited code) :
    (s.thread i).taken = full pattern i ∧ code = 0x1337 := by
  obtain ⟨rank, hat, -⟩ := h.threads
  exact stopped_full (Nat.lt_of_lt_of_le i.isLt hN.small) (hN.named i i.isLt)
    (taken_front h hg i) ((hat i).stopped hr)

/-- Nothing goes wrong in a step. -/
theorem good_step (hN : Named n pattern) (h : Invariant pattern s r) (hg : Good s)
    (hstep : Step cap pattern s s') : Good s' := by
  have hsend : ∀ {i w m}, s.send cap i w m = some s' → m ≠ .outOfRange →
      (∀ rc, m ≠ .exit rc) → Good s' := by
    intro i w m hs hm he
    rw [Sys.send] at hs
    split_ifs at hs
    cases hs
    exact ⟨hm, hg.noAbort, fun rc hrc => absurd hrc (he rc)⟩
  cases hstep with
  | thread i hs =>
      obtain ⟨⟨t, raised⟩, ht, rfl⟩ := Option.map_eq_some_iff.mp hs
      refine ⟨hg.inRange, ?_, hg.exit⟩
      obtain ⟨rank, hat, -⟩ := h.threads
      obtain ⟨-, -, -, -, -, hraised⟩ := (hat i).step ht
      cases raised with
      | false => rw [hg.noAbort]; rfl
      | true =>
          obtain ⟨code, hphase, hcode⟩ := hraised rfl
          obtain ⟨-, rfl⟩ := stopped_full (Nat.lt_of_lt_of_le i.isLt hN.small)
            (hN.named i i.isLt) (taken_front h hg i) hphase
          exact absurd rfl hcode
  | main hs =>
      cases mainStep_cases hs with
      | written _ _ _ hsent => exact hsend hsent (fun h => by cases h) (fun _ h => by cases h)
      | @outOfRange _ p _ hp hn => exact absurd (hN.inRange p (List.mem_of_getElem? hp)) hn
      | patternEnd _ _ heq =>
          subst heq
          exact ⟨(fun h => by cases h), hg.noAbort, (fun _ h => by cases h)⟩
      | aborted _ ha => exact absurd (ha.symm.trans hg.noAbort) (fun h => by cases h)
      | goesOn _ _ heq =>
          subst heq
          exact ⟨(fun h => by cases h), hg.noAbort, (fun _ h => by cases h)⟩
      | stopSent _ _ hsent => exact hsend hsent (fun h => by cases h) (fun _ h => by cases h)
      | finished _ _ heq =>
          subst heq
          refine ⟨(fun h => by cases h), hg.noAbort, ?_⟩
          rintro rc ⟨⟩
          rfl
      | joinedWrong _ hr hcode => exact absurd (returned_full hN h hg (.inr hr)).2 hcode
      | joined _ _ heq =>
          subst heq
          exact ⟨(fun h => by cases h), hg.noAbort, (fun _ h => by cases h)⟩

theorem good_ranked (hN : Named n pattern) :
    Ranked (@Step n cap pattern) (fun s r => Invariant pattern s r ∧ Good s) := by
  intro s s' r h hstep
  obtain ⟨r', hlt, hinv⟩ := step_ranked s s' r h.1 hstep
  exact ⟨r', hlt, hinv, good_step hN h.1 h.2 hstep⟩

/-- A thread without a step has read all that was sent to it: it can be joined,
    or its program waits. -/
theorem stuck_thread (hN : Named n pattern) (h : Invariant pattern s r) (hg : Good s)
    {i : Fin n} (hs : (s.thread i).step = none) :
    (s.thread i).mbox = [] ∧ ((s.thread i).run = .exited 0x1337
      ∨ ∀ code, phaseOf (s.thread i).taken ≠ .stopped code) := by
  obtain ⟨rank, hat, -⟩ := h.threads
  rcases (hat i).stuck hs with ⟨code, hr⟩ | ⟨hm, hp⟩
  · obtain ⟨htaken, rfl⟩ := returned_full hN h hg (.inr hr)
    have hlen := (sent_front h hg i).length_le
    rw [Thread.sent, htaken, List.length_append] at hlen
    exact ⟨List.length_eq_zero_iff.mp (by omega), .inl hr⟩
  · exact ⟨hm, .inr hp⟩

/-- **The final state**: `main` has returned success, and every program has
    stopped behind its words. -/
theorem final_good (hcap : 0 < cap) (hN : Named n pattern) (h : Invariant pattern s r)
    (hg : Good s) (hfin : Final (Step cap pattern) s) :
    s.main = .exit 0
      ∧ ∀ i, (s.thread i).run = .exited 0x1337 ∧ (s.thread i).taken = full pattern i := by
  have hthread : ∀ i, (s.thread i).step = none := by
    intro i
    cases ht : (s.thread i).step with
    | none => rfl
    | some p => exact absurd (.thread i (by rw [Sys.threadStep, ht]; rfl)) (hfin _)
  have hstuck : s.mainStep cap pattern = none := by
    cases hm : s.mainStep cap pattern with
    | none => rfl
    | some s' => exact absurd (.main hm) (hfin s')
  have hroom : ∀ i w m, s.send cap i w m ≠ none := by
    intro i w m
    rw [Sys.send, (stuck_thread hN h hg (hthread i)).1, if_pos (by exact hcap)]
    exact fun h => by cases h
  rw [Sys.mainStep] at hstuck
  cases hm : s.main with
  | write j =>
      rw [hm] at hstuck
      cases hp : pattern[j]? with
      | none =>
          simp only [hp] at hstuck
          cases hstuck
      | some p =>
          simp only [hp, hN.inRange p (List.mem_of_getElem? hp)] at hstuck
          exact absurd hstuck (hroom _ _ _)
  | abortCheck j =>
      rw [hm] at hstuck
      cases hstuck
  | complete j =>
      rw [hm] at hstuck
      simp only at hstuck
      split_ifs at hstuck
      exact absurd hstuck (hroom _ _ _)
  | join i =>
      -- all has been sent to this context, so that its program cannot be waiting
      rw [hm] at hstuck
      obtain ⟨hmbox, hr | hp⟩ := stuck_thread hN h hg (hthread i)
      · simp only [hr] at hstuck
        cases hstuck
      · have hsent := h.sent i
        rw [hm, SentAt, if_pos (le_refl _), Thread.sent, hmbox, List.append_nil] at hsent
        have hstop := full_stopped (Nat.lt_of_lt_of_le i.isLt hN.small) (hN.named i i.isLt)
        rw [full, ← hsent] at hstop
        exact absurd hstop (hp _)
  | exit rc =>
      have hrc := hg.exit rc hm
      subst hrc
      refine ⟨rfl, ?_⟩
      intro i
      have hr := h.joined i (by rw [hm]; rfl)
      exact ⟨hr, (returned_full hN h hg (.inr hr)).1⟩
  | outOfRange => exact absurd hm hg.inRange

theorem start_good (ctx : Fin n → State Unit) : Good (Sys.start ctx) :=
  ⟨(fun h => nomatch h), rfl, (fun _ h => nomatch h)⟩

/-- The test completes on a pattern that names every context. -/
theorem correct_of_named (hcap : 0 < cap) (hN : Named n pattern) (ctx : Fin n → State Unit) :
    Correct cap pattern (Sys.start ctx) := by
  obtain ⟨r, hstart⟩ := start_invariant pattern ctx
  have hranked : Ranked (@Step n cap pattern) _ := good_ranked hN
  have hall : ∀ s, ReflTransGen (Step cap pattern) (Sys.start ctx) s →
      ∃ r, Invariant pattern s r ∧ Good s :=
    fun s hs => hranked.reached ⟨hstart, start_good ctx⟩ hs
  refine ⟨?_, ?_, hranked.ends ⟨hstart, start_good ctx⟩, ?_⟩
  · intro s hs
    obtain ⟨r, -, hg⟩ := hall s hs
    exact hg.inRange
  · intro s hs i
    obtain ⟨r, h, hg⟩ := hall s hs
    constructor
    · intro hr
      exact nomatch (returned_full hN h hg (.inl hr)).2
    · intro hr
      exact nomatch (returned_full hN h hg (.inr hr)).2
  · intro s hs hfin
    obtain ⟨r, h, hg⟩ := hall s hs
    exact final_good hcap hN h hg hfin

/-! ## A pattern that leaves a context out -/

/-- A program that was sent the stop message alone never stops. -/
theorem unnamed_waits {ctx : Fin n → State Unit} {i : Fin n}
    (hi : ¬ ∃ p ∈ pattern, p.toNat = i) : ¬ Correct cap pattern (Sys.start ctx) := by
  intro hc
  obtain ⟨r, hstart⟩ := start_invariant pattern ctx
  have hranked : Ranked (@Step n cap pattern) (Invariant pattern) := step_ranked
  obtain ⟨s, hs, hfin⟩ := hranked.final hstart
  obtain ⟨r', hinv⟩ := hranked.reached hstart hs
  obtain ⟨-, hall⟩ := hc.final s hs hfin
  obtain ⟨hr, htaken⟩ := hall i
  have hnil : words pattern i = [] := by
    rw [words, List.filter_eq_nil_iff.mpr]
    · rfl
    · intro p hp hpi
      exact hi ⟨p, hp, of_decide_eq_true hpi⟩
  obtain ⟨rank, hat, -⟩ := hinv.threads
  have hphase := (hat i).stopped (.inr hr)
  rw [htaken, full, hnil, List.nil_append, phaseOf_stop_only] at hphase
  cases hphase

/-- Without a context, the first message is out of range. -/
theorem no_context {pattern : List Byte} {ctx : Fin 0 → State Unit} (hne : pattern ≠ []) :
    ¬ Correct cap pattern (Sys.start ctx) := by
  intro hc
  cases pattern with
  | nil => exact hne rfl
  | cons p ps => exact hc.inRange _ (.single (.main rfl)) rfl

/-- **The test completes exactly if the pattern names every context.** -/
theorem correct_iff (hcap : 0 < cap) (hn : n ≤ 256)
    (hin : 0 < n → ∀ p ∈ pattern, p.toNat < n) :
    (∀ ctx : Fin n → State Unit, Correct cap pattern (Sys.start ctx)) ↔ NamesAll n pattern := by
  constructor
  · intro h
    constructor
    · rintro rfl
      by_contra hne
      exact no_context hne (h (fun i => i.elim0))
    · intro i hi
      by_contra hno
      exact @unnamed_waits n cap pattern (fun _ => ⟨0, fun _ => .splat 0, fun _ => 0, ()⟩)
        ⟨i, hi⟩ hno (h _)
  · rintro ⟨hempty, hnamed⟩ ctx
    refine correct_of_named hcap ⟨hn, ?_, hnamed⟩ ctx
    intro p hp
    refine hin ?_ p hp
    by_contra h0
    rw [hempty (by omega)] at hp
    exact nomatch hp

/-! ## Data files -/

/-- The test completes on the data file, whatever the contexts were before. -/
def Completes (cap : Nat) (file : List Byte) : Prop :=
  ∃ n pattern, readDataset file = some (n, pattern)
    ∧ ∀ ctx : Fin n → State Unit, Correct cap pattern (Sys.start ctx)

/-- A message of a generated file names a context, if there is one. -/
theorem message_lt {nSpes : Int} {r : ℚ} {head p : Byte} (hr : 0 ≤ r ∧ r < 1)
    (hhead : packB nSpes = some head) (hp : packB ⌊r * (nSpes : ℚ)⌋ = some p)
    (hpos : 0 < head.toNat) : p.toNat < head.toNat := by
  obtain ⟨-, hn⟩ := packB_eq_some hhead
  obtain ⟨-, hfloor⟩ := packB_eq_some hp
  have hspes : (0 : ℚ) < nSpes := by exact_mod_cast (by omega : 0 < nSpes)
  have hlt : ⌊r * (nSpes : ℚ)⌋ < nSpes := by
    rw [Int.floor_lt]
    calc r * (nSpes : ℚ) < 1 * nSpes := mul_lt_mul_of_pos_right hr.2 hspes
      _ = nSpes := one_mul _
  omega

/-- What `main` reads of a generated file. -/
theorem readDataset_generated {nSpes : Int} {randoms : List ℚ} {file : List Byte}
    (hrandoms : ∀ r ∈ randoms, 0 ≤ r ∧ r < 1)
    (hgen : genDatafile nSpes randoms = some file) {n : Nat} {pattern : List Byte}
    (hread : readDataset file = some (n, pattern)) :
    n ≤ 256 ∧ (0 < n → ∀ p ∈ pattern, p.toNat < n) := by
  obtain ⟨head, ps, rfl, hhead, hps⟩ := genDatafile_eq_some hgen
  simp only [readDataset] at hread
  split_ifs at hread
  cases hread
  refine ⟨Nat.le_of_lt head.isLt, ?_⟩
  intro hpos p hp
  obtain ⟨r, hr, hpack⟩ := hps p (List.mem_of_mem_take hp)
  exact message_lt (hrandoms r hr) hhead hpack hpos

/-- **The test completes on a generated file** exactly if `main` can read it and
    its pattern names every context. -/
theorem completes_iff {cap : Nat} (hcap : 0 < cap) {nSpes : Int} {randoms : List ℚ}
    {file : List Byte} (hrandoms : ∀ r ∈ randoms, 0 ≤ r ∧ r < 1)
    (hgen : genDatafile nSpes randoms = some file) :
    Completes cap file
      ↔ ∃ n pattern, readDataset file = some (n, pattern) ∧ NamesAll n pattern := by
  have hiff : ∀ {n pattern}, readDataset file = some (n, pattern) →
      ((∀ ctx : Fin n → State Unit, Correct cap pattern (Sys.start ctx))
        ↔ NamesAll n pattern) := by
    intro n pattern hread
    obtain ⟨hn, hin⟩ := readDataset_generated hrandoms hgen hread
    exact correct_iff hcap hn hin
  constructor
  · rintro ⟨n, pattern, hread, hc⟩
    exact ⟨n, pattern, hread, (hiff hread).mp hc⟩
  · rintro ⟨n, pattern, hread, hnames⟩
    exact ⟨n, pattern, hread, (hiff hread).mpr hnames⟩

/-- Two contexts and a message for each. -/
theorem completes_sample :
    genDatafile 2 [1 / 2, 0] = some [2, 1, 0] ∧ Completes 4 [2, 1, 0] := by
  have hgen : genDatafile 2 [1 / 2, 0] = some [2, 1, 0] := by decide +kernel
  refine ⟨hgen, (completes_iff (by decide) ?_ hgen).mpr ⟨2, [1, 0], by decide, ?_⟩⟩
  · decide +kernel
  · exact ⟨(fun h => nomatch h), by decide⟩

/-- One context and no message: the stop message is all that it is sent. -/
theorem completes_not_empty : genDatafile 1 [] = some [1] ∧ ¬ Completes 4 [1] := by
  refine ⟨rfl, ?_⟩
  rintro ⟨n, pattern, hread, hc⟩
  have hread' : readDataset [1] = some (1, []) := by decide
  rw [hread'] at hread
  cases hread
  exact @unnamed_waits 1 4 [] (fun _ => ⟨0, fun _ => .splat 0, fun _ => 0, ()⟩) 0
    (fun h => nomatch h) (hc _)

end SpufsSchedMultiple
