import Mathlib

/-! # Memo — questions that are put once

    A probe answers a question and changes the world; its answer to one
    question may differ from call to call.  A memo puts a question at most
    once and keeps the answer: `ask` looks the question up, and calls the probe
    only when there is no answer yet.

    The log of the calls is part of the memo, with what is true of it: no
    question twice, and none but the given ones.  It only ever grows
    (`ask_prefix`), so that an answer found in a later log is the answer of
    every use before (`Memo.lookup_later`). -/

namespace Memoized

/-- The calls of the probe so far, with their answers. -/
structure Memo (κ ν : Type) (keys : List κ) where
  log   : List (κ × ν)
  nodup : (log.map Prod.fst).Nodup
  known : ∀ k ∈ log.map Prod.fst, k ∈ keys

variable {κ ν ω : Type} [BEq κ] [LawfulBEq κ] {keys : List κ}

/-- No call yet. -/
def Memo.empty : Memo κ ν keys := ⟨[], List.nodup_nil, fun _ h => nomatch h⟩

/-- A question is in the log exactly if it has an answer there. -/
theorem mem_iff_lookup {log : List (κ × ν)} {k : κ} :
    k ∈ log.map Prod.fst ↔ (log.lookup k).isSome = true := by
  rw [List.lookup_isSome_iff, List.mem_map]
  constructor
  · rintro ⟨e, he, rfl⟩
    exact ⟨e, he, beq_self_eq_true e.1⟩
  · rintro ⟨e, he, hk⟩
    exact ⟨e, he, (beq_iff_eq.mp hk).symm⟩

theorem not_mem_of_lookup {log : List (κ × ν)} {k : κ} (h : log.lookup k = none) :
    k ∉ log.map Prod.fst := by
  rw [mem_iff_lookup, h]
  exact Bool.false_ne_true

/-- The memo after a call; a question that has an answer, or is none of the
    given ones, is not recorded. -/
def Memo.record (m : Memo κ ν keys) (k : κ) (v : ν) : Memo κ ν keys :=
  if h : k ∈ keys ∧ m.log.lookup k = none then
    { log := m.log ++ [(k, v)]
      nodup := by
        rw [List.map_append, List.nodup_append']
        refine ⟨m.nodup, List.nodup_singleton k, ?_⟩
        rw [List.disjoint_comm]
        exact List.singleton_disjoint.mpr (not_mem_of_lookup h.2)
      known := by
        intro k' hk'
        rw [List.map_append, List.mem_append] at hk'
        rcases hk' with hk' | hk'
        · exact m.known k' hk'
        · rw [List.mem_singleton.mp hk']
          exact h.1 }
  else m

theorem Memo.record_log {m : Memo κ ν keys} {k : κ} {v : ν} (hk : k ∈ keys)
    (h : m.log.lookup k = none) : (m.record k v).log = m.log ++ [(k, v)] := by
  rw [Memo.record, dif_pos ⟨hk, h⟩]

/-- The remembered answer, or the answer of the probe. -/
def ask (probe : κ → ω → ν × ω) (k : κ) (m : Memo κ ν keys) (w : ω) :
    ν × Memo κ ν keys × ω :=
  match m.log.lookup k with
  | some v => (v, m, w)
  | none => ((probe k w).1, m.record k (probe k w).1, (probe k w).2)

section Ask

variable {probe : κ → ω → ν × ω} {k : κ} {m : Memo κ ν keys} {w : ω}

theorem ask_known {v : ν} (h : m.log.lookup k = some v) :
    ask probe k m w = (v, m, w) := by
  rw [ask, h]

theorem ask_new (h : m.log.lookup k = none) :
    ask probe k m w = ((probe k w).1, m.record k (probe k w).1, (probe k w).2) := by
  rw [ask, h]

/-- The log grows. -/
theorem ask_prefix : m.log <+: (ask probe k m w).2.1.log := by
  cases h : m.log.lookup k with
  | some v => exact ⟨[], by rw [ask_known h, List.append_nil]⟩
  | none =>
      rw [ask_new h, Memo.record]
      split
      · exact List.prefix_append _ _
      · exact List.prefix_rfl

/-- The answer is remembered. -/
theorem ask_lookup (hk : k ∈ keys) :
    (ask probe k m w).2.1.log.lookup k = some (ask probe k m w).1 := by
  cases h : m.log.lookup k with
  | some v => rw [ask_known h, h]
  | none =>
      rw [ask_new h, Memo.record_log hk h, List.lookup_append, h]
      simp

/-- The other answers stay. -/
theorem ask_lookup_ne {k' : κ} (hne : k' ≠ k) :
    (ask probe k m w).2.1.log.lookup k' = m.log.lookup k' := by
  cases h : m.log.lookup k with
  | some v => rw [ask_known h]
  | none =>
      rw [ask_new h]
      by_cases hk : k ∈ keys
      · have hno : [(k, (probe k w).1)].lookup k' = none := by
          rw [List.lookup_cons, beq_false_of_ne hne]
          rfl
        show (m.record k (probe k w).1).log.lookup k' = _
        rw [Memo.record_log hk h, List.lookup_append, hno, Option.or_none]
      · rw [Memo.record, dif_neg (fun hx => hk hx.1)]

end Ask

/-- A question that is none of the given ones has no answer. -/
theorem Memo.lookup_unknown (m : Memo κ ν keys) {k : κ} (hk : k ∉ keys) :
    m.log.lookup k = none := by
  cases h : m.log.lookup k with
  | none => rfl
  | some v => exact absurd (m.known k (mem_iff_lookup.mpr (by rw [h]; rfl))) hk

/-- What is to be said of `k` has been said: it has been asked, or it is none
    of the given questions. -/
def Memo.Settled (m : Memo κ ν keys) (k : κ) : Prop :=
  k ∈ keys → (m.log.lookup k).isSome = true

/-- **A settled question stays settled**, with the answer it has. -/
theorem Memo.lookup_later {m m' : Memo κ ν keys} {k : κ} (h : m.Settled k)
    (hpre : m.log <+: m'.log) : m'.log.lookup k = m.log.lookup k := by
  by_cases hk : k ∈ keys
  · obtain ⟨v, hv⟩ := Option.isSome_iff_exists.mp (h hk)
    rw [hv, hpre.lookup_eq_some hv]
  · rw [m.lookup_unknown hk, m'.lookup_unknown hk]

theorem Memo.Settled.later {m m' : Memo κ ν keys} {k : κ} (h : m.Settled k)
    (hpre : m.log <+: m'.log) : m'.Settled k := by
  intro hk
  rw [Memo.lookup_later h hpre]
  exact h hk

theorem ask_settled {probe : κ → ω → ν × ω} (k : κ) (m : Memo κ ν keys) (w : ω) :
    (ask probe k m w).2.1.Settled k := by
  intro hk
  rw [ask_lookup hk]
  rfl

end Memoized
