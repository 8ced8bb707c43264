import SpufsTestsuite.CStringProofs

/-! # `strftime` — times printed in fields of fixed width

    A format is a list of pieces, characters and fields.  A field prints a
    number with a fixed count of digits, so that where a field stands in the
    result does not depend on the time, and the result determines the fields
    that are printed and no others (`expand_eq_iff`).

    That is said for any kind of field first.  The conversions of C's
    `strftime` are fields of a `struct tm` whose year has four digits. -/

namespace Strftime

open CString

/-- The last `k` decimal digits of a number. -/
def digits : (k n : Nat) → Bytes
  | 0, _ => []
  | k + 1, n => digits k (n / 10) ++ [UInt8.ofNat (48 + n % 10)]

@[simp] theorem length_digits (k n : Nat) : (digits k n).length = k := by
  induction k generalizing n with
  | zero => rfl
  | succ k ih => rw [digits, List.length_append, ih, List.length_singleton]

theorem digit_inj {m n : Nat} (h : UInt8.ofNat (48 + m % 10) = UInt8.ofNat (48 + n % 10)) :
    m % 10 = n % 10 := by
  have hval := congrArg UInt8.toNat h
  rw [UInt8.toNat_ofNat', UInt8.toNat_ofNat'] at hval
  omega

/-- A number that has no more digits is determined by them. -/
theorem digits_inj {k m n : Nat} (hm : m < 10 ^ k) (hn : n < 10 ^ k)
    (h : digits k m = digits k n) : m = n := by
  induction k generalizing m n with
  | zero =>
      rw [Nat.pow_zero] at hm hn
      omega
  | succ k ih =>
      rw [Nat.pow_succ'] at hm hn
      obtain ⟨hfront, hlast⟩ := List.append_inj' h rfl
      have hdiv : m / 10 = n / 10 :=
        ih (Nat.div_lt_of_lt_mul hm) (Nat.div_lt_of_lt_mul hn) hfront
      have hmod : m % 10 = n % 10 := digit_inj (List.singleton_inj.mp hlast)
      rw [← Nat.div_add_mod m 10, hdiv, hmod, Nat.div_add_mod]

/-! ## Formats -/

/-- A piece of a format with the fields `φ`. -/
inductive Piece (φ : Type) where
  | lit (c : UInt8)
  | field (f : φ)
  deriving DecidableEq, Repr

section Expand

variable {φ τ : Type} (width : φ → Nat) (value : φ → τ → Nat)

def Piece.print : Piece φ → τ → Bytes
  | .lit c, _ => [c]
  | .field f, t => digits (width f) (value f t)

def Piece.size : Piece φ → Nat
  | .lit _ => 1
  | .field f => width f

/-- What the format prints. -/
def expand (ps : List (Piece φ)) (t : τ) : Bytes := ps.flatMap (·.print width value t)

theorem Piece.length_print (p : Piece φ) (t : τ) :
    (p.print width value t).length = p.size width := by
  cases p with
  | lit c => rfl
  | field f => exact length_digits (width f) (value f t)

/-- The length of what is printed is that of the format. -/
theorem length_expand (ps : List (Piece φ)) (t : τ) :
    (expand width value ps t).length = (ps.map (·.size width)).sum := by
  rw [expand, List.length_flatMap]
  exact congrArg List.sum (List.map_congr_left fun p _ => p.length_print width value t)

variable {width value}

theorem Piece.print_eq_iff {a b : τ} (ha : ∀ f, value f a < 10 ^ width f)
    (hb : ∀ f, value f b < 10 ^ width f) (p : Piece φ) :
    p.print width value a = p.print width value b ↔ ∀ f, p = .field f → value f a = value f b := by
  cases p with
  | lit c => exact ⟨fun _ _ h => (nomatch h), fun _ => rfl⟩
  | field f =>
      constructor
      · rintro h _ ⟨⟩
        exact digits_inj (ha f) (hb f) h
      · intro h
        rw [Piece.print, Piece.print, h f rfl]

/-- **What is printed is the same exactly where the printed fields are.** -/
theorem expand_eq_iff {a b : τ} (ha : ∀ f, value f a < 10 ^ width f)
    (hb : ∀ f, value f b < 10 ^ width f) (ps : List (Piece φ)) :
    expand width value ps a = expand width value ps b
      ↔ ∀ f, Piece.field f ∈ ps → value f a = value f b := by
  induction ps with
  | nil => exact ⟨fun _ f h => (nomatch h), fun _ => rfl⟩
  | cons p ps ih =>
      have hlen : (p.print width value a).length = (p.print width value b).length := by
        rw [p.length_print, p.length_print]
      rw [expand, expand, List.flatMap_cons, List.flatMap_cons]
      constructor
      · intro h f hf
        obtain ⟨hp, hps⟩ := List.append_inj h hlen
        rcases List.mem_cons.mp hf with rfl | hf
        · exact (Piece.print_eq_iff ha hb _).mp hp f rfl
        · exact ih.mp hps f hf
      · intro h
        have hp : p.print width value a = p.print width value b := by
          refine (Piece.print_eq_iff ha hb p).mpr ?_
          rintro f rfl
          exact h f List.mem_cons_self
        have hps : expand width value ps a = expand width value ps b :=
          ih.mpr fun f hf => h f (List.mem_cons_of_mem _ hf)
        rw [hp]
        exact congrArg _ hps

end Expand

/-! ## `struct tm` -/

/-- A `struct tm` as `localtime` fills it in, of a year with four digits.  The
    year counts from 1900 and the month from 0; a minute may have a leap second. -/
@[ext] structure Tm where
  year : Int
  mon  : Nat
  mday : Nat
  hour : Nat
  min  : Nat
  sec  : Nat
  inYears   : 1000 ≤ year + 1900 ∧ year + 1900 ≤ 9999
  inMonths  : mon ≤ 11
  inDays    : 1 ≤ mday ∧ mday ≤ 31
  inHours   : hour ≤ 23
  inMinutes : min ≤ 59
  inSeconds : sec ≤ 60
  deriving DecidableEq, Repr

/-- The fields that a format can print. -/
inductive Field where
  | year
  | mon
  | mday
  | hour
  | min
  | sec
  deriving DecidableEq, Repr

def Field.width : Field → Nat
  | .year => 4
  | _ => 2

def Field.value : Field → Tm → Nat
  | .year, tm => (tm.year + 1900).toNat
  | .mon, tm => tm.mon + 1
  | .mday, tm => tm.mday
  | .hour, tm => tm.hour
  | .min, tm => tm.min
  | .sec, tm => tm.sec

theorem Field.value_lt (tm : Tm) (f : Field) : f.value tm < 10 ^ f.width := by
  have hyear := tm.inYears
  have hmon := tm.inMonths
  have hmday := tm.inDays
  have hhour := tm.inHours
  have hmin := tm.inMinutes
  have hsec := tm.inSeconds
  cases f <;> simp only [Field.value, Field.width] <;> omega

/-- The conversions, by the character behind the `%`; `none` for those left out
    here. -/
def conversion (c : UInt8) : Option Field :=
  if c = 89 then some .year        -- %Y
  else if c = 109 then some .mon   -- %m
  else if c = 100 then some .mday  -- %d
  else if c = 72 then some .hour   -- %H
  else if c = 77 then some .min    -- %M
  else if c = 83 then some .sec    -- %S
  else none

/-- The pieces of a format from a place on, which may be behind a `%`. -/
def formatPieces : Bool → Bytes → Option (List (Piece Field))
  | behind, [] => if behind then none else some []
  | true, c :: fmt => (conversion c).bind fun f => (formatPieces false fmt).map (.field f :: ·)
  | false, c :: fmt =>
      if c = 37 then formatPieces true fmt else (formatPieces false fmt).map (.lit c :: ·)

/-- The pieces of a format. -/
def parseFormat (fmt : Bytes) : Option (List (Piece Field)) := formatPieces false fmt

/-- What `strftime` writes in front of the NUL; `none` where it has no room. -/
def strftime (max : Nat) (fmt : Bytes) (tm : Tm) : Option Bytes :=
  (parseFormat fmt).bind fun ps =>
    let s := expand Field.width Field.value ps tm
    if s.length < max then some s else none

/-- Where there is room, the whole format is printed. -/
theorem strftime_expand {max : Nat} {fmt : Bytes} {ps : List (Piece Field)}
    (hps : parseFormat fmt = some ps) (hroom : (ps.map (·.size Field.width)).sum < max)
    (tm : Tm) : strftime max fmt tm = some (expand Field.width Field.value ps tm) := by
  rw [strftime, hps]
  refine if_pos ?_
  rwa [length_expand]

/-- **Where there is room, two times are printed alike exactly if they agree in
    the fields of the format.** -/
theorem strftime_eq_iff {max : Nat} {fmt : Bytes} {ps : List (Piece Field)}
    (hps : parseFormat fmt = some ps) (hroom : (ps.map (·.size Field.width)).sum < max)
    (a b : Tm) :
    strftime max fmt a = strftime max fmt b
      ↔ ∀ f, Piece.field f ∈ ps → f.value a = f.value b := by
  rw [strftime_expand hps hroom, strftime_expand hps hroom, Option.some.injEq]
  exact expand_eq_iff (Field.value_lt a) (Field.value_lt b) ps

end Strftime
