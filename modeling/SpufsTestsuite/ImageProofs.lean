import SpufsTestsuite.CStringProofs

/-! # Memory images — fixed-width fields at signed addresses

    A program that decodes a mapped file computes addresses from the file's
    own bytes, so an address is an arbitrary integer here and every load is
    partial: `none` says that a byte outside of the image was asked for.

    `Holds m a bs` says that the image `m` has the bytes `bs` at the address
    `a`.  It splits along `++` (`Holds.left`, `Holds.right`), which is how a
    decoder is followed through a serialised record: one `Holds` for the
    record, one load lemma for each of its fields. -/

namespace Image

open CString

/-! ## Byte order -/

/-- The `k` bytes of `n`, the least significant one first. -/
def leBytes : (k n : Nat) → Bytes
  | 0, _ => []
  | k + 1, n => UInt8.ofNat n :: leBytes k (n / 256)

/-- A `k`-byte number as a host stores it. -/
def encode (big : Bool) (k n : Nat) : Bytes :=
  if big then (leBytes k n).reverse else leBytes k n

/-- The number a host reads from its bytes. -/
def decode (big : Bool) (bs : Bytes) : Nat :=
  Nat.ofDigits 256 ((if big then bs.reverse else bs).map UInt8.toNat)

@[simp] theorem leBytes_length (k n : Nat) : (leBytes k n).length = k := by
  induction k generalizing n with
  | zero => rfl
  | succ k ih => rw [leBytes, List.length_cons, ih]

@[simp] theorem encode_length (big : Bool) (k n : Nat) :
    (encode big k n).length = k := by
  cases big with
  | false => exact leBytes_length k n
  | true => exact (List.length_reverse ..).trans (leBytes_length k n)

theorem ofDigits_leBytes {k n : Nat} (h : n < 256 ^ k) :
    Nat.ofDigits 256 ((leBytes k n).map UInt8.toNat) = n := by
  induction k generalizing n with
  | zero => exact (Nat.lt_one_iff.mp h).symm
  | succ k ih =>
      have hk : n / 256 < 256 ^ k :=
        Nat.div_lt_of_lt_mul (by rw [← Nat.pow_succ']; exact h)
      rw [leBytes, List.map_cons, Nat.ofDigits_cons, ih hk, UInt8.toNat_ofNat']
      exact Nat.mod_add_div n 256

/-- **What was stored is read back.** -/
theorem decode_encode (big : Bool) {k n : Nat} (h : n < 256 ^ k) :
    decode big (encode big k n) = n := by
  cases big with
  | false => exact ofDigits_leBytes h
  | true =>
      show Nat.ofDigits 256 (((leBytes k n).reverse.reverse).map UInt8.toNat) = n
      rw [List.reverse_reverse]
      exact ofDigits_leBytes h

/-- A field of `k` bytes holds a number of `k` bytes. -/
theorem decode_lt (big : Bool) (bs : Bytes) : decode big bs < 256 ^ bs.length := by
  have hlt : ∀ x ∈ (if big then bs.reverse else bs).map UInt8.toNat, x < 256 := by
    intro x hx
    obtain ⟨b, -, rfl⟩ := List.mem_map.mp hx
    exact b.toNat_lt
  have h := Nat.ofDigits_lt_base_pow_length (by decide) hlt
  rw [List.length_map] at h
  cases big with
  | false => exact h
  | true =>
      rw [show (if true = true then bs.reverse else bs) = bs.reverse from rfl,
        List.length_reverse] at h
      exact h

/-! ## Loads -/

/-- The `n` bytes at the address `a`; no byte is read when `n` is 0. -/
def load (m : Bytes) (a : Int) (n : Nat) : Option Bytes :=
  if n = 0 ∨ (0 ≤ a ∧ a + n ≤ m.length) then some ((m.drop a.toNat).take n)
  else none

/-- The `k`-byte number at the address `a`. -/
def loadNat (big : Bool) (m : Bytes) (a : Int) (k : Nat) : Option Nat :=
  (load m a k).map (decode big)

/-- The byte at the address `a`. -/
def loadByte (m : Bytes) (a : Int) : Option UInt8 :=
  if 0 ≤ a then m[a.toNat]? else none

/-- The image from the address `a` on, where a scan starts. -/
def tailFrom (m : Bytes) (a : Int) : Bytes :=
  if 0 ≤ a then m.drop a.toNat else []

/-- A load inside of the image succeeds. -/
theorem load_inside {m : Bytes} {a : Int} {n : Nat} (ha : 0 ≤ a)
    (hn : a + n ≤ m.length) : load m a n = some ((m.drop a.toNat).take n) :=
  if_pos (Or.inr ⟨ha, hn⟩)

/-- A load that succeeds has read bytes of the image only. -/
theorem load_eq_some {m bs : Bytes} {a : Int} {n : Nat} (hn : 0 < n)
    (h : load m a n = some bs) :
    0 ≤ a ∧ a + n ≤ m.length ∧ bs = (m.drop a.toNat).take n ∧ bs.length = n := by
  rw [load] at h
  by_cases hc : n = 0 ∨ (0 ≤ a ∧ a + n ≤ m.length)
  · rw [if_pos hc] at h
    obtain ⟨h0, hle⟩ := hc.resolve_left (by omega)
    have hbs := (Option.some.inj h).symm
    refine ⟨h0, hle, hbs, ?_⟩
    rw [hbs, List.length_take, List.length_drop]
    omega
  · rw [if_neg hc] at h
    exact nomatch h

theorem loadNat_lt {big : Bool} {m : Bytes} {a : Int} {k n : Nat} (hk : 0 < k)
    (h : loadNat big m a k = some n) : n < 256 ^ k := by
  obtain ⟨bs, hbs, rfl⟩ := Option.map_eq_some_iff.mp h
  obtain ⟨-, -, -, hlen⟩ := load_eq_some hk hbs
  exact hlen ▸ decode_lt big bs

theorem loadNat_inside {big : Bool} {m : Bytes} {a : Int} {k : Nat} (ha : 0 ≤ a)
    (hk : a + k ≤ m.length) : ∃ n, loadNat big m a k = some n :=
  ⟨_, by rw [loadNat, load_inside ha hk]; rfl⟩

/-- A load is defined where it stays inside of the image. -/
theorem load_isSome {m : Bytes} {a : Int} {n : Nat} :
    (load m a n).isSome = true ↔ n = 0 ∨ (0 ≤ a ∧ a + n ≤ m.length) := by
  rw [load]
  split
  · next h => simp [h]
  · next h => simp [h]

theorem loadNat_isSome {big : Bool} {m : Bytes} {a : Int} {k : Nat} (hk : 0 < k) :
    (loadNat big m a k).isSome = true ↔ 0 ≤ a ∧ a + k ≤ m.length := by
  rw [loadNat, Option.isSome_map, load_isSome]
  exact or_iff_right (Nat.ne_of_gt hk)

theorem tailFrom_add {m : Bytes} {a : Int} (ha : 0 ≤ a) (n : Nat) :
    tailFrom m (a + n) = (tailFrom m a).drop n := by
  rw [tailFrom, tailFrom, if_pos ha, if_pos (by omega), List.drop_drop,
    show (a + n).toNat = a.toNat + n by omega]

/-! ## What an image holds -/

/-- The image has the bytes `bs` at the address `a`. -/
def Holds (m : Bytes) (a : Int) (bs : Bytes) : Prop :=
  ∃ pre post, m = pre ++ (bs ++ post) ∧ (pre.length : Int) = a

/-- An image holds what lies in it. -/
theorem holds_inside {m : Bytes} {a : Int} {n : Nat} (ha : 0 ≤ a) (hn : a + n ≤ m.length) :
    ∃ bs, bs.length = n ∧ Holds m a bs := by
  refine ⟨(m.drop a.toNat).take n, ?_, m.take a.toNat, (m.drop a.toNat).drop n, ?_, ?_⟩
  · rw [List.length_take, List.length_drop]
    omega
  · rw [List.take_append_drop, List.take_append_drop]
  · rw [List.length_take]
    omega

theorem Holds.left {m xs ys : Bytes} {a : Int} (h : Holds m a (xs ++ ys)) :
    Holds m a xs := by
  obtain ⟨pre, post, rfl, ha⟩ := h
  exact ⟨pre, ys ++ post, by rw [List.append_assoc], ha⟩

theorem Holds.right {m xs ys : Bytes} {a : Int} (h : Holds m a (xs ++ ys)) :
    Holds m (a + xs.length) ys := by
  obtain ⟨pre, post, rfl, ha⟩ := h
  refine ⟨pre ++ xs, post, by simp only [List.append_assoc], ?_⟩
  rw [List.length_append]
  omega

theorem Holds.nonneg {m bs : Bytes} {a : Int} (h : Holds m a bs) : 0 ≤ a := by
  obtain ⟨pre, post, -, ha⟩ := h
  omega

/-- The bytes an image holds end in it. -/
theorem Holds.le {m bs : Bytes} {a : Int} (h : Holds m a bs) :
    a + bs.length ≤ m.length := by
  obtain ⟨pre, post, rfl, ha⟩ := h
  rw [List.length_append, List.length_append]
  omega

theorem Holds.tailFrom {m bs : Bytes} {a : Int} (h : Holds m a bs) :
    ∃ post, tailFrom m a = bs ++ post := by
  obtain ⟨pre, post, rfl, ha⟩ := h
  have hpre : a.toNat = pre.length := by omega
  refine ⟨post, ?_⟩
  rw [Image.tailFrom, if_pos (by omega), hpre, List.drop_left]

theorem Holds.load {m bs : Bytes} {a : Int} (h : Holds m a bs) :
    load m a bs.length = some bs := by
  rw [load_inside h.nonneg h.le]
  obtain ⟨pre, post, rfl, ha⟩ := h
  have hpre : a.toNat = pre.length := by omega
  rw [hpre, List.drop_left, List.take_left]

theorem Holds.loadNat {big : Bool} {m : Bytes} {a : Int} {k n : Nat}
    (h : Holds m a (encode big k n)) (hn : n < 256 ^ k) :
    loadNat big m a k = some n := by
  have hl := h.load
  rw [encode_length] at hl
  rw [Image.loadNat, hl]
  exact congrArg some (decode_encode big hn)

/-- The bytes of what an image holds, one by one. -/
theorem Holds.loadByte {m bs : Bytes} {a : Int} {i : Nat} (h : Holds m a bs)
    (hi : i < bs.length) : loadByte m (a + i) = bs[i]? := by
  obtain ⟨pre, post, rfl, ha⟩ := h
  have hpre : (a + i).toNat = pre.length + i := by omega
  rw [Image.loadByte, if_pos (by omega), hpre,
    List.getElem?_append_right (by omega), Nat.add_sub_cancel_left,
    List.getElem?_append_left hi]

/-! ## Images that agree from an address on -/

/-- The images have one length, and the same bytes from `lim` on. -/
structure AgreeFrom (lim : Nat) (m m' : Bytes) : Prop where
  length_eq : m.length = m'.length
  drop_eq : m.drop lim = m'.drop lim

section Agree

variable {lim : Nat} {m m' : Bytes} {a : Int}

theorem AgreeFrom.drop (h : AgreeFrom lim m m') {n : Nat} (hn : lim ≤ n) :
    m.drop n = m'.drop n := by
  obtain ⟨k, rfl⟩ := Nat.exists_eq_add_of_le hn
  rw [← List.drop_drop, ← List.drop_drop, h.drop_eq]

/-- Where the images agree, or in front of both, a load sees no difference. -/
theorem AgreeFrom.load (h : AgreeFrom lim m m') (ha : (lim : Int) ≤ a ∨ a < 0) (n : Nat) :
    load m a n = load m' a n := by
  rw [Image.load, Image.load, h.length_eq]
  rcases ha with ha | ha
  · rw [h.drop (show lim ≤ a.toNat by omega)]
  · by_cases hn : n = 0
    · rw [if_pos (Or.inl hn), if_pos (Or.inl hn), hn, List.take_zero, List.take_zero]
    · rw [if_neg (by omega), if_neg (by omega)]

theorem AgreeFrom.loadNat (h : AgreeFrom lim m m') (ha : (lim : Int) ≤ a ∨ a < 0)
    (big : Bool) (k : Nat) : loadNat big m a k = loadNat big m' a k := by
  rw [Image.loadNat, Image.loadNat, h.load ha]

theorem AgreeFrom.tailFrom (h : AgreeFrom lim m m') (ha : (lim : Int) ≤ a ∨ a < 0) :
    tailFrom m a = tailFrom m' a := by
  rw [Image.tailFrom, Image.tailFrom]
  rcases ha with ha | ha
  · rw [h.drop (show lim ≤ a.toNat by omega)]
  · rw [if_neg (by omega), if_neg (by omega)]

theorem AgreeFrom.loadByte (h : AgreeFrom lim m m') (ha : (lim : Int) ≤ a ∨ a < 0) :
    loadByte m a = loadByte m' a := by
  rw [Image.loadByte, Image.loadByte]
  rcases ha with ha | ha
  · rw [← List.head?_drop, ← List.head?_drop, h.drop (show lim ≤ a.toNat by omega)]
  · rw [if_neg (by omega), if_neg (by omega)]

end Agree

end Image
