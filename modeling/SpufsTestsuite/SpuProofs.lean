import SpufsTestsuite.TransitionProofs

/-! # The SPU — its instructions and the runs of a block of code

    The part of the instruction set that channel programs need: constants,
    quadword loads and stores, shuffles, comparison, branches, channel reads
    and writes, and stop.  A register holds four words, of which the first is
    the preferred one; the local store is addressed here by words, 2^16 of
    them, with the program counter wrapping round as the hardware does.

    What a channel does is not part of the processor.  An instruction has an
    effect (`Effect`), and a device says which channel writes it takes at once;
    with those, the processor goes on alone (`own`) until it waits for
    somebody.  Code without branches is run as a whole (`settles_block`), and a
    program whose branches all lead into it never leaves it (`Fed.inside`). -/

namespace Spu

open Transition (Settles)

abbrev Word := BitVec 32
abbrev Byte := BitVec 8
abbrev Reg := BitVec 7
abbrev Channel := BitVec 7

/-- A word's place in the local store of 256 KiB. -/
abbrev Addr := BitVec 16

/-! ## Quadwords -/

/-- A quadword by its words; `w0` is the preferred slot. -/
structure Quad where
  w0 : Word
  w1 : Word
  w2 : Word
  w3 : Word
  deriving DecidableEq, Repr

/-- A word by its bytes, the most significant one first. -/
def wordOf (b0 b1 b2 b3 : Byte) : Word := b0 ++ b1 ++ b2 ++ b3

/-- Byte `i` of a word, counted from the most significant one. -/
def byteOf (w : Word) (i : Nat) : Byte := w.extractLsb' (24 - 8 * i) 8

theorem wordOf_byteOf (w : Word) :
    wordOf (byteOf w 0) (byteOf w 1) (byteOf w 2) (byteOf w 3) = w := by
  have h16 : byteOf w 0 ++ byteOf w 1 = w.extractLsb' 16 16 :=
    BitVec.extractLsb'_append_extractLsb'_eq_extractLsb' rfl
  have h24 : w.extractLsb' 16 16 ++ byteOf w 2 = w.extractLsb' 8 24 :=
    BitVec.extractLsb'_append_extractLsb'_eq_extractLsb' rfl
  have h32 : w.extractLsb' 8 24 ++ byteOf w 3 = w.extractLsb' 0 32 :=
    BitVec.extractLsb'_append_extractLsb'_eq_extractLsb' rfl
  rw [wordOf, h16, h24, h32, BitVec.extractLsb'_eq_self]

/-- The word in slot `i`, modulo four. -/
def Quad.word (q : Quad) (i : Nat) : Word :=
  match i % 4 with
  | 0 => q.w0
  | 1 => q.w1
  | 2 => q.w2
  | _ => q.w3

def Quad.byte (q : Quad) (i : Nat) : Byte := byteOf (q.word (i / 4)) (i % 4)

def Quad.ofBytes (f : Nat → Byte) : Quad :=
  ⟨wordOf (f 0) (f 1) (f 2) (f 3), wordOf (f 4) (f 5) (f 6) (f 7),
    wordOf (f 8) (f 9) (f 10) (f 11), wordOf (f 12) (f 13) (f 14) (f 15)⟩

def Quad.splat (w : Word) : Quad := ⟨w, w, w, w⟩

/-- A word in the preferred slot, the others clear. -/
def Quad.preferred (w : Word) : Quad := ⟨w, 0, 0, 0⟩

def Quad.map (f : Word → Word) (q : Quad) : Quad := ⟨f q.w0, f q.w1, f q.w2, f q.w3⟩

/-- All ones where the words are the same. -/
def Quad.ceq (q r : Quad) : Quad :=
  let same (v w : Word) : Word := if v = w then 0xffffffff else 0
  ⟨same q.w0 r.w0, same q.w1 r.w1, same q.w2 r.w2, same q.w3 r.w3⟩

/-- `fsmbi`: a byte of ones for every bit that is set. -/
def Quad.fsmbi (imm : BitVec 16) : Quad :=
  .ofBytes fun i => if imm.getMsbD i then 0xff else 0

/-- `shlqbyi`: the quadword moved left by a count of bytes. -/
def Quad.shlqbyi (q : Quad) (n : Nat) : Quad :=
  .ofBytes fun i => if i + n < 16 then q.byte (i + n) else 0

/-- The byte that a control byte of `shufb` picks. -/
def shuffled (q r : Quad) (c : Byte) : Byte :=
  if c.extractLsb' 6 2 = 0b10 then 0
  else if c.extractLsb' 5 3 = 0b110 then 0xff
  else if c.extractLsb' 5 3 = 0b111 then 0x80
  else
    let i := (c.extractLsb' 0 5).toNat
    if i < 16 then q.byte i else r.byte (i - 16)

def Quad.shufb (q r c : Quad) : Quad := .ofBytes fun i => shuffled q r (c.byte i)

/-- The control word `00010203` in every slot copies the preferred word. -/
theorem Quad.shufb_splat (q r : Quad) :
    q.shufb r (.splat 0x00010203) = .splat q.w0 := by
  have hbytes : q.shufb r (.splat 0x00010203)
      = .splat (wordOf (byteOf q.w0 0) (byteOf q.w0 1) (byteOf q.w0 2) (byteOf q.w0 3)) := rfl
  rw [hbytes, wordOf_byteOf]

/-- Moving left by four bytes brings the second word to the front. -/
theorem Quad.shlqbyi_four (q : Quad) : (q.shlqbyi 4).w0 = q.w1 := by
  have hbytes : (q.shlqbyi 4).w0
      = wordOf (byteOf q.w1 0) (byteOf q.w1 1) (byteOf q.w1 2) (byteOf q.w1 3) := rfl
  rw [hbytes, wordOf_byteOf]

/-! ## Instructions -/

inductive Instr where
  | il (rt : Reg) (imm : BitVec 16)
  | ila (rt : Reg) (imm : BitVec 18)
  | fsmbi (rt : Reg) (imm : BitVec 16)
  | lqa (rt : Reg) (imm : BitVec 16)
  | stqa (rt : Reg) (imm : BitVec 16)
  | brz (rt : Reg) (imm : BitVec 16)
  | brnz (rt : Reg) (imm : BitVec 16)
  | ai (rt ra : Reg) (imm : BitVec 10)
  | ceq (rt ra rb : Reg)
  | shlqbyi (rt ra : Reg) (imm : BitVec 7)
  | shufb (rt ra rb rc : Reg)
  | rdch (rt : Reg) (ca : Channel)
  | wrch (ca : Channel) (rt : Reg)
  | stop (code : BitVec 14)
  deriving DecidableEq, Repr

/-- The instruction that a word encodes; `none` for those left out here. -/
def decode (w : Word) : Option Instr :=
  let rt := w.extractLsb' 0 7
  let ra := w.extractLsb' 7 7
  let rb := w.extractLsb' 14 7
  let i16 := w.extractLsb' 7 16
  if w.extractLsb' 28 4 = 0xb then some (.shufb (w.extractLsb' 21 7) ra rb rt)
  else if w.extractLsb' 25 7 = 0x21 then some (.ila rt (w.extractLsb' 7 18))
  else if w.extractLsb' 24 8 = 0x1c then some (.ai rt ra (w.extractLsb' 14 10))
  else if w.extractLsb' 23 9 = 0x081 then some (.il rt i16)
  else if w.extractLsb' 23 9 = 0x065 then some (.fsmbi rt i16)
  else if w.extractLsb' 23 9 = 0x061 then some (.lqa rt i16)
  else if w.extractLsb' 23 9 = 0x041 then some (.stqa rt i16)
  else if w.extractLsb' 23 9 = 0x040 then some (.brz rt i16)
  else if w.extractLsb' 23 9 = 0x042 then some (.brnz rt i16)
  else if w.extractLsb' 21 11 = 0x3c0 then some (.ceq rt ra rb)
  else if w.extractLsb' 21 11 = 0x1ff then some (.shlqbyi rt ra rb)
  else if w.extractLsb' 21 11 = 0x00d then some (.rdch rt ra)
  else if w.extractLsb' 21 11 = 0x10d then some (.wrch ra rt)
  else if w.extractLsb' 21 11 = 0x000 then some (.stop (w.extractLsb' 0 14))
  else none

/-! ## Execution -/

/-- The processor, with the state of its channels' device. -/
structure State (δ : Type) where
  pc   : Addr
  reg  : Reg → Quad
  ls   : Addr → Word
  chan : δ

variable {δ : Type}

def State.next (s : State δ) : State δ := { s with pc := s.pc + 1 }

def State.jump (imm : BitVec 16) (s : State δ) : State δ := { s with pc := s.pc + imm }

def State.put (r : Reg) (q : Quad) (s : State δ) : State δ :=
  { s with reg := fun x => if x = r then q else s.reg x }

@[simp] theorem State.next_ls (s : State δ) : s.next.ls = s.ls := rfl

@[simp] theorem State.next_pc (s : State δ) : s.next.pc = s.pc + 1 := rfl

@[simp] theorem State.jump_ls (imm : BitVec 16) (s : State δ) : (s.jump imm).ls = s.ls := rfl

@[simp] theorem State.jump_pc (imm : BitVec 16) (s : State δ) :
    (s.jump imm).pc = s.pc + imm := rfl

@[simp] theorem State.put_ls (r : Reg) (q : Quad) (s : State δ) : (s.put r q).ls = s.ls := rfl

@[simp] theorem State.put_pc (r : Reg) (q : Quad) (s : State δ) : (s.put r q).pc = s.pc := rfl

/-- The quadword that a word's place lies in. -/
def quadOf (a : Addr) : Addr := a &&& 0xfffc

def State.load (a : Addr) (s : State δ) : Quad :=
  let b := quadOf a
  ⟨s.ls b, s.ls (b + 1), s.ls (b + 2), s.ls (b + 3)⟩

def State.store (a : Addr) (q : Quad) (s : State δ) : State δ :=
  { s with ls := fun x => if quadOf x = quadOf a then q.word x.toNat else s.ls x }

/-- What an instruction does: it goes on, or it reads or writes a channel, or
    the processor stops. -/
inductive Effect (δ : Type) where
  | next (s : State δ)
  | read (ch : Channel) (k : Word → State δ)
  | write (ch : Channel) (v : Word) (s : State δ)
  | stop (code : BitVec 14)
  | undefined

def Instr.exec (i : Instr) (s : State δ) : Effect δ :=
  match i with
  | .il rt imm => .next (s.put rt (.splat (imm.signExtend 32))).next
  | .ila rt imm => .next (s.put rt (.splat (imm.setWidth 32))).next
  | .fsmbi rt imm => .next (s.put rt (.fsmbi imm)).next
  | .lqa rt imm => .next (s.put rt (s.load imm)).next
  | .stqa rt imm => .next (s.store imm (s.reg rt)).next
  | .brz rt imm => .next (if (s.reg rt).w0 = 0 then s.jump imm else s.next)
  | .brnz rt imm => .next (if (s.reg rt).w0 = 0 then s.next else s.jump imm)
  | .ai rt ra imm => .next (s.put rt ((s.reg ra).map (· + imm.signExtend 32))).next
  | .ceq rt ra rb => .next (s.put rt ((s.reg ra).ceq (s.reg rb))).next
  | .shlqbyi rt ra imm =>
      .next (s.put rt ((s.reg ra).shlqbyi (imm.extractLsb' 0 5).toNat)).next
  | .shufb rt ra rb rc => .next (s.put rt ((s.reg ra).shufb (s.reg rb) (s.reg rc))).next
  | .rdch rt ca => .read ca (fun v => (s.put rt (.preferred v)).next)
  | .wrch ca rt => .write ca (s.reg rt).w0 s.next
  | .stop code => .stop code

/-- What the processor does with the word at its program counter. -/
def State.exec (s : State δ) : Effect δ :=
  match decode (s.ls s.pc) with
  | some i => i.exec s
  | none => .undefined

theorem State.exec_at {s : State δ} {i : Instr} (h : decode (s.ls s.pc) = some i) :
    s.exec = i.exec s := by
  rw [State.exec, h]

section Own

variable (dev : Channel → Word → δ → Option δ)

/-- The step that an effect leaves to the processor alone; `dev` says which
    channel writes its device takes at once. -/
def Effect.own : Effect δ → Option (State δ)
  | .next s => some s
  | .write ch v s => (dev ch v s.chan).map (fun d => { s with chan := d })
  | _ => none

/-- The processor's own step. -/
def own (s : State δ) : Option (State δ) := s.exec.own dev

/-- A block of code from a state on. -/
def runBlock : List Instr → State δ → Option (State δ)
  | [], s => some s
  | i :: is, s => ((i.exec s).own dev).bind (runBlock is)

variable {dev}

theorem own_at {s : State δ} {i : Instr} (h : decode (s.ls s.pc) = some i) :
    own dev s = (i.exec s).own dev := by
  rw [own, State.exec_at h]

/-- The instruction goes on to the one behind it. -/
def Instr.straight : Instr → Bool
  | .brz .. | .brnz .. | .rdch .. | .stop .. => false
  | _ => true

/-- The instruction stores into the quadword of the place. -/
def Instr.stores (a : Addr) : Instr → Bool
  | .stqa _ imm => quadOf a == quadOf imm
  | _ => false

theorem straight_pc {i : Instr} (h : i.straight = true) {s t : State δ}
    (ht : (i.exec s).own dev = some t) : t.pc = s.pc + 1 := by
  cases i with
  | brz rt imm => exact nomatch h
  | brnz rt imm => exact nomatch h
  | rdch rt ca => exact nomatch h
  | stop code => exact nomatch h
  | wrch ca rt =>
      obtain ⟨d, -, rfl⟩ := Option.map_eq_some_iff.mp ht
      rfl
  | _ =>
      cases Option.some.inj ht
      rfl

/-- What is not stored to stays as it is. -/
theorem ls_own {i : Instr} {s t : State δ} (ht : (i.exec s).own dev = some t) {a : Addr}
    (ha : i.stores a = false) : t.ls a = s.ls a := by
  cases i with
  | brz rt imm =>
      cases Option.some.inj ht
      split
      · rfl
      · rfl
  | brnz rt imm =>
      cases Option.some.inj ht
      split
      · rfl
      · rfl
  | rdch rt ca => exact nomatch ht
  | stop code => exact nomatch ht
  | wrch ca rt =>
      obtain ⟨d, -, rfl⟩ := Option.map_eq_some_iff.mp ht
      rfl
  | stqa rt imm =>
      cases Option.some.inj ht
      exact if_neg (beq_eq_false_iff_ne.mp ha)
  | _ =>
      cases Option.some.inj ht
      rfl

/-! ## Code in the local store -/

/-- The instructions lie in the local store from the place on. -/
def Listing (ls : Addr → Word) (a : Addr) (is : List Instr) : Prop :=
  ∀ k i, is[k]? = some i → decode (ls (a + BitVec.ofNat 16 k)) = some i

theorem ofNat_succ (a : Addr) (k : Nat) :
    a + BitVec.ofNat 16 (k + 1) = a + 1 + BitVec.ofNat 16 k := by
  rw [Nat.add_comm, BitVec.ofNat_add, ← BitVec.add_assoc]
  rfl

/-- Code stays where nothing is stored to it. -/
theorem Listing.congr {ls ls' : Addr → Word} {a : Addr} {is : List Instr}
    (h : Listing ls a is)
    (hls : ∀ k < is.length, ls' (a + BitVec.ofNat 16 k) = ls (a + BitVec.ofNat 16 k)) :
    Listing ls' a is := by
  intro k i hk
  rw [hls k (List.getElem?_eq_some_iff.mp hk).1]
  exact h k i hk

/-- The code has no branch and does not store to the places of `n` words. -/
def blockSafe (a : Addr) (n : Nat) (is : List Instr) : Bool :=
  is.all fun i => i.straight
    && (List.range n).all fun k => !i.stores (a + BitVec.ofNat 16 k)

theorem blockSafe_cons {a : Addr} {n : Nat} {i : Instr} {is : List Instr}
    (h : blockSafe a n (i :: is) = true) :
    i.straight = true ∧ (∀ k < n, i.stores (a + BitVec.ofNat 16 k) = false)
      ∧ blockSafe a n is = true := by
  rw [blockSafe, List.all_cons, Bool.and_eq_true, Bool.and_eq_true, List.all_eq_true] at h
  obtain ⟨⟨hs, hk⟩, his⟩ := h
  refine ⟨hs, ?_, his⟩
  intro k hlt
  exact Bool.not_eq_true' _ ▸ hk k (List.mem_range.mpr hlt)

/-- After a block the program counter is behind it, and the places that it does
    not store to are as before. -/
theorem runBlock_frame {a : Addr} {n : Nat} {is : List Instr} {s t : State δ}
    (hsafe : blockSafe a n is = true) (h : runBlock dev is s = some t) :
    t.pc = s.pc + BitVec.ofNat 16 is.length
      ∧ ∀ k < n, t.ls (a + BitVec.ofNat 16 k) = s.ls (a + BitVec.ofNat 16 k) := by
  induction is generalizing s with
  | nil =>
      cases Option.some.inj h
      exact ⟨(BitVec.add_zero _).symm, fun _ _ => rfl⟩
  | cons i is ih =>
      obtain ⟨u, hu, ht⟩ := Option.bind_eq_some_iff.mp h
      obtain ⟨hs, hk, his⟩ := blockSafe_cons hsafe
      obtain ⟨hpc, hls⟩ := ih his ht
      refine ⟨?_, ?_⟩
      · rw [hpc, straight_pc hs hu, List.length_cons, ofNat_succ]
      · intro k hlt
        rw [hls k hlt, ls_own hu (hk k hlt)]

/-- **A block of code runs as a whole**: if the state behind it settles, so does
    the state in front of it. -/
theorem settles_block {ο : Type} {obs : State δ → ο} {is : List Instr} {a : Addr} {n : Nat}
    {code : List Instr} {s t c : State δ} {k : Nat}
    (hcode : Listing s.ls a code) (hn : code.length = n) (hsafe : blockSafe a n is = true)
    (off : Nat) (hpc : s.pc = a + BitVec.ofNat 16 off)
    (hat : is <+: code.drop off)
    (hobs : ∀ i ∈ is, ∀ u v, (i.exec u).own dev = some v → obs v = obs u)
    (hrun : runBlock dev is s = some t) (ht : Settles (own dev) obs k t c) :
    Settles (own dev) obs (is.length + k) s c := by
  induction is generalizing s off with
  | nil =>
      cases Option.some.inj hrun
      rw [List.length_nil, Nat.zero_add]
      exact ht
  | cons i is ih =>
      obtain ⟨u, hu, hrest⟩ := Option.bind_eq_some_iff.mp hrun
      obtain ⟨hs, hk, his⟩ := blockSafe_cons hsafe
      obtain ⟨post, hpost⟩ := hat
      have hfetch : decode (s.ls s.pc) = some i := by
        rw [hpc]
        refine hcode off i ?_
        rw [← List.head?_drop, ← hpost]
        rfl
      have htail : code.drop (off + 1) = is ++ post := by
        rw [← List.tail_drop, ← hpost]
        rfl
      have hlen : (i :: is).length + k = is.length + k + 1 := by
        rw [List.length_cons]
        omega
      rw [hlen]
      refine .step ((own_at hfetch).trans hu) (hobs i List.mem_cons_self s u hu) ?_
      refine ih (hcode.congr ?_) his (off + 1) ?_ ⟨post, htail.symm⟩
        (fun j hj => hobs j (List.mem_cons_of_mem i hj)) hrest
      · intro k hk'
        exact ls_own hu (hk k (hn ▸ hk'))
      · rw [straight_pc hs hu, hpc, BitVec.add_assoc, BitVec.ofNat_add]
        rfl

theorem own_brz {s : State δ} {rt : Reg} {imm : BitVec 16}
    (h : decode (s.ls s.pc) = some (.brz rt imm)) :
    own dev s = some (if (s.reg rt).w0 = 0 then s.jump imm else s.next) := own_at h

theorem own_brnz {s : State δ} {rt : Reg} {imm : BitVec 16}
    (h : decode (s.ls s.pc) = some (.brnz rt imm)) :
    own dev s = some (if (s.reg rt).w0 = 0 then s.next else s.jump imm) := own_at h

theorem own_rdch {s : State δ} {rt : Reg} {ca : Channel}
    (h : decode (s.ls s.pc) = some (.rdch rt ca)) : own dev s = none := own_at h

theorem own_stop {s : State δ} {code : BitVec 14}
    (h : decode (s.ls s.pc) = some (.stop code)) : own dev s = none := own_at h

/-- The program has come to a `stop`. -/
structure AtStop (code : BitVec 14) (s : State δ) : Prop where
  fetch : decode (s.ls s.pc) = some (.stop code)

end Own

/-- The processor goes on alone for `k` steps and then waits in `c`. -/
abbrev Alone (dev : Channel → Word → δ → Option δ) (k : Nat) (s c : State δ) : Prop :=
  Settles (own dev) (fun _ => ()) k s c

/-! ## Programs -/

/-- The words lie in the local store from its start. -/
def Loaded (ws : List Word) (ls : Addr → Word) : Prop :=
  ∀ k < ws.length, some (ls (BitVec.ofNat 16 k)) = ws[k]?

/-- A context with the words written to its local store, about to start at the
    byte address `entry`. -/
def State.boot (ws : List Word) (entry : Nat) (s : State δ) : State δ :=
  { s with
    pc := BitVec.ofNat 16 (entry / 4)
    ls := fun a => ws.getD a.toNat (s.ls a) }

theorem boot_loaded {ws : List Word} (hlen : ws.length ≤ 2 ^ 16) (entry : Nat) (s : State δ) :
    Loaded ws (s.boot ws entry).ls := by
  intro k hk
  have hto : (BitVec.ofNat 16 k).toNat = k := Nat.mod_eq_of_lt (by omega)
  show some (ws.getD (BitVec.ofNat 16 k).toNat _) = ws[k]?
  rw [hto, List.getD_eq_getElem?_getD, List.getElem?_eq_getElem hk]
  rfl

/-- Words that encode instructions are code. -/
theorem Loaded.listing {ws : List Word} {ls : Addr → Word} (h : Loaded ws ls) {off : Nat}
    {is : List Instr} (hd : (ws.drop off).map decode = is.map some) :
    Listing ls (BitVec.ofNat 16 off) is := by
  intro k i hk
  have hat : ((ws.drop off).map decode)[k]? = some (some i) := by
    rw [hd, List.getElem?_map, hk]
    rfl
  rw [List.getElem?_map, List.getElem?_drop] at hat
  obtain ⟨w, hw, hdec⟩ := Option.map_eq_some_iff.mp hat
  rw [← h (off + k) (List.getElem?_eq_some_iff.mp hw).1] at hw
  rw [← BitVec.ofNat_add, Option.some.inj hw, hdec]

/-- `spu_run`'s status of a program that has stopped with the code. -/
def runStatus (code : BitVec 14) : Int := code.toNat * 65536 + 2

theorem runStatus_eq {code : BitVec 14} (h : runStatus code = 0x13370002) :
    code = 0x1337 := by
  apply BitVec.eq_of_toNat_eq
  show code.toNat = 0x1337
  rw [runStatus] at h
  omega

/-! ## A processor fed with words on one channel -/

/-- The device that takes no writes. -/
def noDevice : Channel → Word → Unit → Option Unit := fun _ _ _ => none

theorem own_noDevice {s t : State Unit} (h : own noDevice s = some t) : s.exec = .next t := by
  rw [own] at h
  cases he : s.exec with
  | next u =>
      rw [he] at h
      exact congrArg Effect.next (Option.some.inj h)
  | read c f =>
      rw [he] at h
      exact nomatch h
  | write c v u =>
      rw [he] at h
      exact nomatch h
  | stop code =>
      rw [he] at h
      exact nomatch h
  | undefined =>
      rw [he] at h
      exact nomatch h

/-- How a processor fed with words comes to its end. -/
inductive Halt where
  | stopped (code : BitVec 14) (unread : List Word)
  | blocked
  | undefined
  deriving DecidableEq, Repr

/-- The run on the words that channel `ch` delivers; a read beyond them blocks. -/
def feed (ch : Channel) : Nat → State Unit → List Word → Option Halt
  | 0, _, _ => none
  | fuel + 1, s, ws =>
      match s.exec with
      | .next t => feed ch fuel t ws
      | .read c k =>
          if c = ch then
            match ws with
            | [] => some .blocked
            | w :: ws => feed ch fuel (k w) ws
          else some .undefined
      | .write .. => some .undefined
      | .stop code => some (.stopped code ws)
      | .undefined => some .undefined

variable {ch : Channel}

/-- An end that is reached does not change with more fuel. -/
theorem feed_mono {fuel : Nat} {s : State Unit} {ws : List Word} {r : Halt}
    (h : feed ch fuel s ws = some r) (k : Nat) : feed ch (fuel + k) s ws = some r := by
  induction fuel generalizing s ws with
  | zero => exact nomatch h
  | succ fuel ih =>
      rw [Nat.add_right_comm, feed]
      rw [feed] at h
      cases hs : s.exec with
      | next t =>
          rw [hs] at h
          exact ih h
      | read c f =>
          rw [hs] at h
          by_cases hc : c = ch
          · simp only [hc, if_true] at h ⊢
            cases ws with
            | nil => exact h
            | cons w ws => exact ih h
          · simp only [if_neg hc] at h ⊢
            exact h
      | write c v t =>
          rw [hs] at h
          exact h
      | stop code =>
          rw [hs] at h
          exact h
      | undefined =>
          rw [hs] at h
          exact h

/-- There is one end. -/
theorem feed_unique {f g : Nat} {s : State Unit} {ws : List Word} {r r' : Halt}
    (h : feed ch f s ws = some r) (h' : feed ch g s ws = some r') : r = r' := by
  have hl := feed_mono h g
  have hr := feed_mono h' f
  rw [Nat.add_comm g f, hl] at hr
  exact Option.some.inj hr

/-- The run goes on from where the processor settles. -/
theorem feed_alone {k : Nat} {s c : State Unit} (h : Alone noDevice k s c) (fuel : Nat)
    (ws : List Word) :
    feed ch (fuel + k) s ws = feed ch fuel c ws := by
  induction h with
  | rest _ => rfl
  | @step k s t c hs _ _ ih =>
      rw [← ih, ← Nat.add_assoc, feed, own_noDevice hs]

theorem feed_rdch {s : State Unit} {rt : Reg} (h : decode (s.ls s.pc) = some (.rdch rt ch))
    (fuel : Nat) (w : Word) (ws : List Word) :
    feed ch (fuel + 1) s (w :: ws) = feed ch fuel (s.put rt (.preferred w)).next ws := by
  rw [feed, State.exec_at h]
  exact if_pos rfl

theorem feed_rdch_nil {s : State Unit} {rt : Reg}
    (h : decode (s.ls s.pc) = some (.rdch rt ch)) :
    feed ch 1 s [] = some .blocked := by
  rw [feed, State.exec_at h]
  exact if_pos rfl

theorem feed_stop {s : State Unit} {code : BitVec 14}
    (h : decode (s.ls s.pc) = some (.stop code)) (ws : List Word) :
    feed ch 1 s ws = some (.stopped code ws) := by
  rw [feed, State.exec_at h]
  rfl

/-! ## The states of a fed processor -/

/-- The processor gets from `s`, with the words `ws` to be delivered, to `t`, with
    `rest` of them left. -/
inductive Fed (ch : Channel) : State Unit → List Word → State Unit → List Word → Prop where
  | refl (s : State Unit) (ws : List Word) : Fed ch s ws s ws
  | next {s t u : State Unit} {ws rest : List Word} (h : s.exec = .next t)
      (ht : Fed ch t ws u rest) : Fed ch s ws u rest
  | read {s u : State Unit} {k : Word → State Unit} {w : Word} {ws rest : List Word}
      (h : s.exec = .read ch k) (ht : Fed ch (k w) ws u rest) : Fed ch s (w :: ws) u rest

/-- The processor is at that end. -/
def Halt.At (ch : Channel) : Halt → State Unit → List Word → Prop
  | .stopped code unread, s, ws => s.exec = .stop code ∧ ws = unread
  | .blocked, s, ws => (∃ k, s.exec = .read ch k) ∧ ws = []
  | .undefined, s, _ => s.exec = .undefined ∨ (∃ c v t, s.exec = .write c v t)
      ∨ ∃ c k, s.exec = .read c k ∧ c ≠ ch

theorem Halt.At.feed {r : Halt} {s : State Unit} {ws : List Word} (h : r.At ch s ws) :
    feed ch 1 s ws = some r := by
  rw [Spu.feed]
  cases r with
  | stopped code unread =>
      obtain ⟨hs, rfl⟩ := h
      rw [hs]
  | blocked =>
      obtain ⟨⟨k, hs⟩, rfl⟩ := h
      rw [hs]
      exact if_pos rfl
  | undefined =>
      obtain hs | ⟨c, v, t, hs⟩ | ⟨c, k, hs, hc⟩ := h
      · rw [hs]
      · rw [hs]
      · rw [hs]
        exact if_neg hc

/-- A run with fuel passes through states and is at its end in the last of them. -/
theorem feed_fed {fuel : Nat} {s : State Unit} {ws : List Word} {r : Halt}
    (h : feed ch fuel s ws = some r) : ∃ t rest, Fed ch s ws t rest ∧ r.At ch t rest := by
  induction fuel generalizing s ws with
  | zero => exact nomatch h
  | succ fuel ih =>
      rw [feed] at h
      cases hs : s.exec with
      | next t =>
          rw [hs] at h
          obtain ⟨u, rest, hu, hend⟩ := ih h
          exact ⟨u, rest, .next hs hu, hend⟩
      | read c k =>
          rw [hs] at h
          by_cases hc : c = ch
          · subst hc
            simp only [if_true] at h
            cases ws with
            | nil =>
                cases Option.some.inj h
                exact ⟨s, [], .refl s [], ⟨k, hs⟩, rfl⟩
            | cons w ws =>
                obtain ⟨u, rest, hu, hend⟩ := ih h
                exact ⟨u, rest, .read hs hu, hend⟩
          · simp only [if_neg hc] at h
            cases Option.some.inj h
            exact ⟨s, ws, .refl s ws, .inr (.inr ⟨c, k, hs, hc⟩)⟩
      | write c v t =>
          rw [hs] at h
          cases Option.some.inj h
          exact ⟨s, ws, .refl s ws, .inr (.inl ⟨c, v, t, hs⟩)⟩
      | stop code =>
          rw [hs] at h
          cases Option.some.inj h
          exact ⟨s, ws, .refl s ws, hs, rfl⟩
      | undefined =>
          rw [hs] at h
          cases Option.some.inj h
          exact ⟨s, ws, .refl s ws, .inl hs⟩

/-- The run with enough fuel comes to the end that a state it passes through is at. -/
theorem Fed.feed {s t : State Unit} {ws rest : List Word} {r : Halt} (h : Fed ch s ws t rest)
    (hr : r.At ch t rest) : ∃ fuel, feed ch fuel s ws = some r := by
  induction h with
  | refl s ws => exact ⟨1, hr.feed⟩
  | next hs _ ih =>
      obtain ⟨fuel, hf⟩ := ih hr
      exact ⟨fuel + 1, by rw [Spu.feed, hs]; exact hf⟩
  | read hs _ ih =>
      obtain ⟨fuel, hf⟩ := ih hr
      exact ⟨fuel + 1, by rw [Spu.feed, hs]; exact (if_pos rfl).trans hf⟩

/-! ## Programs that stay inside themselves -/

/-- The places that the instruction at `a` goes on to. -/
def Instr.targets (a : Addr) : Instr → List Addr
  | .brz _ imm => [a + imm, a + 1]
  | .brnz _ imm => [a + imm, a + 1]
  | .stop _ => []
  | _ => [a + 1]

/-- No instruction of the code at the start of the local store goes on to a place
    behind it or stores into it. -/
def confined (code : List Instr) : Bool :=
  (List.range code.length).all fun k => code[k]?.all fun i =>
    (i.targets (BitVec.ofNat 16 k)).all (fun a => a.toNat < code.length)
      && (List.range code.length).all fun j => !i.stores (BitVec.ofNat 16 j)

theorem confined_at {code : List Instr} (h : confined code = true) {k : Nat} {i : Instr}
    (hk : code[k]? = some i) :
    (∀ a ∈ i.targets (BitVec.ofNat 16 k), a.toNat < code.length)
      ∧ ∀ j < code.length, i.stores (BitVec.ofNat 16 j) = false := by
  have hlt : k < code.length := (List.getElem?_eq_some_iff.mp hk).1
  have hat := List.all_eq_true.mp h k (List.mem_range.mpr hlt)
  rw [hk, Option.all_some, Bool.and_eq_true, List.all_eq_true, List.all_eq_true] at hat
  refine ⟨fun a ha => of_decide_eq_true (hat.1 a ha), ?_⟩
  intro j hj
  exact Bool.not_eq_true' _ ▸ hat.2 j (List.mem_range.mpr hj)

/-- The processor is about to execute a word of the program, which is as it was
    loaded. -/
structure Inside (ws : List Word) (s : State δ) : Prop where
  pc   : s.pc.toNat < ws.length
  code : Loaded ws s.ls

theorem boot_inside {ws : List Word} (hlen : ws.length ≤ 2 ^ 16) {entry : Nat}
    (he : entry / 4 < ws.length) (s : State δ) : Inside ws (s.boot ws entry) := by
  refine ⟨?_, boot_loaded hlen entry s⟩
  show (BitVec.ofNat 16 (entry / 4)).toNat < ws.length
  rwa [BitVec.toNat_ofNat, Nat.mod_eq_of_lt (by omega)]

theorem Inside.word {ws : List Word} {s : State δ} (h : Inside ws s) :
    ws[s.pc.toNat]? = some (s.ls s.pc) := by
  have hw := h.code s.pc.toNat h.pc
  rw [BitVec.ofNat_toNat, BitVec.setWidth_eq] at hw
  exact hw.symm

theorem Inside.fetch {ws : List Word} {code : List Instr} (hdec : ws.map decode = code.map some)
    {s : State δ} (h : Inside ws s) :
    ∃ i, code[s.pc.toNat]? = some i ∧ decode (s.ls s.pc) = some i := by
  have hat : (code.map some)[s.pc.toNat]? = some (decode (s.ls s.pc)) := by
    rw [← hdec, List.getElem?_map, h.word]
    rfl
  rw [List.getElem?_map] at hat
  obtain ⟨i, hi, hd⟩ := Option.map_eq_some_iff.mp hat
  exact ⟨i, hi, hd.symm⟩

/-- The states that an instruction goes on to by itself or with a word read. -/
def Effect.follows (t : State δ) : Effect δ → Prop
  | .next u => t = u
  | .read _ k => ∃ w, t = k w
  | _ => False

/-- What an instruction changes: it goes on to one of its targets, and what it does
    not store to stays as it is. -/
theorem follows_frame {i : Instr} {s t : State δ} (h : (i.exec s).follows t) :
    t.pc ∈ i.targets s.pc ∧ ∀ a, i.stores a = false → t.ls a = s.ls a := by
  cases i with
  | brz rt imm =>
      cases h
      split
      · exact ⟨List.mem_cons_self, fun _ _ => rfl⟩
      · exact ⟨List.mem_cons_of_mem _ List.mem_cons_self, fun _ _ => rfl⟩
  | brnz rt imm =>
      cases h
      split
      · exact ⟨List.mem_cons_of_mem _ List.mem_cons_self, fun _ _ => rfl⟩
      · exact ⟨List.mem_cons_self, fun _ _ => rfl⟩
  | stqa rt imm =>
      cases h
      exact ⟨List.mem_singleton_self _, fun a ha => if_neg (beq_eq_false_iff_ne.mp ha)⟩
  | rdch rt ca =>
      obtain ⟨w, rfl⟩ := h
      exact ⟨List.mem_singleton_self _, fun _ _ => rfl⟩
  | wrch ca rt => exact h.elim
  | stop code => exact h.elim
  | _ =>
      cases h
      exact ⟨List.mem_singleton_self _, fun _ _ => rfl⟩

/-- **A step stays inside a confined program** and leaves its words as they are. -/
theorem Inside.follows {ws : List Word} {code : List Instr}
    (hdec : ws.map decode = code.map some) (hconf : confined code = true) {s t : State δ}
    (h : Inside ws s) (ht : s.exec.follows t) : Inside ws t := by
  have hlen : ws.length = code.length := by
    rw [← List.length_map decode, hdec, List.length_map]
  obtain ⟨i, hi, hfetch⟩ := h.fetch hdec
  obtain ⟨htargets, hstores⟩ := confined_at hconf hi
  rw [BitVec.ofNat_toNat, BitVec.setWidth_eq] at htargets
  rw [State.exec_at hfetch] at ht
  obtain ⟨hpc, hls⟩ := follows_frame ht
  refine ⟨hlen ▸ htargets _ hpc, ?_⟩
  intro k hk
  rw [hls _ (hstores k (hlen ▸ hk)), h.code k hk]

/-- **A fed processor never executes a word outside a confined program.** -/
theorem Fed.inside {ws : List Word} {code : List Instr} (hdec : ws.map decode = code.map some)
    (hconf : confined code = true) {s t : State Unit} {msgs rest : List Word}
    (h : Fed ch s msgs t rest) (hs : Inside ws s) : Inside ws t := by
  induction h with
  | refl s msgs => exact hs
  | next hexec _ ih =>
      refine ih (hs.follows hdec hconf ?_)
      rw [hexec]
      rfl
  | read hexec _ ih =>
      refine ih (hs.follows hdec hconf ?_)
      rw [hexec]
      exact ⟨_, rfl⟩

end Spu
