import Mathlib.Logic.Function.Basic
import Micro8080.Proofs.History
import Micro8080.Registers

/-!
# The register file as a bank of separate registers

A bank keeps ten bytes and two words apart from each other, so that no write can reach a
neighbour. The register file keeps them all in one buffer, where a pair and its halves are the same
bytes, and yet it behaves as a bank does under writes through any of its views: `bank` takes the
buffer apart, and every write goes through it. Down to single bits, the file holds what the latest
write over each bit put there, so writes that have no bit in common commute.
-/

namespace Micro8080

/-- The bytes of all registers, and the pointers as words. -/
@[ext] structure Bank where
  byte : Register → Byte
  sp : Word
  pc : Word

namespace Bank

variable (b : Bank)

def put (x : Register) (v : Byte) : Bank := { b with byte := Function.update b.byte x v }

/-- The high half first, then the low half. -/
def putHalves (hi lo : Register) (v : Word) : Bank :=
  (b.put hi (UInt8.ofNat (v.toNat / 256))).put lo (UInt8.ofNat (v.toNat % 256))

/-- Bit `k` of the byte in `x` becomes `on`. -/
def putBit (x : Register) (k : Nat) (on : Bool) : Bank :=
  b.put x (Byte.withBit (b.byte x) k on)

def perform : Registers.Write → Bank
  | .register x v => b.put x v
  | .pair .bc v => b.putHalves .b .c v
  | .pair .de v => b.putHalves .d .e v
  | .pair .hl v => b.putHalves .h .l v
  | .pair .wz v => b.putHalves .w .z v
  | .pair .sp v => { b with sp := v }
  | .pair .pc v | .pc v => { b with pc := v }
  | .flag .sign on => b.putBit .f 7 on
  | .flag .zero on => b.putBit .f 6 on
  | .flag .auxCarry on => b.putBit .f 4 on
  | .flag .parity on => b.putBit .f 2 on
  | .flag .carry on => b.putBit .f 0 on

def performAll (ws : List Registers.Write) : Bank := ws.foldl perform b

def halves (hi lo : Register) : Nat := (b.byte hi).toNat * 256 + (b.byte lo).toNat

/-- The number that is read from a pair. -/
def value : Pair → Nat
  | .bc => b.halves .b .c
  | .de => b.halves .d .e
  | .hl => b.halves .h .l
  | .wz => b.halves .w .z
  | .sp => b.sp.toNat
  | .pc => b.pc.toNat

def flag : Flag → Bool
  | .sign => Byte.bit (b.byte .f) 7
  | .zero => Byte.bit (b.byte .f) 6
  | .auxCarry => Byte.bit (b.byte .f) 4
  | .parity => Byte.bit (b.byte .f) 2
  | .carry => Byte.bit (b.byte .f) 0

/-- Whatever way `r` is read, the answer is the one of the bank. -/
structure Shows (r : Registers) : Prop where
  get : ∀ x, r.get x = b.byte x
  pair : ∀ p, (r.pair p).toNat = b.value p
  flag : ∀ x, r.flag x = b.flag x
  a : r.a = b.byte .a
  f : r.f = b.byte .f
  bc : r.bc.toNat = b.value .bc
  de : r.de.toNat = b.value .de
  hl : r.hl.toNat = b.value .hl
  sp : r.sp.toNat = b.value .sp
  pc : r.pc.toNat = b.value .pc
  wz : r.wz.toNat = b.value .wz

end Bank

namespace Registers

def bank (r : Registers) : Bank := ⟨r.get, r.sp, r.pc⟩

theorem bank_inj {r s : Registers} : r.bank = s.bank ↔ r = s := by
  constructor
  · intro h
    obtain ⟨hg, hsp, hpc⟩ := Bank.mk.inj h
    exact ext_get (congrFun hg) hsp hpc
  · rintro rfl
    rfl

theorem toNat_pair (r : Registers) (p : Pair) : (r.pair p).toNat = r.bank.value p := by
  cases p with
  | bc | de | hl | wz =>
    rw [r.pair_eq_ofBytes rfl, Word.toNat_ofBytes]
    rfl
  | sp | pc => rfl

theorem shows_bank (r : Registers) : r.bank.Shows r where
  get _ := rfl
  pair := r.toNat_pair
  flag x := by cases x <;> rfl
  a := rfl
  f := rfl
  bc := r.toNat_pair .bc
  de := r.toNat_pair .de
  hl := r.toNat_pair .hl
  sp := rfl
  pc := rfl
  wz := r.toNat_pair .wz

variable (r : Registers)

theorem bank_set (x : Register) (v : Byte) : (r.set x v).bank = r.bank.put x v := by
  apply Bank.ext
  · funext y
    exact (r.get_set x y v).trans (Function.update_apply r.get x v y).symm
  · exact r.sp_set x v
  · exact r.pc_set x v

theorem bank_setHalves {p : Pair} {hi lo : Register} (hp : p.halves? = some (hi, lo)) (v : Word) :
    (r.setPair p v).bank = r.bank.putHalves hi lo v := by
  rw [r.setPair_eq_set hp, bank_set, bank_set, Word.high_eq_ofNat, Word.low_eq_ofNat]
  rfl

/-- No register is a byte of a pointer. -/
theorem bank_setSp (v : Word) : (r.setPair .sp v).bank = { r.bank with sp := v } := by
  apply Bank.ext
  · funext x
    exact r.get_setSp x v
  · exact r.pair_setPair .sp .sp v
  · exact r.pair_setPair .sp .pc v

theorem bank_setPc (v : Word) : (r.setPc v).bank = { r.bank with pc := v } := by
  apply Bank.ext
  · funext x
    exact r.get_setPc x v
  · exact r.pair_setPair .pc .sp v
  · exact r.pc_setPc v

theorem bank_setFlag (x : Flag) (on : Bool) :
    (r.setFlag x on).bank = r.bank.putBit .f x.position on :=
  r.bank_set .f (x.write r.f on)

theorem bank_perform (w : Write) : (w.perform r).bank = r.bank.perform w := by
  cases w with
  | register x v => exact r.bank_set x v
  | pair p v =>
    cases p with
    | bc | de | hl | wz => exact r.bank_setHalves rfl v
    | sp => exact r.bank_setSp v
    | pc => exact r.bank_setPc v
  | flag x on => cases x <;> exact r.bank_setFlag _ on
  | pc v => exact r.bank_setPc v

theorem bank_performAll (ws : List Write) : (performAll ws r).bank = r.bank.performAll ws := by
  induction ws generalizing r with
  | nil => rfl
  | cons w ws ih =>
    rw [performAll_cons, ih, bank_perform]
    rfl

end Registers

/-- One bit of a register or of a pointer, the least that a write can change. -/
inductive Lane where
  | register (x : Register) (k : Fin 8)
  | sp (k : Fin 16)
  | pc (k : Fin 16)
deriving DecidableEq

namespace Bank

def lane (b : Bank) : Lane → Bool
  | .register x k => Byte.bit (b.byte x) k
  | .sp k => b.sp.toBitVec.getLsbD k
  | .pc k => b.pc.toBitVec.getLsbD k

theorem ext_lane {b c : Bank} (h : ∀ l, b.lane l = c.lane l) : b = c := by
  apply Bank.ext
  · funext x
    apply Byte.ext_bit
    intro k hk
    exact h (.register x ⟨k, hk⟩)
  · apply UInt16.toBitVec_inj.mp
    apply BitVec.eq_of_getLsbD_eq
    intro k hk
    exact h (.sp ⟨k, hk⟩)
  · apply UInt16.toBitVec_inj.mp
    apply BitVec.eq_of_getLsbD_eq
    intro k hk
    exact h (.pc ⟨k, hk⟩)

end Bank

namespace Registers

/-- The bit that a write puts into a lane, if it covers the lane. -/
def Write.given? (w : Write) : Lane → Option Bool
  | .register y k =>
    match w with
    | .register x v => if y = x then some (Byte.bit v k) else none
    | .pair p v =>
      p.halves?.bind fun (hi, lo) =>
        if y = lo then some (Byte.bit (UInt8.ofNat (v.toNat % 256)) k)
        else if y = hi then some (Byte.bit (UInt8.ofNat (v.toNat / 256)) k)
        else none
    | .flag x on => if y = .f ∧ k.val = x.position then some on else none
    | .pc _ => none
  | .sp k =>
    match w with
    | .pair .sp v => some (v.toBitVec.getLsbD k)
    | _ => none
  | .pc k =>
    match w with
    | .pair .pc v | .pc v => some (v.toBitVec.getLsbD k)
    | _ => none

/-- No lane is covered by both. -/
def Write.Apart (v w : Write) : Prop := ∀ l, v.given? l = none ∨ w.given? l = none

end Registers

namespace Bank

variable (b : Bank)

theorem lane_put (x y : Register) (v : Byte) (k : Fin 8) :
    (b.put x v).lane (.register y k) = if y = x then Byte.bit v k else b.lane (.register y k) := by
  by_cases h : y = x
  · subst h
    simp [lane, put]
  · simp [lane, put, h]

theorem lane_putHalves (hi lo y : Register) (v : Word) (k : Fin 8) :
    (b.putHalves hi lo v).lane (.register y k) =
      if y = lo then Byte.bit (UInt8.ofNat (v.toNat % 256)) k
      else if y = hi then Byte.bit (UInt8.ofNat (v.toNat / 256)) k
      else b.lane (.register y k) := by
  rw [putHalves, lane_put, lane_put]

theorem lane_putBit (x y : Register) {i : Nat} (hi : i < 8) (on : Bool) (k : Fin 8) :
    (b.putBit x i on).lane (.register y k) =
      if y = x ∧ k.val = i then on else b.lane (.register y k) := by
  rw [putBit, lane_put, Byte.bit_withBit _ hi]
  by_cases hy : y = x
  · subst hy
    simp [lane]
  · simp [hy]

theorem perform_flag (x : Flag) (on : Bool) :
    b.perform (.flag x on) = b.putBit .f x.position on := by
  cases x <;> rfl

open Registers (Write)

/-- A write puts its bits where it covers a lane and leaves the other lanes alone. -/
theorem lane_perform (w : Write) (l : Lane) :
    (b.perform w).lane l = (w.given? l).getD (b.lane l) := by
  cases w with
  | register x v =>
    cases l with
    | register y k =>
      rw [perform, lane_put, Write.given?, apply_ite (Option.getD · _)]
      rfl
    | sp k | pc k => rfl
  | pair p v =>
    cases p with
    | bc | de | hl | wz =>
      cases l with
      | register y k =>
        rw [perform, lane_putHalves, Write.given?, Pair.halves?, Option.bind_some,
          apply_ite (Option.getD · _), apply_ite (Option.getD · _)]
        rfl
      | sp k | pc k => rfl
    | sp | pc => cases l <;> rfl
  | flag x on =>
    rw [perform_flag]
    cases l with
    | register y k =>
      rw [lane_putBit b .f y x.position_lt, Write.given?, apply_ite (Option.getD · _)]
      rfl
    | sp k | pc k => rfl
  | pc v => cases l <;> rfl

theorem lane_performAll (ws : List Write) (l : Lane) :
    (b.performAll ws).lane l = (latest? (Write.given? · l) ws).getD (b.lane l) :=
  view_foldl (lane · l) (fun c w => c.lane_perform w l) b ws

end Bank

namespace Registers

theorem perform_comm {v w : Write} (h : v.Apart w) (r : Registers) :
    v.perform (w.perform r) = w.perform (v.perform r) := by
  rw [← bank_inj]
  apply Bank.ext_lane
  intro l
  simp only [bank_perform, Bank.lane_perform]
  obtain hv | hw := h l
  · rw [hv]
    rfl
  · rw [hw]
    rfl

theorem apart_flag {x y : Flag} (h : x ≠ y) (on off : Bool) :
    (Write.flag x on).Apart (.flag y off) := by
  intro l
  cases l with
  | register i k =>
    by_cases hk : k.val = x.position
    · have hne : ¬k.val = y.position := fun hy => h (Flag.position_inj.mp (hk.symm.trans hy))
      exact Or.inr (if_neg fun hc => hne hc.2)
    · exact Or.inl (if_neg fun hc => hk hc.2)
  | sp k | pc k => exact Or.inl rfl

/-- A bit of F that belongs to no flag. -/
theorem given?_unused {w : Write} {k : Fin 8} (hw : ∀ v, w ≠ .register .f v)
    (hk : ∀ x : Flag, k.val ≠ x.position) : w.given? (.register .f k) = none := by
  cases w with
  | register x v =>
    have hx : Register.f ≠ x := by
      rintro rfl
      exact hw v rfl
    exact if_neg hx
  | pair p v => cases p <;> rfl
  | flag x on => exact if_neg fun h => hk x h.2
  | pc v => rfl

theorem unused_performAll {ws : List Write} (hw : ∀ v, Write.register .f v ∉ ws) (r : Registers)
    {k : Nat} (hk : k ∈ [5, 3, 1]) : Byte.bit (performAll ws r).f k = Byte.bit r.f k := by
  have hall : ∀ k ∈ [5, 3, 1], k < 8 ∧ ∀ x ∈ Flag.all, k ≠ x.position := by decide
  obtain ⟨hlt, hflag⟩ := hall k hk
  have hnone : latest? (Write.given? · (.register .f ⟨k, hlt⟩)) ws = none := by
    rw [latest?_eq_none_iff]
    intro w hmem
    apply given?_unused
    · rintro v rfl
      exact hw v hmem
    · exact fun x => hflag x x.mem_all
  have hl := r.bank.lane_performAll ws (.register .f ⟨k, hlt⟩)
  rw [hnone, ← bank_performAll] at hl
  exact hl

/-- The register file, a buffer in which names overlap, is a bank of separate registers to everyone
who writes and reads it. The latest write over a bit counts, writes without a common bit commute,
and the bits of F that belong to no flag change by a write of F only. -/
theorem registers_as_bank (r : Registers) (ws : List Write) :
    let n := performAll ws r
    (r.bank.performAll ws).Shows n ∧
      (∀ l, n.bank.lane l = (latest? (Write.given? · l) ws).getD (r.bank.lane l)) ∧
      (∀ v w : Write, v.Apart w → v.perform (w.perform n) = w.perform (v.perform n)) ∧
      (∀ (x y : Register) u v, x ≠ y → (n.set x u).set y v = (n.set y v).set x u) ∧
      (∀ (x y : Flag) on off, x ≠ y →
        (n.setFlag x on).setFlag y off = (n.setFlag y off).setFlag x on) ∧
      ((∀ v, Write.register .f v ∉ ws) → ∀ k ∈ [5, 3, 1], Byte.bit n.f k = Byte.bit r.f k) ∧
      ∀ s : Registers, n = s ↔
        n.a = s.a ∧ n.f = s.f ∧ n.bc = s.bc ∧ n.de = s.de ∧ n.hl = s.hl ∧ n.sp = s.sp ∧
          n.pc = s.pc ∧ n.wz = s.wz := by
  intro n
  have hn : n.bank = r.bank.performAll ws := r.bank_performAll ws
  refine ⟨?_, ?_, ?_, ?_, ?_, ?_, ?_⟩
  · rw [← hn]
    exact n.shows_bank
  · intro l
    rw [hn]
    exact r.bank.lane_performAll ws l
  · intro v w h
    exact perform_comm h n
  · intro x y u v h
    exact n.set_comm u h v
  · intro x y on off h
    exact perform_comm (apart_flag h.symm off on) n
  · intro hw k hk
    exact unused_performAll hw r hk
  · intro s
    refine ⟨fun h => ?_, fun ⟨ha, hf, hbc, hde, hhl, hsp, hpc, hwz⟩ =>
      ext_named ha hf hbc hde hhl hsp hpc hwz⟩
    rw [h]
    exact ⟨rfl, rfl, rfl, rfl, rfl, rfl, rfl, rfl⟩

/-- Writes of HL, of its low half and of the carry, over an F with its unused bits set. -/
theorem writes_through_three_views :
    let r := zero.set .f 0x2A
    let n := performAll [.pair .hl 0x1234, .register .l 0xFF, .flag .carry true] r
    n.hl.toNat = 0x12FF ∧ n.flag .carry = true ∧
      (n.setFlag .zero true).setPair .bc 7 = (n.setPair .bc 7).setFlag .zero true ∧
      Byte.bit n.f 5 = true := by
  intro r n
  obtain ⟨hshows, -, hcomm, -, -, hunused, -⟩ :=
    registers_as_bank r [.pair .hl 0x1234, .register .l 0xFF, .flag .carry true]
  have hapart : (Write.pair .bc 7).Apart (.flag .zero true) := by
    intro l
    cases l with
    | register x k => cases x <;> simp [Write.given?, Pair.halves?]
    | sp k | pc k => exact Or.inl rfl
  refine ⟨hshows.hl.trans (by decide), (hshows.flag .carry).trans (by decide),
    hcomm _ _ hapart, ?_⟩
  exact (hunused (by simp) 5 (by decide)).trans (by decide)

end Registers

end Micro8080
