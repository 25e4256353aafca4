/-!
# Bytes and their bits

Bits are numbered from the least significant one. `bit` reads one bit of a byte and `withBit`
replaces it; the bits determine the byte.
-/

namespace Micro8080

abbrev Byte := UInt8

namespace Byte

variable (b : Byte) (i : Nat)

def bit : Bool := b.toBitVec.getLsbD i

/-- The byte whose only set bit is bit `i`. -/
def mask : Byte := UInt8.ofBitVec (1#8 <<< i)

def withBit (on : Bool) : Byte := if on then b ||| mask i else b &&& ~~~mask i

/-- Moves every bit one place up; `on` enters at the bottom. -/
def shiftInLow (on : Bool) : Byte := withBit (b <<< 1) 0 on

/-- Moves every bit one place down; `on` enters at the top. -/
def shiftInHigh (on : Bool) : Byte := withBit (b >>> 1) 7 on

/-- The number of set bits. -/
def weight : Nat := (List.range 8).countP (bit b)

theorem bit_eq_testBit : bit b i = b.toNat.testBit i := rfl

theorem countP_bit_range (k : Nat) :
    (List.range k).countP (bit b) = b.toBitVec.cpopNatRec k 0 := by
  induction k with
  | zero => rfl
  | succ k ih =>
    rw [List.range_succ, List.countP_append, ih, List.countP_singleton, BitVec.cpopNatRec_succ,
      BitVec.cpopNatRec_add, bit]
    cases b.toBitVec.getLsbD k <;> simp

theorem weight_eq_cpop : weight b = b.toBitVec.cpop.toNat := by
  rw [BitVec.toNat_cpop, ← countP_bit_range, weight]

theorem ext_bit {b c : Byte} (h : ∀ i < 8, bit b i = bit c i) : b = c := by
  apply UInt8.toBitVec_inj.mp
  exact BitVec.eq_of_getLsbD_eq h

theorem bit_mask {i : Nat} (hi : i < 8) (j : Nat) : bit (mask i) j = decide (j = i) := by
  simp only [bit, mask]
  by_cases hj : j < 8
  · by_cases hji : j = i
    · simp [hji, hi]
    · simp [BitVec.getLsbD_shiftLeft, hji]
      omega
  · simp [BitVec.getLsbD_of_ge _ _ (Nat.le_of_not_lt hj)]
    omega

theorem bit_withBit {i : Nat} (hi : i < 8) (on : Bool) (j : Nat) :
    bit (withBit b i on) j = if j = i then on else bit b j := by
  have hm := bit_mask hi j
  by_cases hj : j < 8
  · cases on <;> by_cases hji : j = i <;> simp_all [bit, withBit]
  · have hji : j ≠ i := by omega
    simp only [if_neg hji, bit]
    rw [BitVec.getLsbD_of_ge _ _ (Nat.le_of_not_lt hj),
      BitVec.getLsbD_of_ge _ _ (Nat.le_of_not_lt hj)]

theorem bit_shiftInLow (on : Bool) {i : Nat} (hi : i < 8) :
    bit (shiftInLow b on) i = if i = 0 then on else bit b (i - 1) := by
  rw [shiftInLow, bit_withBit _ (by decide)]
  by_cases h : i = 0
  · simp [h]
  · simp [h, hi, bit, -BitVec.getLsbD_eq_getElem]

theorem bit_shiftInHigh (on : Bool) (i : Nat) :
    bit (shiftInHigh b on) i = if i = 7 then on else bit b (i + 1) := by
  rw [shiftInHigh, bit_withBit _ (by decide)]
  by_cases h : i = 7
  · simp [h]
  · simp [h, bit, BitVec.getLsbD_ushiftRight, Nat.add_comm]

end Byte

end Micro8080
