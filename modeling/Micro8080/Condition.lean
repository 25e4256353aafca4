import Micro8080.Byte

/-!
# Conditions of results

What the status flags report about the result of an operation: whether it is zero, whether
it is negative, the parity of its bits, and the carries that the kind of operation raises.
-/

namespace Micro8080.Condition

inductive Operation where
  | increment
  | decrement
  | add
  | shiftLeft
  | shiftRight
deriving DecidableEq

def zero (result : Byte) : Bool := result == 0

def negative (result : Byte) : Bool := Byte.bit result 7

def evenParity (result : Byte) : Bool := Byte.weight result % 2 == 0

/-- The carry out of the low nibble, judged on the byte after the update: an increment
raises it when the low nibble is now 15, a decrement when it is now 0. -/
def auxCarry (op : Operation) (result : Byte) : Bool :=
  match op with
  | .increment => result.toNat % 16 == 15
  | .decrement => result.toNat % 16 == 0
  | .add | .shiftLeft | .shiftRight => false

/-- An addition carries when the full sum exceeds a byte; a shift carries the bit that
leaves its operand at the end it shifts to. -/
def carry (op : Operation) (value : UInt32) : Bool :=
  match op with
  | .add => decide (0xFF < value)
  | .shiftLeft => value.toNat.testBit 7
  | .shiftRight => value.toNat.testBit 0
  | .increment | .decrement => false

variable (b : Byte)

theorem carry_add_iff (sum : UInt32) : carry .add sum = true ↔ 0xFF < sum.toNat := by
  simp [carry, UInt32.lt_iff_toNat_lt]

theorem carry_shiftLeft : carry .shiftLeft b.toUInt32 = Byte.bit b 7 := by
  simp [carry, Byte.bit_eq_testBit]

theorem carry_shiftRight : carry .shiftRight b.toUInt32 = Byte.bit b 0 := by
  simp [carry, Byte.bit_eq_testBit]

end Micro8080.Condition
