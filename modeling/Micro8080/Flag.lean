import Micro8080.Byte

/-!
# Status flags

The flag byte F holds five flags. Its bits 5, 3 and 1 belong to no flag, and setting or
clearing a flag leaves them and the other flags alone.
-/

namespace Micro8080

inductive Flag where
  | sign
  | zero
  | auxCarry
  | parity
  | carry
deriving DecidableEq

namespace Flag

def all : List Flag := [.sign, .zero, .auxCarry, .parity, .carry]

/-- The bit of F that holds the flag. -/
def position : Flag → Nat
  | .sign => 7
  | .zero => 6
  | .auxCarry => 4
  | .parity => 2
  | .carry => 0

variable (f g : Flag) (b : Byte)

def mask : Byte := Byte.mask f.position

def read : Bool := Byte.bit b f.position

def write (on : Bool) : Byte := Byte.withBit b f.position on

theorem position_lt : f.position < 8 := by
  cases f <;> decide

theorem position_inj {f g : Flag} : f.position = g.position ↔ f = g := by
  cases f <;> cases g <;> decide

theorem mem_all : f ∈ all := by
  cases f <;> decide

@[simp] theorem read_write (on : Bool) :
    f.read (g.write b on) = if f = g then on else f.read b := by
  simp only [read, write, Byte.bit_withBit b g.position_lt, position_inj]

theorem bit_write (on : Bool) (i : Nat) :
    Byte.bit (f.write b on) i = if i = f.position then on else Byte.bit b i :=
  Byte.bit_withBit b f.position_lt on i

theorem write_read : f.write b (f.read b) = b := by
  apply Byte.ext_bit
  intro i _
  rw [bit_write]
  split
  · next h => rw [h, read]
  · rfl

end Flag

end Micro8080
