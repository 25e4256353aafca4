import Micro8080.Condition
import Micro8080.Instruction.Operand
import Micro8080.Memory
import Micro8080.Registers

/-!
# Registers and memory together

What instructions work on. `load` and `store` reach a byte operand wherever it is; the memory
operand is the cell at HL.
-/

namespace Micro8080

structure Storage where
  registers : Registers
  memory : Memory
deriving DecidableEq

namespace Storage

variable (s : Storage)

def set (x : Register) (v : Byte) : Storage := { s with registers := s.registers.set x v }

def setPair (p : Pair) (v : Word) : Storage := { s with registers := s.registers.setPair p v }

def setFlag (x : Flag) (on : Bool) : Storage := { s with registers := s.registers.setFlag x on }

def write (a : Word) (v : Byte) : Storage := { s with memory := s.memory.write a v }

def writeWord (a : Word) (v : Word) : Storage := { s with memory := s.memory.writeWord a v }

def load : Operand → Byte
  | .reg r => s.registers.get r.register
  | .memory => s.memory.read s.registers.hl

def store (x : Operand) (v : Byte) : Storage :=
  match x with
  | .reg r => s.set r.register v
  | .memory => s.write s.registers.hl v

/-- Sets all flags but the carry from the result of an operation. -/
def markResult (op : Condition.Operation) (result : Byte) : Storage :=
  (((s.setFlag .sign (Condition.negative result)).setFlag .zero (Condition.zero result)).setFlag
    .parity (Condition.evenParity result)).setFlag .auxCarry (Condition.auxCarry op result)

@[simp] theorem registers_set (x : Register) (v : Byte) :
    (s.set x v).registers = s.registers.set x v := rfl

@[simp] theorem memory_set (x : Register) (v : Byte) : (s.set x v).memory = s.memory := rfl

@[simp] theorem registers_setPair (p : Pair) (v : Word) :
    (s.setPair p v).registers = s.registers.setPair p v := rfl

@[simp] theorem memory_setPair (p : Pair) (v : Word) : (s.setPair p v).memory = s.memory := rfl

@[simp] theorem registers_setFlag (x : Flag) (on : Bool) :
    (s.setFlag x on).registers = s.registers.setFlag x on := rfl

@[simp] theorem memory_setFlag (x : Flag) (on : Bool) : (s.setFlag x on).memory = s.memory := rfl

@[simp] theorem registers_write (a : Word) (v : Byte) : (s.write a v).registers = s.registers := rfl

@[simp] theorem memory_write (a : Word) (v : Byte) :
    (s.write a v).memory = s.memory.write a v := rfl

@[simp] theorem registers_writeWord (a v : Word) : (s.writeWord a v).registers = s.registers := rfl

@[simp] theorem memory_writeWord (a v : Word) :
    (s.writeWord a v).memory = s.memory.writeWord a v := rfl

@[simp] theorem memory_markResult (op : Condition.Operation) (v : Byte) :
    (s.markResult op v).memory = s.memory := rfl

end Storage

end Micro8080
