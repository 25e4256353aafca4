import Micro8080.Instruction
import Micro8080.Numeral
import Micro8080.Storage
import Micro8080.Ticks

/-!
# The machine

A machine has registers and memory, the opcode that it fetched last, a phase, and a count of
the ticks since it was made or reset. It is idle, or it has an instruction in flight, or a
fault has halted it; it leaves the last phase by a reset only. An opcode without an instruction
is a fault, because neither the length nor the timing of the rest is known then.
-/

namespace Micro8080

/-- The opcode stands for no instruction; it was fetched from `address`. -/
structure Fault where
  opcode : Byte
  address : Word
deriving DecidableEq

namespace Fault

def message (f : Fault) : String :=
  "unimplemented opcode 0x" ++ String.ofList (Numeral.padded 16 2 f.opcode.toNat) ++
    " at 0x" ++ String.ofList (Numeral.padded 16 4 f.address.toNat)

/-- The fault field by field, in decimal. -/
def describe (f : Fault) : String :=
  "UnimplementedOpcode \x7b opcode: " ++ String.ofList (Numeral.digits f.opcode.toNat) ++
    ", address: " ++ String.ofList (Numeral.digits f.address.toNat) ++ " \x7d"

end Fault

/-- The elapsed cycles of an instruction include the one of its fetch. -/
inductive Phase where
  | idle
  | executing (i : Instruction) (elapsed : Nat)
  | halted (f : Fault)
deriving DecidableEq

structure Machine extends Storage where
  opcode : Byte
  phase : Phase
  ticks : Ticks
deriving DecidableEq

namespace Machine

def new (memory : Memory) : Machine := ⟨⟨.zero, memory⟩, 0, .idle, .zero⟩

instance : Inhabited Machine := ⟨new .zero⟩

variable (m : Machine)

def reset : Machine :=
  { m with registers := .zero, opcode := 0, phase := .idle, ticks := .zero }

/-- The elapsed cycles of the instruction in flight. -/
def cycle : Nat :=
  match m.phase with
  | .executing _ elapsed => elapsed
  | .idle | .halted _ => 0

def busy : Bool :=
  match m.phase with
  | .executing _ _ => true
  | .idle | .halted _ => false

def fault? : Option Fault :=
  match m.phase with
  | .halted f => some f
  | .idle | .executing _ _ => none

/-- PC, widened for hosts that drive machines of any address width. -/
def programCounter : UInt32 := m.registers.pc.toUInt32

theorem reset_eq_new : m.reset = new m.memory := rfl

theorem fault?_eq_some_iff (f : Fault) : m.fault? = some f ↔ m.phase = .halted f := by
  unfold fault?
  split <;> simp_all

theorem busy_iff : m.busy = true ↔ ∃ i e, m.phase = .executing i e := by
  unfold busy
  split <;> simp_all

theorem idle_iff : m.phase = .idle ↔ m.busy = false ∧ m.fault? = none := by
  unfold busy fault?
  split <;> simp_all

end Machine

end Micro8080
