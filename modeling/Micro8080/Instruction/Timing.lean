import Micro8080.Instruction

/-!
# Length and timing of instructions

An instruction is its opcode and an immediate operand of up to two bytes. It takes a fixed
number of clock cycles, more if it touches memory, and always more than one.
-/

namespace Micro8080

/-- The operand bytes that follow an opcode. -/
inductive Immediate where
  | none
  | byte
  | word
deriving DecidableEq

def Immediate.size : Immediate → Nat
  | .none => 0
  | .byte => 1
  | .word => 2

namespace Instruction

def immediate : Instruction → Immediate
  | .mvi _ => .byte
  | .lxi _ | .shld | .lhld | .sta | .lda | .jmp => .word
  | _ => .none

def length (i : Instruction) : Nat := 1 + i.immediate.size

def cycles : Instruction → Nat
  | .nop | .rlc | .rrc | .ral | .rar | .cma | .stc | .cmc => 4
  | .inx _ | .dcx _ => 5
  | .inr (.reg _) | .dcr (.reg _) | .mov _ (.reg _) => 5
  | .stax _ | .ldax _ => 7
  | .mvi (.reg _) | .mov _ .memory | .movToMemory _ => 7
  | .lxi _ | .dad _ | .jmp => 10
  | .inr .memory | .dcr .memory | .mvi .memory => 10
  | .sta | .lda => 13
  | .shld | .lhld => 16

/-- The length of the instruction that an opcode stands for. -/
def lengthOf? (b : Byte) : Option Nat := (decode? b).map length

theorem lengthOf?_eq_none_iff {b : Byte} : lengthOf? b = none ↔ decode? b = none :=
  Option.map_eq_none_iff

variable (i : Instruction)

theorem length_pos : 0 < i.length := Nat.lt_add_right _ Nat.zero_lt_one

theorem four_le_cycles : 4 ≤ i.cycles := by
  unfold cycles
  split <;> decide

theorem cycles_le : i.cycles ≤ 16 := by
  unfold cycles
  split <;> decide

end Instruction

end Micro8080
