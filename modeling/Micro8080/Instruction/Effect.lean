import Micro8080.Instruction
import Micro8080.Storage

/-!
# Effects of instructions

A routine is what the instructions of one family share. It runs on the opcode in the latch and
takes its operands from the fields of that byte, whatever the byte is: a wide pair from bits 5
and 4, byte operands from bits 5 to 3 and from bits 2 to 0. By then the operand bytes are in the
latches W and Z and PC is past the instruction, so only a jump writes PC. `exec` says the same
for instructions whose operands are known; run on the opcode of an instruction, its routine has
the effect of that instruction, which is not so for other opcodes.
-/

namespace Micro8080

inductive Routine where
  | nop
  | lxi
  | stax
  | ldax
  | inx
  | dcx
  | dad
  | inr
  | dcr
  | mvi
  | rlc
  | rrc
  | ral
  | rar
  | shld
  | lhld
  | sta
  | lda
  | cma
  | stc
  | cmc
  | mov
  | jmp
deriving DecidableEq

namespace Routine

variable (opcode : Byte) (s : Storage)

def destination : Operand := .ofCode (opcode.toNat / 8)

def source : Operand := .ofCode opcode.toNat

def wide : Wide := .ofCode (opcode.toNat / 16)

def run (routine : Routine) : Storage :=
  let r := s.registers
  let dst := destination opcode
  let rp := (wide opcode).pair
  match routine with
  | .nop => s
  | .lxi => s.setPair rp r.wz
  | .stax => s.write (r.pair rp) r.a
  | .ldax => s.set .a (s.memory.read (r.pair rp))
  | .inx => s.setPair rp (r.pair rp + 1)
  | .dcx => s.setPair rp (r.pair rp - 1)
  | .dad =>
    let sum := r.hl.toUInt32 + (r.pair rp).toUInt32
    (s.setPair .hl sum.toUInt16).setFlag .carry (Condition.carry .add sum)
  | .inr =>
    let v := s.load dst + 1
    (s.store dst v).markResult .increment v
  | .dcr =>
    let v := s.load dst - 1
    (s.store dst v).markResult .decrement v
  | .mvi => s.store dst (r.get .z)
  | .rlc =>
    let out := Condition.carry .shiftLeft r.a.toUInt32
    (s.setFlag .carry out).set .a (Byte.shiftInLow r.a out)
  | .rrc =>
    let out := Condition.carry .shiftRight r.a.toUInt32
    (s.setFlag .carry out).set .a (Byte.shiftInHigh r.a out)
  | .ral =>
    (s.setFlag .carry (Condition.carry .shiftLeft r.a.toUInt32)).set .a
      (Byte.shiftInLow r.a (r.flag .carry))
  | .rar =>
    (s.setFlag .carry (Condition.carry .shiftRight r.a.toUInt32)).set .a
      (Byte.shiftInHigh r.a (r.flag .carry))
  | .shld => s.writeWord r.wz r.hl
  | .lhld => s.setPair .hl (s.memory.readWord r.wz)
  | .sta => s.write r.wz r.a
  | .lda => s.set .a (s.memory.read r.wz)
  | .cma => s.set .a (~~~r.a)
  | .stc => s.setFlag .carry true
  | .cmc => s.setFlag .carry (!r.flag .carry)
  | .mov => s.store dst (s.load (source opcode))
  | .jmp => s.setPair .pc r.wz

end Routine

namespace Instruction

def routine : Instruction → Routine
  | .nop => .nop
  | .lxi _ => .lxi
  | .stax _ => .stax
  | .ldax _ => .ldax
  | .inx _ => .inx
  | .dcx _ => .dcx
  | .dad _ => .dad
  | .inr _ => .inr
  | .dcr _ => .dcr
  | .mvi _ => .mvi
  | .rlc => .rlc
  | .rrc => .rrc
  | .ral => .ral
  | .rar => .rar
  | .shld => .shld
  | .lhld => .lhld
  | .sta => .sta
  | .lda => .lda
  | .cma => .cma
  | .stc => .stc
  | .cmc => .cmc
  | .mov _ _ | .movToMemory _ => .mov
  | .jmp => .jmp

def exec (i : Instruction) (s : Storage) : Storage :=
  let r := s.registers
  match i with
  | .nop => s
  | .lxi rp => s.setPair rp.pair r.wz
  | .stax rp => s.write (r.pair rp.pair) r.a
  | .ldax rp => s.set .a (s.memory.read (r.pair rp.pair))
  | .inx rp => s.setPair rp.pair (r.pair rp.pair + 1)
  | .dcx rp => s.setPair rp.pair (r.pair rp.pair - 1)
  | .dad rp =>
    let sum := r.hl.toUInt32 + (r.pair rp.pair).toUInt32
    (s.setPair .hl sum.toUInt16).setFlag .carry (Condition.carry .add sum)
  | .inr x =>
    let v := s.load x + 1
    (s.store x v).markResult .increment v
  | .dcr x =>
    let v := s.load x - 1
    (s.store x v).markResult .decrement v
  | .mvi x => s.store x (r.get .z)
  | .rlc =>
    let out := Condition.carry .shiftLeft r.a.toUInt32
    (s.setFlag .carry out).set .a (Byte.shiftInLow r.a out)
  | .rrc =>
    let out := Condition.carry .shiftRight r.a.toUInt32
    (s.setFlag .carry out).set .a (Byte.shiftInHigh r.a out)
  | .ral =>
    (s.setFlag .carry (Condition.carry .shiftLeft r.a.toUInt32)).set .a
      (Byte.shiftInLow r.a (r.flag .carry))
  | .rar =>
    (s.setFlag .carry (Condition.carry .shiftRight r.a.toUInt32)).set .a
      (Byte.shiftInHigh r.a (r.flag .carry))
  | .shld => s.writeWord r.wz r.hl
  | .lhld => s.setPair .hl (s.memory.readWord r.wz)
  | .sta => s.write r.wz r.a
  | .lda => s.set .a (s.memory.read r.wz)
  | .cma => s.set .a (~~~r.a)
  | .stc => s.setFlag .carry true
  | .cmc => s.setFlag .carry (!r.flag .carry)
  | .mov dst src => s.store (.reg dst) (s.load src)
  | .movToMemory src => s.store .memory (s.load (.reg src))
  | .jmp => s.setPair .pc r.wz

end Instruction

namespace Routine

variable (s : Storage)

theorem run_opcode (i : Instruction) : i.routine.run i.opcode s = i.exec s := by
  cases i with
  | lxi rp | inx rp | dcx rp | dad rp => cases rp <;> rfl
  | stax rp | ldax rp => cases rp <;> rfl
  | inr x | dcr x | mvi x =>
    cases x with
    | memory => rfl
    | reg r => cases r <;> rfl
  | mov dst src =>
    cases src with
    | memory => cases dst <;> rfl
    | reg r => cases dst <;> cases r <;> rfl
  | movToMemory src => cases src <;> rfl
  | _ => rfl

theorem run_of_decode? {b : Byte} {i : Instruction} (h : Instruction.decode? b = some i) :
    i.routine.run b s = i.exec s := by
  rw [← Instruction.opcode_of_decode? h, run_opcode]

end Routine

end Micro8080
