import Micro8080.Byte
import Micro8080.Instruction.Operand

/-!
# Instructions and their encoding

Every instruction has one opcode, and `decode?` finds the instruction that an opcode stands
for, if any. An opcode splits into a group of two bits and two fields of three bits; most
operands are read off the fields. A move from memory to memory does not exist.
-/

namespace Micro8080

inductive Instruction where
  | nop
  | lxi (rp : Wide)
  | stax (rp : Indirect)
  | ldax (rp : Indirect)
  | inx (rp : Wide)
  | dcx (rp : Wide)
  | dad (rp : Wide)
  | inr (x : Operand)
  | dcr (x : Operand)
  | mvi (x : Operand)
  | rlc
  | rrc
  | ral
  | rar
  | shld
  | lhld
  | sta
  | lda
  | cma
  | stc
  | cmc
  | mov (dst : Gpr) (src : Operand)
  | movToMemory (src : Gpr)
  | jmp
deriving DecidableEq

namespace Instruction

/-- The opcode of a group and its two fields. -/
def pack (group y z : Nat) : Byte := UInt8.ofNat (64 * group + 8 * y + z)

def opcode : Instruction → Byte
  | .nop => pack 0 0 0
  | .lxi rp => pack 0 (2 * rp.code) 1
  | .dad rp => pack 0 (2 * rp.code + 1) 1
  | .stax rp => pack 0 (2 * rp.code) 2
  | .ldax rp => pack 0 (2 * rp.code + 1) 2
  | .shld => pack 0 4 2
  | .lhld => pack 0 5 2
  | .sta => pack 0 6 2
  | .lda => pack 0 7 2
  | .inx rp => pack 0 (2 * rp.code) 3
  | .dcx rp => pack 0 (2 * rp.code + 1) 3
  | .inr x => pack 0 x.code 4
  | .dcr x => pack 0 x.code 5
  | .mvi x => pack 0 x.code 6
  | .rlc => pack 0 0 7
  | .rrc => pack 0 1 7
  | .ral => pack 0 2 7
  | .rar => pack 0 3 7
  | .cma => pack 0 5 7
  | .stc => pack 0 6 7
  | .cmc => pack 0 7 7
  | .mov dst src => pack 1 dst.code src.code
  | .movToMemory src => pack 1 6 src.code
  | .jmp => pack 3 0 3

/-- Direct and indirect moves of the accumulator and of HL. -/
def transferOf : Nat → Instruction
  | 0 => .stax .bc
  | 1 => .ldax .bc
  | 2 => .stax .de
  | 3 => .ldax .de
  | 4 => .shld
  | 5 => .lhld
  | 6 => .sta
  | _ => .lda

/-- Rotations and other operations on the accumulator and the carry. -/
def accumulatorOf? : Nat → Option Instruction
  | 0 => some .rlc
  | 1 => some .rrc
  | 2 => some .ral
  | 3 => some .rar
  | 5 => some .cma
  | 6 => some .stc
  | 7 => some .cmc
  | _ => none

def moveOf? : Operand → Operand → Option Instruction
  | .reg dst, src => some (.mov dst src)
  | .memory, .reg src => some (.movToMemory src)
  | .memory, .memory => none

/-- The instructions of group 0. -/
def lowOf? (y : Nat) : Nat → Option Instruction
  | 0 => if y = 0 then some .nop else none
  | 1 => some (if y % 2 = 0 then .lxi (.ofCode (y / 2)) else .dad (.ofCode (y / 2)))
  | 2 => some (transferOf y)
  | 3 => some (if y % 2 = 0 then .inx (.ofCode (y / 2)) else .dcx (.ofCode (y / 2)))
  | 4 => some (.inr (.ofCode y))
  | 5 => some (.dcr (.ofCode y))
  | 6 => some (.mvi (.ofCode y))
  | _ => accumulatorOf? y

def decode? (b : Byte) : Option Instruction :=
  let y := b.toNat / 8 % 8
  let z := b.toNat % 8
  match b.toNat / 64 with
  | 0 => lowOf? y z
  | 1 => moveOf? (.ofCode y) (.ofCode z)
  | 3 => if y = 0 ∧ z = 3 then some .jmp else none
  | _ => none

theorem pack_zero (y z : Nat) : pack 0 y z = UInt8.ofNat (z + 8 * y) :=
  congrArg UInt8.ofNat (by omega)

theorem decode?_opcode (i : Instruction) : decode? i.opcode = some i := by
  cases i with
  | lxi rp | inx rp | dcx rp | dad rp => cases rp <;> rfl
  | stax rp | ldax rp => cases rp <;> rfl
  | inr x | dcr x | mvi x =>
    cases x with
    | memory => rfl
    | reg r => cases r <;> rfl
  | mov dst src =>
    cases src with
    | memory => cases dst <;> rfl
    | reg r => cases dst <;> cases r <;> rfl
  | movToMemory src => cases src <;> rfl
  | _ => rfl

theorem opcode_of_decode? {b : Byte} {i : Instruction} (h : decode? b = some i) :
    i.opcode = b := by
  have hall : ∀ n : Fin 256, ∀ j ∈ decode? (UInt8.ofNat n), opcode j = UInt8.ofNat n := by
    decide +kernel
  have hb := hall ⟨b.toNat, b.toNat_lt⟩
  simp only [UInt8.ofNat_toNat] at hb
  exact hb i h

theorem decode?_eq_some_iff {b : Byte} {i : Instruction} :
    decode? b = some i ↔ i.opcode = b :=
  ⟨opcode_of_decode?, fun h => h ▸ decode?_opcode i⟩

theorem opcode_inj {i j : Instruction} : i.opcode = j.opcode ↔ i = j := by
  rw [← decode?_eq_some_iff, decode?_opcode, Option.some.injEq, eq_comm]

end Instruction

end Micro8080
