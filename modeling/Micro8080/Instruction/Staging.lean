import Micro8080.Instruction.Timing
import Micro8080.Memory
import Micro8080.Registers

/-!
# Staging of operand bytes

Before an instruction runs, its operand bytes are read at PC, one after the other, and PC moves
past each of them; then the first one goes into Z and the second into W. `stage` says at once
what comes of the registers, from before the opcode was read. Addresses wrap around.
-/

namespace Micro8080.Instruction

/-- The byte at PC, and the registers with PC past it. -/
def fetchOperand (memory : Memory) (r : Registers) : Byte × Registers :=
  (memory.read r.pc, r.setPc (r.pc + 1))

variable (i : Instruction) (memory : Memory) (r : Registers)

/-- The registers after the operand bytes from PC on are read. -/
def fetchOperands : Registers :=
  match i.length with
  | 2 =>
    let (z, r) := fetchOperand memory r
    r.set .z z
  | 3 =>
    let (z, r) := fetchOperand memory r
    let (w, r) := fetchOperand memory r
    (r.set .z z).set .w w
  | _ => r

/-- The registers with the immediate operand in the latches. -/
def latch : Registers :=
  match i.immediate with
  | .none => r
  | .byte => r.set .z (memory.read (r.pc + 1))
  | .word => r.setPair .wz (memory.readWord (r.pc + 1))

def stage : Registers := (i.latch memory r).setPc (r.pc + UInt16.ofNat i.length)

@[simp] theorem pc_stage : (i.stage memory r).pc = r.pc + UInt16.ofNat i.length := by
  simp [stage]

theorem latch_of_word (h : i.immediate = .word) :
    i.latch memory r = (r.set .z (memory.read (r.pc + 1))).set .w (memory.read (r.pc + 2)) := by
  have ha : r.pc + 1 + 1 = r.pc + 2 := UInt16.add_assoc r.pc 1 1
  rw [latch, h, ← ha, r.set_comm _ (show Register.z ≠ .w by decide)]
  simp only [Registers.setPair_eq_set r (rfl : Pair.halves? .wz = some (.w, .z)), Memory.readWord,
    Word.high_ofBytes, Word.low_ofBytes]

theorem get_latch_of_ne {x : Register} (hw : x ≠ .w) (hz : x ≠ .z) :
    (i.latch memory r).get x = r.get x := by
  cases h : i.immediate with
  | none => simp [latch, h]
  | byte => simp [latch, h, hz]
  | word => simp [latch_of_word i memory r h, hw, hz]

theorem get_latch_z : (i.latch memory r).get .z =
    if 2 ≤ i.length then memory.read (r.pc + 1) else r.get .z := by
  cases h : i.immediate with
  | none => simp [latch, length, h, Immediate.size]
  | byte => simp [latch, length, h, Immediate.size]
  | word => simp [latch_of_word i memory r h, length, h, Immediate.size]

theorem get_latch_w : (i.latch memory r).get .w =
    if i.length = 3 then memory.read (r.pc + 2) else r.get .w := by
  cases h : i.immediate with
  | none => simp [latch, length, h, Immediate.size]
  | byte => simp [latch, length, h, Immediate.size]
  | word => simp [latch_of_word i memory r h, length, h, Immediate.size]

@[simp] theorem get_stage (x : Register) :
    (i.stage memory r).get x = (i.latch memory r).get x := by
  simp [stage]

theorem pair_latch {p : Pair} (hp : p ≠ .wz) : (i.latch memory r).pair p = r.pair p := by
  cases h : i.immediate with
  | none => simp [latch, h]
  | byte =>
    simp only [latch, h]
    refine r.pair_set_of_not_holds _ ?_
    cases p <;> first | decide | exact absurd rfl hp
  | word => simp [latch, h, hp]

theorem pair_stage {p : Pair} (hwz : p ≠ .wz) (hpc : p ≠ .pc) :
    (i.stage memory r).pair p = r.pair p := by
  rw [stage, Registers.pair_setPair, if_neg hpc, i.pair_latch memory r hwz]

@[simp] theorem sp_stage : (i.stage memory r).sp = r.sp := i.pair_stage memory r nofun nofun

@[simp] theorem hl_stage : (i.stage memory r).hl = r.hl := i.pair_stage memory r nofun nofun

theorem wz_stage (h : i.immediate = .word) :
    (i.stage memory r).wz = memory.readWord (r.pc + 1) := by
  simp [stage, latch, h]

/-- Behind the opcode the operand bytes are read one by one, and this is what comes of it. -/
theorem fetchOperands_setPc :
    i.fetchOperands memory (r.setPc (r.pc + 1)) = i.stage memory r := by
  have h2 : r.pc + 1 + 1 = r.pc + 2 := UInt16.add_assoc r.pc 1 1
  have h3 : r.pc + 2 + 1 = r.pc + 3 := UInt16.add_assoc r.pc 2 1
  cases h : i.immediate with
  | none => simp [fetchOperands, stage, latch, length, h, Immediate.size]
  | byte =>
    refine Registers.ext_get (fun x => ?_) ?_ ?_ <;>
      simp [fetchOperands, fetchOperand, stage, latch, length, h, Immediate.size, h2]
  | word =>
    refine Registers.ext_get (fun x => ?_) ?_ ?_
    · simp [fetchOperands, fetchOperand, stage, latch_of_word i memory r h, length, h,
        Immediate.size, h2]
    · simp [fetchOperands, fetchOperand, length, h, Immediate.size]
    · simp [fetchOperands, fetchOperand, length, h, Immediate.size, h2, h3]

end Micro8080.Instruction
