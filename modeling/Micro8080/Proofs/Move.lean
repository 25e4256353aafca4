import Micro8080.Proofs.Place

/-!
# Moves

A move copies a byte between two operands, an immediate move the byte behind the opcode to one.
The operand M is the cell that HL names when the instruction begins. So a load of H or L from it
reads the old address, and a store may hit the instruction itself.
-/

namespace Micro8080.Machine

theorem peek_store_staged {m : Machine} {i : Instruction} (x : Operand) (v : Byte) :
    ((m.staged i).store x v).peek =
      overwrite (m.staged i).peek [(x.place m.registers, v)] := by
  rw [Storage.peek_store, place_staged]
  rfl

section

variable {m : Machine} (hp : m.phase = .idle) (hc : m.ticks.toNat + 16 < UInt64.size)

include hp hc

theorem performs_mov (dst : Gpr) (src : Operand)
    (ho : m.nextOpcode = (Instruction.mov dst src).opcode) :
    m.Performs (if src = .memory then 7 else 5)
      (Pair.pc.bytes (m.registers.pc + 1) ++ [(.register dst.register, m.load src)]) := by
  have hcycles : (Instruction.mov dst src).cycles = if src = .memory then 7 else 5 := by
    cases src <;> rfl
  rw [← hcycles]
  refine performs_of_exec hp hc ho ?_
  rw [Instruction.exec, load_staged]
  exact peek_store_staged (.reg dst) (m.load src)

theorem performs_movToMemory (src : Gpr)
    (ho : m.nextOpcode = (Instruction.movToMemory src).opcode) :
    m.Performs 7
      (Pair.pc.bytes (m.registers.pc + 1) ++ [(.cell m.registers.hl, m.load (.reg src))]) := by
  refine performs_of_exec (i := .movToMemory src) hp hc ho ?_
  rw [Instruction.exec, load_staged]
  exact peek_store_staged .memory (m.load (.reg src))

theorem performs_mvi (x : Operand) (ho : m.nextOpcode = (Instruction.mvi x).opcode) :
    let v := m.memory.read (m.registers.pc + 1)
    m.Performs (if x = .memory then 10 else 7)
      ((.register .z, v) :: Pair.pc.bytes (m.registers.pc + 2) ++ [(x.place m.registers, v)]) := by
  intro v
  have hcycles : (Instruction.mvi x).cycles = if x = .memory then 10 else 7 := by
    cases x <;> rfl
  have hz : (m.staged (.mvi x)).registers.get .z = v :=
    (Instruction.get_stage _ _ _ _).trans (Instruction.get_latch_z _ _ _)
  rw [← hcycles]
  refine performs_of_exec (i := .mvi x) hp hc ho ?_
  rw [Instruction.exec, hz]
  exact peek_store_staged x v

end

/-- The ticks and the effect of the moves: of all pairs of operands but M to M, and of the byte
behind the opcode to each of the eight operands. -/
theorem move_step {m : Machine} (hp : m.phase = .idle)
    (hc : m.ticks.toNat + 16 < UInt64.size) :
    let r := m.registers
    (∀ dst src : Operand, m.nextOpcode = UInt8.ofNat (0x40 + 8 * dst.code + src.code) →
      m.nextOpcode ≠ 0x76 →
      m.Performs (if dst = .memory ∨ src = .memory then 7 else 5)
        (Pair.pc.bytes (r.pc + 1) ++ [(dst.place r, m.peek (src.place r))])) ∧
    ∀ dst : Operand, m.nextOpcode = UInt8.ofNat (0x06 + 8 * dst.code) →
      let v := m.memory.read (r.pc + 1)
      m.Performs (if dst = .memory then 10 else 7)
        ((.register .z, v) :: Pair.pc.bytes (r.pc + 2) ++ [(dst.place r, v)]) := by
  intro r
  constructor
  · intro dst src ho hne
    rw [← Storage.load_eq_peek]
    cases dst with
    | reg dst =>
      have hcycles : (if Operand.reg dst = .memory ∨ src = .memory then 7 else 5) =
          if src = .memory then 7 else 5 := by simp
      rw [hcycles]
      exact performs_mov hp hc dst src ho
    | memory =>
      cases src with
      | reg src => exact performs_movToMemory hp hc src ho
      | memory => exact absurd ho hne
  · intro dst ho
    exact performs_mvi hp hc dst (ho.trans (Instruction.pack_zero _ _).symm)

/-- A load of H from the cell that HL names, which holds the opcode of the load, and an immediate
store over its own opcode. -/
theorem moves_on_own_opcode :
    let m (b : Byte) : Machine := new ((Memory.zero.write 0 b).write 1 0x77)
    (m 0x66).step.machine.peek (.register .h) = 0x66 ∧
      (m 0x36).step.machine.peek (.cell 0) = 0x77 := by
  intro m
  have hpc (b : Byte) : (m b).registers.pc = 0 := pc_new _
  have hhl : (m 0x66).registers.hl = 0 := Registers.pair_zero .hl
  have h0 (b : Byte) : (m b).memory.read 0 = b := by simp [m, new]
  have ho (b : Byte) : (m b).nextOpcode = b := (nextOpcode_of_pc (hpc b)).trans (h0 b)
  have hb (b : Byte) : (m b).memory.read ((m b).registers.pc + 1) = 0x77 := by
    rw [hpc]
    simp [m, new]
  have hne : (m 0x66).nextOpcode ≠ 0x76 := by
    rw [ho]
    decide
  have hload := (move_step (m := m 0x66) rfl (by decide)).1 (.reg .h) .memory (ho _) hne
  have hstore := (move_step (m := m 0x36) rfl (by decide)).2 .memory (ho _)
  simp only [hb] at hstore
  rw [hload.bytes, hstore.bytes]
  have hcell : (m 0x66).peek (Operand.memory.place (m 0x66).registers) = 0x66 := by
    rw [Operand.place, hhl]
    exact h0 _
  refine ⟨(overwrite_concat_self _ _ _ _).trans hcell, ?_⟩
  rw [Operand.place, show (m 0x36).registers.hl = 0 from Registers.pair_zero .hl]
  exact overwrite_concat_self _ _ _ _

end Micro8080.Machine
