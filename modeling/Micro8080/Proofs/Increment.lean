import Micro8080.Proofs.Move

/-!
# Increments and decrements of a byte

An increment or a decrement leaves its result where the operand was, in a register or in the cell
at HL, and F reports on the result. The half carry is judged on the result as well; the carry and
the bits of F that are no flags stay, whatever the other flags were.
-/

namespace Micro8080

/-- The flag byte `f` tells about the result `v`, with `half` for the half carry, and has its other
bits from `old`. -/
structure Reports (old v : Byte) (half : Prop) (f : Byte) : Prop where
  sign : Flag.sign.read f = Byte.bit v 7
  zero : Flag.zero.read f = true ↔ v = 0
  auxCarry : Flag.auxCarry.read f = true ↔ half
  parity : Flag.parity.read f = true ↔ v.toBitVec.cpop.toNat % 2 = 0
  carry : Flag.carry.read f = Flag.carry.read old
  unused : ∀ k ∈ [5, 3, 1], Byte.bit f k = Byte.bit old k

namespace Storage

variable (s : Storage) (op : Condition.Operation) (v : Byte)

theorem peek_markResult :
    (s.markResult op v).peek =
      Function.update s.peek (.register .f) (s.markResult op v).registers.f := by
  simp only [markResult, peek_setFlag, Function.update_idem, registers_setFlag,
    Registers.f_setFlag]

theorem reports_markResult :
    Reports s.registers.f v (Condition.auxCarry op v = true) (s.markResult op v).registers.f where
  sign := by simp [markResult, Registers.f_setFlag, Condition.negative]
  zero := by simp [markResult, Registers.f_setFlag, Condition.zero]
  auxCarry := by simp [markResult, Registers.f_setFlag]
  parity := by simp [markResult, Registers.f_setFlag, Condition.evenParity, Byte.weight_eq_cpop]
  carry := s.bit_markResult v op (by decide)
  unused k hk := by
    have hall : ∀ k ∈ [5, 3, 1], ∀ x ∈ [Flag.sign, .zero, .parity, .auxCarry],
        k ≠ x.position := by decide
    exact s.bit_markResult v op (hall k hk)

end Storage

namespace Machine

section

variable {m : Machine} (hp : m.phase = .idle) (hc : m.ticks.toNat + 16 < UInt64.size)

include hp hc

theorem performs_of_mark {i : Instruction} {x : Operand} {op : Condition.Operation} {v : Byte}
    (ho : m.nextOpcode = i.opcode)
    (hcycles : i.cycles = if x = .memory then 10 else 5)
    (he : i.exec (m.staged i) = ((m.staged i).store x v).markResult op v) :
    ∃ f, m.Performs (if x = .memory then 10 else 5)
        (m.staging i ++ [(x.place m.registers, v), (.register .f, f)]) ∧
      Reports m.registers.f v (Condition.auxCarry op v = true) f := by
  let t := (m.staged i).store x v
  have hf : t.registers.f = m.registers.f :=
    (Storage.f_store _ x v).trans (Instruction.f_stage i _ _)
  rw [← hcycles]
  refine ⟨(t.markResult op v).registers.f, performs_of_exec hp hc ho ?_, ?_⟩
  · rw [he, Storage.peek_markResult, peek_store_staged]
    rfl
  · rw [← hf]
    exact t.reports_markResult op v

theorem performs_inr (x : Operand) (ho : m.nextOpcode = (Instruction.inr x).opcode) :
    let v := m.load x + 1
    ∃ f, m.Performs (if x = .memory then 10 else 5)
        (Pair.pc.bytes (m.registers.pc + 1) ++ [(x.place m.registers, v), (.register .f, f)]) ∧
      Reports m.registers.f v (v.toNat % 16 = 15) f := by
  intro v
  have hhalf : (Condition.auxCarry .increment v = true) = (v.toNat % 16 = 15) := by
    simp [Condition.auxCarry]
  rw [← hhalf]
  refine performs_of_mark hp hc ho ?_ ?_
  · cases x <;> rfl
  · rw [Instruction.exec, load_staged]

theorem performs_dcr (x : Operand) (ho : m.nextOpcode = (Instruction.dcr x).opcode) :
    let v := m.load x - 1
    ∃ f, m.Performs (if x = .memory then 10 else 5)
        (Pair.pc.bytes (m.registers.pc + 1) ++ [(x.place m.registers, v), (.register .f, f)]) ∧
      Reports m.registers.f v (v.toNat % 16 = 0) f := by
  intro v
  have hhalf : (Condition.auxCarry .decrement v = true) = (v.toNat % 16 = 0) := by
    simp [Condition.auxCarry]
  rw [← hhalf]
  refine performs_of_mark hp hc ho ?_ ?_
  · cases x <;> rfl
  · rw [Instruction.exec, load_staged]

end

/-- The ticks and the effect of an increment and of a decrement of each of the eight operands. -/
theorem increment_step {m : Machine} (hp : m.phase = .idle)
    (hc : m.ticks.toNat + 16 < UInt64.size) (x : Operand) :
    let p := x.place m.registers
    let cycles := if x = .memory then 10 else 5
    let pc := Pair.pc.bytes (m.registers.pc + 1)
    (m.nextOpcode = UInt8.ofNat (0x04 + 8 * x.code) →
      let v := m.peek p + 1
      ∃ f, m.Performs cycles (pc ++ [(p, v), (.register .f, f)]) ∧
        Reports m.registers.f v (v.toNat % 16 = 15) f) ∧
    (m.nextOpcode = UInt8.ofNat (0x05 + 8 * x.code) →
      let v := m.peek p - 1
      ∃ f, m.Performs cycles (pc ++ [(p, v), (.register .f, f)]) ∧
        Reports m.registers.f v (v.toNat % 16 = 0) f) := by
  intro p cycles pc
  rw [← Storage.load_eq_peek]
  constructor
  · intro ho
    exact performs_inr hp hc x (ho.trans (Instruction.pack_zero _ _).symm)
  · intro ho
    exact performs_dcr hp hc x (ho.trans (Instruction.pack_zero _ _).symm)

/-- An increment of the last byte, in the cell behind the opcode, and a decrement of 0 in B, with
the carry set before. Both results have an even number of ones. -/
theorem increment_wraps_around :
    let m (b : Byte) : Machine :=
      { new ((Memory.zero.write 0 b).write 1 0xFF) with
        registers := (Registers.zero.set .f 0x2B).setPair .hl 1 }
    let inr := (m 0x34).step
    let dcr := (m 0x05).step
    (inr.result = .ok 10 ∧ inr.machine.peek (.cell 1) = 0 ∧
        Flag.zero.read (inr.machine.peek (.register .f)) = true ∧
        Flag.parity.read (inr.machine.peek (.register .f)) = true) ∧
      (dcr.result = .ok 5 ∧ dcr.machine.peek (.register .b) = 0xFF ∧
        Flag.carry.read (dcr.machine.peek (.register .f)) = true ∧
        Flag.parity.read (dcr.machine.peek (.register .f)) = true) := by
  intro m inr dcr
  have hpc (b : Byte) : (m b).registers.pc = 0 := by
    change ((Registers.zero.set .f 0x2B).setPair .hl 1).pc = 0
    decide
  have hhl (b : Byte) : (m b).registers.hl = 1 := by simp [m]
  have hold (b : Byte) : (m b).registers.f = 0x2B := by simp [m]
  have ho (b : Byte) : (m b).nextOpcode = b := by
    rw [nextOpcode_of_pc (hpc b)]
    simp [m, new]
  have hc (b : Byte) : (m b).ticks.toNat + 16 < UInt64.size :=
    show Ticks.zero.toNat + 16 < UInt64.size by decide
  have hcell : (m 0x34).peek (Operand.memory.place (m 0x34).registers) + 1 = 0 := by
    have hm : (m 0x34).memory.read 1 = 0xFF := by simp [m, new]
    rw [Operand.place, hhl]
    exact (congrArg (· + 1) hm).trans (by decide)
  have hb : (m 0x05).peek ((Operand.reg .b).place (m 0x05).registers) - 1 = 0xFF := by
    change ((Registers.zero.set .f 0x2B).setPair .hl 1).get .b - 1 = 0xFF
    decide
  obtain ⟨f, hinr, hf⟩ := (increment_step (m := m 0x34) rfl (hc _) .memory).1 (ho _)
  obtain ⟨g, hdcr, hg⟩ := (increment_step (m := m 0x05) rfl (hc _) (.reg .b)).2 (ho _)
  rw [hcell] at hinr hf
  rw [hb] at hdcr hg
  rw [hold] at hg
  refine ⟨⟨hinr.result, ?_, ?_, ?_⟩, hdcr.result, ?_, ?_, ?_⟩
  · rw [hinr.bytes, hpc, Operand.place, hhl]
    rfl
  · rw [hinr.bytes, overwrite_append]
    exact hf.zero.mpr rfl
  · rw [hinr.bytes, overwrite_append]
    exact hf.parity.mpr (by decide)
  · rw [hdcr.bytes, overwrite_append]
    rfl
  · rw [hdcr.bytes, overwrite_append]
    exact hg.carry.trans (by decide)
  · rw [hdcr.bytes, overwrite_append]
    exact hg.parity.mpr (by decide)

end Machine

end Micro8080
