import Micro8080.Proofs.Place

/-!
# Arithmetic of pairs

Increments and decrements of a pair wrap around and leave F alone. A double add adds a pair to HL,
both as they were, and sets the carry if the full sum exceeds a byte. This is not the carry out of
the word: the two differ for all sums between the two limits.
-/

namespace Micro8080.Machine

/-- Two words never overflow the register that they are added in. -/
theorem toNat_widened_add (a b : Word) : (a.toUInt32 + b.toUInt32).toNat = a.toNat + b.toNat := by
  have ha := a.toNat_lt
  have hb := b.toNat_lt
  simp
  omega

theorem carry_widened_add (a b : Word) :
    Condition.carry .add (a.toUInt32 + b.toUInt32) = decide (0xFF < a.toNat + b.toNat) := by
  rw [Bool.eq_iff_iff, Condition.carry_add_iff, toNat_widened_add, decide_eq_true_iff]

section

variable {m : Machine} (hp : m.phase = .idle) (hc : m.ticks.toNat + 16 < UInt64.size)

include hp hc

theorem performs_inx (rp : Wide) (ho : m.nextOpcode = (Instruction.inx rp).opcode) :
    m.Performs 5 (Pair.pc.bytes (m.registers.pc + 1) ++
      rp.pair.bytes (m.registers.pair rp.pair + 1)) := by
  refine performs_of_exec (i := .inx rp) hp hc ho ?_
  rw [Instruction.exec, m.pair_staged _ rp.pair_ne_wz rp.pair_ne_pc]
  exact Storage.peek_setPair _ _ _

theorem performs_dcx (rp : Wide) (ho : m.nextOpcode = (Instruction.dcx rp).opcode) :
    m.Performs 5 (Pair.pc.bytes (m.registers.pc + 1) ++
      rp.pair.bytes (m.registers.pair rp.pair - 1)) := by
  refine performs_of_exec (i := .dcx rp) hp hc ho ?_
  rw [Instruction.exec, m.pair_staged _ rp.pair_ne_wz rp.pair_ne_pc]
  exact Storage.peek_setPair _ _ _

theorem performs_dad (rp : Wide) (ho : m.nextOpcode = (Instruction.dad rp).opcode) :
    let hl := m.registers.hl
    let w := m.registers.pair rp.pair
    m.Performs 10 (Pair.pc.bytes (m.registers.pc + 1) ++ (Pair.hl.bytes (hl + w) ++
      [(.register .f, Flag.carry.write m.registers.f (decide (0xFF < hl.toNat + w.toNat)))])) := by
  intro hl w
  refine performs_of_exec (i := .dad rp) hp hc ho ?_
  have hsum : (hl.toUInt32 + w.toUInt32).toUInt16 = hl + w := by simp
  have hf : (m.staged (.dad rp)).registers.f = m.registers.f := Instruction.f_stage _ _ _
  rw [Instruction.exec, m.pair_staged _ rp.pair_ne_wz rp.pair_ne_pc, hl_staged]
  simp only [Storage.peek_setFlag, Storage.peek_setPair, Storage.registers_setPair,
    Registers.f_setPair, overwrite_append, overwrite_cons, overwrite_nil]
  rw [hf, hsum, carry_widened_add]

end

/-- The ticks and the effect of an increment, a decrement and a double add of each of the four
pairs. The carry of a double add is early: it differs from the carry out of the word. -/
theorem pair_arithmetic_step {m : Machine} (hp : m.phase = .idle)
    (hc : m.ticks.toNat + 16 < UInt64.size) (rp : Wide) :
    let r := m.registers
    let w := r.pair rp.pair
    let sum := r.hl.toNat + w.toNat
    let pc := Pair.pc.bytes (r.pc + 1)
    (m.nextOpcode = UInt8.ofNat (0x03 + 16 * rp.code) →
      m.Performs 5 (pc ++ rp.pair.bytes (w + 1))) ∧
    (m.nextOpcode = UInt8.ofNat (0x0B + 16 * rp.code) →
      m.Performs 5 (pc ++ rp.pair.bytes (w - 1))) ∧
    (m.nextOpcode = UInt8.ofNat (0x09 + 16 * rp.code) →
      (r.hl.toUInt32 + w.toUInt32).toNat = sum ∧
      ∃ f, m.Performs 10 (pc ++ (Pair.hl.bytes (r.hl + w) ++ [(.register .f, f)])) ∧
        (Flag.carry.read f = true ↔ 0xFF < sum) ∧
        (Flag.carry.read f ≠ decide (0xFFFF < sum) ↔ 0x100 ≤ sum ∧ sum ≤ 0xFFFF) ∧
        ∀ k, k ≠ Flag.carry.position → Byte.bit f k = Byte.bit r.f k) := by
  intro r w sum pc
  refine ⟨?_, ?_, ?_⟩
  · intro ho
    refine performs_inx hp hc rp (ho.trans ?_)
    cases rp <;> rfl
  · intro ho
    refine performs_dcx hp hc rp (ho.trans ?_)
    cases rp <;> rfl
  · intro ho
    let f := Flag.carry.write r.f (decide (0xFF < sum))
    have hf : Flag.carry.read f = decide (0xFF < sum) := Flag.read_write _ _ _ _
    have ho' : m.nextOpcode = (Instruction.dad rp).opcode := ho.trans (by cases rp <;> rfl)
    refine ⟨toNat_widened_add r.hl w, f, performs_dad hp hc rp ho', ?_, ?_, ?_⟩
    · rw [hf, decide_eq_true_iff]
    · rw [hf, ne_eq, decide_eq_decide]
      omega
    · intro k hk
      exact (Flag.carry.bit_write r.f _ k).trans (if_neg hk)

/-- SP and BC wrap around, and doubling 0x0180 in HL sets the carry though nothing leaves the
word. -/
theorem pair_arithmetic_at_limits :
    let m (b : Byte) : Machine :=
      { new (Memory.zero.write 0 b) with
        registers := (Registers.zero.setPair .hl 0x0180).setPair .sp 0xFFFF }
    let inx := (m 0x33).step.machine
    let dcx := (m 0x0B).step.machine
    let dad := (m 0x29).step.machine
    (inx.peek .spHigh = 0 ∧ inx.peek .spLow = 0) ∧
      (dcx.peek (.register .b) = 0xFF ∧ dcx.peek (.register .c) = 0xFF) ∧
      dad.peek (.register .h) = 3 ∧ Flag.carry.read (dad.peek (.register .f)) = true := by
  intro m inx dcx dad
  have hpc (b : Byte) : (m b).registers.pc = 0 := by simp [m]
  have hsp (b : Byte) : (m b).registers.pair .sp = 0xFFFF := by simp [m]
  have hbc (b : Byte) : (m b).registers.pair .bc = 0 := by simp [m]
  have hhl (b : Byte) : (m b).registers.hl = 0x0180 := by simp [m]
  have ho (b : Byte) : (m b).nextOpcode = b := by
    rw [nextOpcode_of_pc (hpc b)]
    simp [m, new]
  have hc (b : Byte) : (m b).ticks.toNat + 16 < UInt64.size :=
    show Ticks.zero.toNat + 16 < UInt64.size by decide
  have hinx := (pair_arithmetic_step (m := m 0x33) rfl (hc _) .sp).1 (ho _)
  have hdcx := (pair_arithmetic_step (m := m 0x0B) rfl (hc _) .bc).2.1 (ho _)
  obtain ⟨-, f, hdad, hcarry, -, -⟩ :=
    (pair_arithmetic_step (m := m 0x29) rfl (hc _) .hl).2.2 (ho _)
  simp only [Wide.pair, hsp] at hinx
  simp only [Wide.pair, hbc] at hdcx
  simp only [Wide.pair, hhl] at hdad hcarry
  refine ⟨⟨?_, ?_⟩, ⟨?_, ?_⟩, ?_, ?_⟩
  · rw [hinx.bytes, overwrite_append]
    change Word.high (0xFFFF + 1) = 0
    decide
  · rw [hinx.bytes, overwrite_append]
    change Word.low (0xFFFF + 1) = 0
    decide
  · rw [hdcx.bytes, overwrite_append]
    change Word.high (0 - 1) = 0xFF
    decide
  · rw [hdcx.bytes, overwrite_append]
    change Word.low (0 - 1) = 0xFF
    decide
  · rw [hdad.bytes, overwrite_append]
    change Word.high (0x0180 + 0x0180) = 3
    decide
  · rw [hdad.bytes, overwrite_append]
    exact hcarry.mpr (by decide)

end Micro8080.Machine
