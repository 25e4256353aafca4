import Micro8080.Proofs.Place

/-!
# Transfers by address and of words

The accumulator and HL move to and from cells, a pair takes a word, and a jump gives PC one. The
word or the address comes from the bytes behind the opcode, low byte first as in memory, or from a
pair, which has its high byte first. Addresses wrap around, and a cell that is written may belong
to the instruction itself.
-/

namespace Micro8080.Machine

section

variable {m : Machine} (hp : m.phase = .idle) (hc : m.ticks.toNat + 16 < UInt64.size)

include hp hc

theorem performs_lxi (rp : Wide) (ho : m.nextOpcode = (Instruction.lxi rp).opcode) :
    m.Performs 10 (m.staging (.lxi rp) ++ rp.pair.bytes m.operand) := by
  refine performs_of_exec (i := .lxi rp) hp hc ho ?_
  rw [Instruction.exec, m.wz_staged rfl]
  exact Storage.peek_setPair _ rp.pair m.operand

theorem performs_sta (ho : m.nextOpcode = Instruction.sta.opcode) :
    m.Performs 13 (m.staging .sta ++ [(.cell m.operand, m.registers.a)]) := by
  refine performs_of_exec (i := .sta) hp hc ho ?_
  rw [Instruction.exec, m.wz_staged rfl, a_staged]
  exact Storage.peek_write _ m.operand m.registers.a

theorem performs_lda (ho : m.nextOpcode = Instruction.lda.opcode) :
    m.Performs 13 (m.staging .lda ++ [(.register .a, m.memory.read m.operand)]) := by
  refine performs_of_exec (i := .lda) hp hc ho ?_
  rw [Instruction.exec, m.wz_staged rfl]
  exact Storage.peek_set _ .a (m.memory.read m.operand)

/-- The halves of HL go to memory with the low one first. -/
theorem performs_shld (ho : m.nextOpcode = Instruction.shld.opcode) :
    m.Performs 16 (m.staging .shld ++
      [(.cell m.operand, m.registers.get .l), (.cell (m.operand + 1), m.registers.get .h)]) := by
  refine performs_of_exec (i := .shld) hp hc ho ?_
  have hl : m.registers.hl = Word.ofBytes (m.registers.get .h) (m.registers.get .l) :=
    m.registers.pair_eq_ofBytes rfl
  rw [Instruction.exec, m.wz_staged rfl, hl_staged, Storage.peek_writeWord, hl, Word.high_ofBytes,
    Word.low_ofBytes]

theorem performs_lhld (ho : m.nextOpcode = Instruction.lhld.opcode) :
    m.Performs 16 (m.staging .lhld ++
      [(.register .h, m.memory.read (m.operand + 1)),
        (.register .l, m.memory.read m.operand)]) := by
  have hb : Pair.hl.bytes (m.memory.readWord m.operand) =
      [(.register .h, m.memory.read (m.operand + 1)),
        (.register .l, m.memory.read m.operand)] := by
    simp [Pair.bytes, Pair.high, Pair.low, Memory.readWord]
  refine performs_of_exec (i := .lhld) hp hc ho ?_
  rw [Instruction.exec, m.wz_staged rfl, ← hb]
  exact Storage.peek_setPair _ .hl (m.memory.readWord m.operand)

theorem performs_stax (rp : Indirect) (ho : m.nextOpcode = (Instruction.stax rp).opcode) :
    m.Performs 7 (m.staging (.stax rp) ++
      [(.cell (m.registers.pair rp.pair), m.registers.a)]) := by
  refine performs_of_exec (i := .stax rp) hp hc ho ?_
  rw [Instruction.exec, m.pair_staged _ rp.pair_ne_wz rp.pair_ne_pc, a_staged]
  exact Storage.peek_write _ _ _

theorem performs_ldax (rp : Indirect) (ho : m.nextOpcode = (Instruction.ldax rp).opcode) :
    m.Performs 7 (m.staging (.ldax rp) ++
      [(.register .a, m.memory.read (m.registers.pair rp.pair))]) := by
  refine performs_of_exec (i := .ldax rp) hp hc ho ?_
  rw [Instruction.exec, m.pair_staged _ rp.pair_ne_wz rp.pair_ne_pc]
  exact Storage.peek_set _ _ _

/-- The address behind a jump is lost. -/
theorem performs_jmp (ho : m.nextOpcode = Instruction.jmp.opcode) :
    m.Performs 10 (Pair.wz.bytes m.operand ++ Pair.pc.bytes m.operand) := by
  have h : m.Performs 10 (m.staging .jmp ++ Pair.pc.bytes m.operand) := by
    refine performs_of_exec (i := .jmp) hp hc ho ?_
    rw [Instruction.exec, m.wz_staged rfl]
    exact Storage.peek_setPair _ .pc m.operand
  refine h.congr ?_
  have hs : m.staging .jmp = Pair.wz.bytes m.operand ++ Pair.pc.bytes (m.registers.pc + 3) := rfl
  rw [hs, List.append_assoc, overwrite_append, overwrite_bytes_bytes, overwrite_append]

end

/-- The ticks and the effect of the transfers: the address or word `v` is the one at PC + 1, and
after every instruction but the jump PC is behind it. -/
theorem transfer_step {m : Machine} (hp : m.phase = .idle)
    (hc : m.ticks.toNat + 16 < UInt64.size) :
    let r := m.registers
    let v := Word.ofBytes (m.memory.read (r.pc + 2)) (m.memory.read (r.pc + 1))
    let fetched := Pair.wz.bytes v ++ Pair.pc.bytes (r.pc + 3)
    (∀ rp : Wide, m.nextOpcode = UInt8.ofNat (0x01 + 16 * rp.code) →
      m.Performs 10 (fetched ++ rp.pair.bytes v)) ∧
    (m.nextOpcode = 0x32 → m.Performs 13 (fetched ++ [(.cell v, r.a)])) ∧
    (m.nextOpcode = 0x3A → m.Performs 13 (fetched ++ [(.register .a, m.memory.read v)])) ∧
    (m.nextOpcode = 0x22 →
      m.Performs 16 (fetched ++ [(.cell v, r.get .l), (.cell (v + 1), r.get .h)])) ∧
    (m.nextOpcode = 0x2A →
      m.Performs 16 (fetched ++
        [(.register .h, m.memory.read (v + 1)), (.register .l, m.memory.read v)])) ∧
    (∀ rp : Indirect, m.nextOpcode = UInt8.ofNat (0x02 + 16 * rp.code) →
      m.Performs 7 (Pair.pc.bytes (r.pc + 1) ++ [(.cell (r.pair rp.pair), r.a)])) ∧
    (∀ rp : Indirect, m.nextOpcode = UInt8.ofNat (0x0A + 16 * rp.code) →
      m.Performs 7 (Pair.pc.bytes (r.pc + 1) ++
        [(.register .a, m.memory.read (r.pair rp.pair))])) ∧
    (m.nextOpcode = 0xC3 → m.Performs 10 (Pair.wz.bytes v ++ Pair.pc.bytes v)) := by
  intro r v fetched
  have hv : m.operand = v := m.operand_eq
  simp only [fetched, ← hv]
  refine ⟨?_, performs_sta hp hc, performs_lda hp hc, performs_shld hp hc, performs_lhld hp hc,
    ?_, ?_, performs_jmp hp hc⟩
  · intro rp ho
    refine performs_lxi hp hc rp (ho.trans ?_)
    cases rp <;> rfl
  · intro rp ho
    refine performs_stax hp hc rp (ho.trans ?_)
    cases rp <;> rfl
  · intro rp ho
    refine performs_ldax hp hc rp (ho.trans ?_)
    cases rp <;> rfl

/-- The eight kinds of transfer at address 0 with the operand 0xFFFF: the store of HL goes on at
the first address, over its own opcode. -/
theorem transfers_at_last_address :
    let m (b : Byte) : Machine :=
      { new (((Memory.zero.write 0 b).write 1 0xFF).write 2 0xFF) with
        registers := ((Registers.zero.set .a 0x5A).setPair .bc 1).setPair .hl 0x1234 }
    (m 0x31).step.machine.peek .spHigh = 0xFF ∧
      (m 0x32).step.machine.peek (.cell 0xFFFF) = 0x5A ∧
      (m 0x3A).step.machine.peek (.register .a) = 0 ∧
      (m 0x22).step.machine.peek (.cell 0) = 0x12 ∧
      (m 0x2A).step.machine.peek (.register .h) = 0x2A ∧
      (m 0x02).step.machine.peek (.cell 1) = 0x5A ∧
      (m 0x0A).step.machine.peek (.register .a) = 0xFF ∧
      (m 0xC3).step.machine.peek .pcLow = 0xFF := by
  intro m
  have h0 (b : Byte) : (m b).memory.read 0 = b := by simp [m, new]
  have h1 (b : Byte) : (m b).memory.read 1 = 0xFF := by simp [m, new]
  have h2 (b : Byte) : (m b).memory.read 2 = 0xFF := by simp [m, new]
  have hlast (b : Byte) : (m b).memory.read 0xFFFF = 0 := by simp [m, new]
  have hpc (b : Byte) : (m b).registers.pc = 0 := by simp [m]
  have ha (b : Byte) : (m b).registers.a = 0x5A := by simp [m]
  have hbc (b : Byte) : (m b).registers.pair Indirect.bc.pair = 1 := by simp [m, Indirect.pair]
  have ho (b : Byte) : (m b).nextOpcode = b := (nextOpcode_of_pc (hpc b)).trans (h0 b)
  have hv (b : Byte) : Word.ofBytes ((m b).memory.read ((m b).registers.pc + 2))
      ((m b).memory.read ((m b).registers.pc + 1)) = 0xFFFF := by
    rw [hpc, UInt16.zero_add, UInt16.zero_add, h1, h2]
    decide
  have hnext : (0xFFFF : Word) + 1 = 0 := by decide
  have hc (b : Byte) : (m b).ticks.toNat + 16 < UInt64.size := by
    change Ticks.zero.toNat + 16 < UInt64.size
    decide
  have h (b : Byte) := transfer_step (m := m b) rfl (hc b)
  simp only [hv, hnext] at h
  obtain ⟨hlxi, -⟩ := h 0x31
  obtain ⟨-, hsta, -⟩ := h 0x32
  obtain ⟨-, -, hlda, -⟩ := h 0x3A
  obtain ⟨-, -, -, hshld, -⟩ := h 0x22
  obtain ⟨-, -, -, -, hlhld, -⟩ := h 0x2A
  obtain ⟨-, -, -, -, -, hstax, -⟩ := h 0x02
  obtain ⟨-, -, -, -, -, -, hldax, -⟩ := h 0x0A
  obtain ⟨-, -, -, -, -, -, -, hjmp⟩ := h 0xC3
  rw [(hlxi .sp (ho _)).bytes, (hsta (ho _)).bytes, (hlda (ho _)).bytes, (hshld (ho _)).bytes,
    (hlhld (ho _)).bytes, (hstax .bc (ho _)).bytes, (hldax .bc (ho _)).bytes, (hjmp (ho _)).bytes]
  simp only [ha, hbc, h0, h1, hlast]
  have hh : (m 0x22).registers.get .h = 0x12 := by decide
  refine ⟨rfl, ?_, ?_, ?_, ?_, ?_, ?_, rfl⟩
  · exact overwrite_concat_self _ _ _ _
  · exact overwrite_concat_self _ _ _ _
  · simp [overwrite_append, hh]
  · simp [overwrite_append]
  · exact overwrite_concat_self _ _ _ _
  · exact overwrite_concat_self _ _ _ _

end Micro8080.Machine
