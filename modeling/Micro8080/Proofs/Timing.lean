import Micro8080.Proofs.Effect
import Micro8080.Proofs.Session

/-!
# Timing of instructions

An instruction of `N` cycles takes `N` ticks. The first one fetches it and stages its operand
bytes, and from then on the machine stays as `Staged` says while the ticks only count. The last
one applies the effect to that state and fetches nothing. Ticks are commands of a host here, so
every answer on the way is part of the statement. A step gives all these ticks at once. Unless the
instruction is a jump, PC is behind it then, and unless it stores, memory is what it was.
-/

namespace Micro8080.Machine

variable {m n : Machine} {i : Instruction}

section Step

@[simp] theorem phase_afterStep : (m.afterStep i).phase = .idle := rfl

theorem registers_afterStep :
    (m.afterStep i).registers = (i.exec ⟨i.stage m.memory m.registers, m.memory⟩).registers := rfl

theorem memory_afterStep (hi : i.storing = false) : (m.afterStep i).memory = m.memory :=
  Instruction.memory_exec (m.afterFetch i).toStorage hi

theorem pc_afterStep (hj : i ≠ .jmp) :
    (m.afterStep i).registers.pc = m.registers.pc + UInt16.ofNat i.length :=
  (Instruction.pc_exec (m.afterFetch i).toStorage hj).trans (m.pc_afterFetch i)

theorem toNat_ticks_afterStep (hc : m.ticks.toNat + i.cycles < UInt64.size) :
    (m.afterStep i).ticks.toNat = m.ticks.toNat + i.cycles := by
  have hi := i.four_le_cycles
  have ht : (m.afterStep i).ticks = m.ticks.later i.cycles := by
    simp only [afterStep, afterFetch, Ticks.later_later]
    rw [Nat.add_sub_cancel' (by omega)]
  rw [ht, m.ticks.toNat_later hc]

theorem obey_step_of_known (hp : m.phase = .idle)
    (hd : Instruction.decode? m.nextOpcode = some i)
    (hc : m.ticks.toNat + i.cycles < UInt64.size) :
    m.obey .step = ⟨m.afterStep i, [.fetchOf m.registers.pc i], .ticks i.cycles⟩ := by
  rw [obey, step_of_known hp hd hc]
  rfl

theorem obey_step_of_unknown (hp : m.phase = .idle)
    (hd : Instruction.decode? m.nextOpcode = none) (hc : m.ticks.toNat + 1 < UInt64.size) :
    m.obey .step = ⟨m.afterUnknown, [.halted m.nextFault], .stopped (.fault m.nextFault)⟩ := by
  rw [obey, step_of_unknown hp hd hc]
  rfl

end Step

/-- `n` is the machine `m` after `k` cycles of the instruction `i` at its PC. -/
structure Staged (m : Machine) (i : Instruction) (k : Nat) (n : Machine) : Prop where
  phase : n.phase = .executing i k
  busy : n.busy = true
  cycle : n.cycle = k
  opcode : n.opcode = m.memory.read m.registers.pc
  pc : n.registers.pc = m.registers.pc + UInt16.ofNat i.length
  z : n.registers.get .z =
    if 2 ≤ i.length then m.memory.read (m.registers.pc + 1) else m.registers.get .z
  w : n.registers.get .w =
    if i.length = 3 then m.memory.read (m.registers.pc + 2) else m.registers.get .w
  kept : ∀ x, x ≠ .w → x ≠ .z → n.registers.get x = m.registers.get x
  sp : n.registers.sp = m.registers.sp
  memory : n.memory = m.memory
  ticks : n.ticks.toNat = m.ticks.toNat + k

theorem staged_afterFetch {k : Nat} (hk : m.ticks.toNat + (1 + k) < UInt64.size) :
    m.Staged i (1 + k) ((m.afterFetch i).afterCounting i (1 + k) k) where
  phase := rfl
  busy := rfl
  cycle := rfl
  opcode := rfl
  pc := i.pc_stage m.memory m.registers
  z := (Instruction.get_stage i m.memory m.registers .z).trans
    (i.get_latch_z m.memory m.registers)
  w := (Instruction.get_stage i m.memory m.registers .w).trans
    (i.get_latch_w m.memory m.registers)
  kept x hw hz := (Instruction.get_stage i m.memory m.registers x).trans
    (i.get_latch_of_ne m.memory m.registers hw hz)
  sp := i.sp_stage m.memory m.registers
  memory := rfl
  ticks := by
    rw [← m.ticks.toNat_later hk, ← Ticks.later_later]
    rfl

variable (hp : m.phase = .idle) (hd : Instruction.decode? m.nextOpcode = some i)

include hp hd

theorem tickN_of_known {k : Nat} (hk : 1 + k < i.cycles)
    (hc : m.ticks.toNat + (1 + k) < UInt64.size) :
    tickN (1 + k) m =
      ⟨(m.afterFetch i).afterCounting i (1 + k) k, [.fetchOf m.registers.pc i], .ok ()⟩ := by
  have hn : (m.afterFetch i).ticks.toNat = m.ticks.toNat + 1 := m.ticks.toNat_later (by omega)
  have hf : tickN 1 m = ⟨m.afterFetch i, [.fetchOf m.registers.pc i], .ok ()⟩ :=
    tickN_one.trans (m.tick_fetch hp (by omega) hd)
  rw [tickN_add_of_ok hf, tickN_counting rfl hk (by omega)]
  rfl

theorem staged_session (hc : m.ticks.toNat + i.cycles < UInt64.size) {k : Nat} (hk : 1 ≤ k)
    (hlt : k < i.cycles) :
    m.answers (List.replicate k .tick) = List.replicate k .done ∧
      m.Staged i k (m.after (List.replicate k .tick)) := by
  obtain ⟨j, rfl⟩ := Nat.exists_eq_add_of_le hk
  obtain ⟨ha, hm, _⟩ := session_of_tickN (tickN_of_known hp hd hlt (by omega))
  exact ⟨ha, hm ▸ staged_afterFetch (by omega)⟩

/-- An instruction occupies exactly as many ticks as it has cycles, and neither does its effect
show before the last of them nor the next opcode get fetched on it. -/
theorem instruction_timing (hc : m.ticks.toNat + i.cycles < UInt64.size) :
    (∀ k, 1 ≤ k → k < i.cycles →
      m.answers (List.replicate k .tick) = List.replicate k .done ∧
        m.Staged i k (m.after (List.replicate k .tick))) ∧
    let staged := m.after (List.replicate (i.cycles - 1) .tick)
    let last := staged.obey .tick
    last.answer = .done ∧ last.events = [] ∧
      last.machine.toStorage = i.exec staged.toStorage ∧
      last.machine.phase = .idle ∧ last.machine.opcode = m.memory.read m.registers.pc ∧
      last.machine.ticks.toNat = m.ticks.toNat + i.cycles := by
  have hi := i.four_le_cycles
  refine ⟨fun k hk hlt => staged_session hp hd hc hk hlt, ?_⟩
  intro staged last
  have hs : m.Staged i (i.cycles - 1) staged := (staged_session hp hd hc (by omega) (by omega)).2
  have ht := hs.ticks
  have hl : last = ⟨staged.afterEffect i 1, [], .done⟩ := by
    change (staged.tick).respond _ = _
    rw [staged.tick_effect hs.phase (by omega) (by omega)]
    rfl
  have hlatch : Instruction.decode? staged.opcode = some i := hs.opcode ▸ hd
  rw [hl]
  refine ⟨rfl, rfl, staged.toStorage_afterEffect hlatch 1, rfl, hs.opcode, ?_⟩
  change (staged.ticks.later 1).toNat = _
  rw [Ticks.toNat_later _ (by omega)]
  omega

omit hp hd

/-- A load of BC whose operand bytes wrap around to the first addresses. -/
theorem lxi_timing_at_last_address :
    let m : Machine :=
      { new (Memory.zero.write 0xFFFF 0x01) with registers := Registers.zero.setPc 0xFFFF }
    m.Staged (.lxi .bc) 9 (m.after (List.replicate 9 .tick)) := by
  intro m
  have hd : Instruction.decode? m.nextOpcode = some (.lxi .bc) := by
    have ho : m.nextOpcode = (Memory.zero.write 0xFFFF 0x01).read 0xFFFF :=
      nextOpcode_of_pc (by simp [m])
    rw [ho, Memory.read_write_self]
    rfl
  exact ((instruction_timing rfl hd (by decide)).1 9 (by decide) (by decide)).2

end Micro8080.Machine
