import Micro8080.Proofs.FaultLatch

/-!
# Unknown opcodes

An opcode without an instruction is all that can stop a machine whose clock is not spent. The
tick that meets one has read that byte and nothing else: PC is past it, the latch and the fault
hold it, and the count of ticks includes the tick. As long as no host writes, the fault can be
looked up again in memory.
-/

namespace Micro8080.Machine

variable {m : Machine}

theorem tick_error_iff (hf : m.fault? = none) (hc : m.ticks.toNat + 1 < UInt64.size) :
    (∃ s, m.tick.result = .error s) ↔
      m.busy = false ∧ Instruction.lengthOf? m.nextOpcode = none := by
  rw [Instruction.lengthOf?_eq_none_iff]
  cases m.tickCase with
  | halted f phase tick =>
    rw [(m.fault?_eq_some_iff f).mpr phase] at hf
    cases hf
  | spent fault clock tick => omega
  | unknown phase clock opcode tick =>
    rw [tick, busy, phase]
    exact ⟨fun _ => ⟨rfl, opcode⟩, fun _ => ⟨_, rfl⟩⟩
  | fetch i phase clock opcode tick => simp [tick, opcode]
  | count i e phase clock elapsed tick => simp [tick, Run.done, busy, phase]
  | effect i e phase clock elapsed tick => simp [tick, Run.done, busy, phase]

theorem tick_of_error {s : Stop} (hf : m.fault? = none) (hc : m.ticks.toNat + 1 < UInt64.size)
    (h : m.tick.result = .error s) :
    m.tick = ⟨m.afterUnknown, [.halted m.nextFault], .error (.fault m.nextFault)⟩ := by
  obtain ⟨hb, ho⟩ := (tick_error_iff hf hc).mp ⟨s, h⟩
  exact m.tick_unknown (m.idle_iff.mpr ⟨hb, hf⟩) hc (Instruction.lengthOf?_eq_none_iff.mp ho)

/-- A latched fault is that of the cell right before PC. -/
def FaultInPlace (m : Machine) : Prop :=
  ∀ f, m.phase = .halted f →
    m.memory.read f.address = f.opcode ∧ m.registers.pc = f.address + 1

theorem faultInPlace_tick (h : m.FaultInPlace) : m.tick.machine.FaultInPlace := by
  cases m.tickCase with
  | halted f phase tick =>
    rw [tick]
    exact h
  | spent fault clock tick =>
    rw [tick]
    exact h
  | unknown phase clock opcode tick =>
    rw [tick]
    rintro f hf
    cases hf
    exact ⟨rfl, m.registers.pc_setPc _⟩
  | fetch i phase clock opcode tick =>
    rw [tick]
    exact nofun
  | count i e phase clock elapsed tick =>
    rw [tick]
    exact nofun
  | effect i e phase clock elapsed tick =>
    rw [tick]
    exact nofun

theorem faultInPlace_session {cs : List Command} (hcs : ∀ c ∈ cs, c.drives = true)
    (h : m.FaultInPlace) : (m.after cs).FaultInPlace := by
  obtain ⟨k, hm, _⟩ := session_eq_tickN (m := m) hcs
  rw [hm]
  exact tickN_keeps faultInPlace_tick k h

theorem fault_after_drives {cs : List Command} {f : Fault} (hcs : ∀ c ∈ cs, c.drives = true)
    (h : m.fault? = some f) : (m.after cs).fault? = some f := by
  have hp := (m.fault?_eq_some_iff f).mp h
  have hr : .reset ∉ cs := fun hc => nomatch hcs _ hc
  rw [after_of_halted hp hr]
  exact h

/-- A tick fails exactly if no instruction is in flight and the byte at PC stands for none. Then
it changes PC, the opcode latch, the fault and the count of ticks, and in a run without writes
the fault stays and names the byte right before PC. -/
theorem unknown_opcode_halts (hf : m.fault? = none) (hc : m.ticks.toNat + 1 < UInt64.size) :
    let b := m.memory.read m.registers.pc
    let f : Fault := ⟨b, m.registers.pc⟩
    ((∃ s, m.tick.result = .error s) ↔ m.busy = false ∧ Instruction.lengthOf? b = none) ∧
      (∀ s, m.tick.result = .error s →
        s = .fault f ∧
          ∃ t : Ticks, t.toNat = m.ticks.toNat + 1 ∧
            m.tick.machine =
              { m with
                registers := m.registers.setPc (m.registers.pc + 1)
                opcode := b
                phase := .halted f
                ticks := t } ∧
            m.tick.machine.registers.pc = m.registers.pc + 1 ∧
            m.tick.machine.registers.sp = m.registers.sp ∧
            ∀ x, m.tick.machine.registers.get x = m.registers.get x) ∧
      ∀ cs ds : List Command, (∀ c ∈ cs, c.drives = true) → (∀ c ∈ ds, c.drives = true) →
        ∀ g, (m.after cs).fault? = some g →
          let n := m.after (cs ++ ds)
          n.fault? = some g ∧ n.memory.read g.address = g.opcode ∧
            n.registers.pc = g.address + 1 := by
  intro b f
  refine ⟨tick_error_iff hf hc, ?_, ?_⟩
  · intro s hs
    have ht := tick_of_error hf hc hs
    rw [ht] at hs ⊢
    cases hs
    exact ⟨rfl, m.ticks.later 1, m.ticks.toNat_later hc, rfl, m.registers.pc_setPc _,
      m.registers.pair_setPair .pc .sp _, fun x => m.registers.get_setPc x _⟩
  · intro cs ds hcs hds g hg n
    have hn : n.fault? = some g := by
      simp only [n, after_append]
      exact fault_after_drives hds hg
    have hm : m.FaultInPlace := by
      intro e he
      rw [(m.fault?_eq_some_iff e).mpr he] at hf
      cases hf
    have hplace : n.FaultInPlace :=
      faultInPlace_session (fun c hmem => (List.mem_append.mp hmem).elim (hcs c) (hds c)) hm
    exact ⟨hn, hplace g ((n.fault?_eq_some_iff g).mp hn)⟩

/-- A halt at the last address: PC wraps around to the first. -/
theorem halt_at_last_address :
    let m : Machine :=
      { new (Memory.zero.write 0xFFFF 0x76) with registers := Registers.zero.setPc 0xFFFF }
    m.tick.result = .error (.fault ⟨0x76, 0xFFFF⟩) ∧ m.tick.machine.registers.pc = 0 := by
  intro m
  have hpc : m.registers.pc = 0xFFFF := Registers.zero.pc_setPc _
  have hb : m.memory.read m.registers.pc = 0x76 := by
    rw [hpc]
    exact Memory.read_write_self _ _ _
  obtain ⟨hiff, herr, _⟩ := unknown_opcode_halts (m := m) rfl (by decide)
  obtain ⟨s, hs⟩ := hiff.mpr ⟨rfl, by rw [hb]; rfl⟩
  obtain ⟨rfl, t, _, _, hafter, _⟩ := herr s hs
  rw [hs, hafter, hb, hpc]
  exact ⟨rfl, (by decide : (0xFFFF : Word) + 1 = 0)⟩

end Micro8080.Machine
