import Micro8080.Machine.Command

/-!
# What a tick can do

A tick goes in one of six ways. `TickCase` lists them, each with its condition and with the
whole run, and is the only place that opens the definition of a tick. A property of machines
that ticks and writes of the host keep is `Stable`, and a stable property of new machines holds
at the end of every session.
-/

namespace Micro8080

namespace Ticks

variable (t : Ticks) {a b : Nat}

/-- The count after `n` more ticks. -/
def later (n : Nat) : Ticks := ⟨t.count + UInt64.ofNat n⟩

@[simp] theorem later_zero : t.later 0 = t := by
  simp [later]

@[simp] theorem later_later (a b : Nat) : (t.later a).later b = t.later (a + b) := by
  simp only [later, UInt64.ofNat_add, UInt64.add_assoc]

theorem toNat_later (h : t.toNat + a < UInt64.size) : (t.later a).toNat = t.toNat + a := by
  have hm : (t.toNat + a) % UInt64.size = t.toNat + a := Nat.mod_eq_of_lt h
  simpa [later, toNat] using hm

theorem next?_of_lt (h : t.toNat + 1 < UInt64.size) : t.next? = some (t.later 1) :=
  (t.next?_eq_some_iff _).mpr (t.toNat_later h)

theorem next?_of_le (h : UInt64.size ≤ t.toNat + 1) : t.next? = none :=
  (t.add?_eq_none_iff ⟨1⟩).mpr h

end Ticks

namespace Machine

variable (m : Machine) (i : Instruction)

/-- The next opcode, taken from the cell at PC. -/
def nextOpcode : Byte := m.memory.read m.registers.pc

/-- The fault that the next opcode raises if it stands for no instruction. -/
def nextFault : Fault := ⟨m.nextOpcode, m.registers.pc⟩

theorem nextOpcode_of_pc {m : Machine} {a : Word} (h : m.registers.pc = a) :
    m.nextOpcode = m.memory.read a := by
  rw [nextOpcode, h]

@[simp] theorem pc_new (memory : Memory) : (new memory).registers.pc = 0 := Registers.pair_zero .pc

@[simp] theorem nextOpcode_new (memory : Memory) : (new memory).nextOpcode = memory.read 0 :=
  nextOpcode_of_pc (pc_new memory)

def afterUnknown : Machine :=
  { m with
    registers := m.registers.setPc (m.registers.pc + 1)
    opcode := m.nextOpcode
    phase := .halted m.nextFault
    ticks := m.ticks.later 1 }

def afterFetch : Machine :=
  { m with
    registers := i.stage m.memory m.registers
    opcode := m.nextOpcode
    phase := .executing i 1
    ticks := m.ticks.later 1 }

/-- After `k` ticks that only counted, up to `elapsed` cycles. -/
def afterCounting (elapsed k : Nat) : Machine :=
  { m with phase := .executing i elapsed, ticks := m.ticks.later k }

/-- After `k` ticks of which the last one ran the routine of the instruction. -/
def afterEffect (k : Nat) : Machine :=
  { m with
    toStorage := i.routine.run m.opcode m.toStorage
    phase := .idle
    ticks := m.ticks.later k }

/-- After a step that executed the instruction as a whole. -/
def afterStep : Machine :=
  { m.afterFetch i with
    toStorage := i.exec (m.afterFetch i).toStorage
    phase := .idle
    ticks := (m.afterFetch i).ticks.later (i.cycles - 1) }

theorem toStorage_afterEffect {i : Instruction} (hd : Instruction.decode? m.opcode = some i)
    (k : Nat) : (m.afterEffect i k).toStorage = i.exec m.toStorage :=
  Routine.run_of_decode? m.toStorage hd

@[simp] theorem pc_afterFetch :
    (m.afterFetch i).registers.pc = m.registers.pc + UInt16.ofNat i.length :=
  i.pc_stage m.memory m.registers

/-- A fetch leaves the opcode of its instruction in the latch, for the routine. -/
theorem afterEffect_afterFetch {i : Instruction}
    (hd : Instruction.decode? m.nextOpcode = some i) :
    (m.afterFetch i).afterEffect i (i.cycles - 1) = m.afterStep i := by
  have hlatch : Instruction.decode? (m.afterFetch i).opcode = some i := hd
  rw [afterEffect, afterStep, Routine.run_of_decode? _ hlatch]

theorem tick_unknown (hp : m.phase = .idle) (hc : m.ticks.toNat + 1 < UInt64.size)
    (hd : Instruction.decode? m.nextOpcode = none) :
    m.tick = ⟨m.afterUnknown, [.halted m.nextFault], .error (.fault m.nextFault)⟩ :=
  m.tick_of_unknown hp (m.ticks.next?_of_lt hc) rfl hd

theorem tick_fetch {i : Instruction} (hp : m.phase = .idle)
    (hc : m.ticks.toNat + 1 < UInt64.size) (hd : Instruction.decode? m.nextOpcode = some i) :
    m.tick = ⟨m.afterFetch i, [.fetchOf m.registers.pc i], .ok ()⟩ :=
  m.tick_of_known hp (m.ticks.next?_of_lt hc) rfl hd

theorem tick_count {i : Instruction} {e : Nat} (hp : m.phase = .executing i e)
    (hc : m.ticks.toNat + 1 < UInt64.size) (he : e + 1 < i.cycles) :
    m.tick = .done (m.afterCounting i (e + 1) 1) () := by
  rw [m.tick_of_executing hp (m.ticks.next?_of_lt hc), settle_of_lt _ he]
  rfl

theorem tick_effect {i : Instruction} {e : Nat} (hp : m.phase = .executing i e)
    (hc : m.ticks.toNat + 1 < UInt64.size) (he : i.cycles ≤ e + 1) :
    m.tick = .done (m.afterEffect i 1) () := by
  rw [m.tick_of_executing hp (m.ticks.next?_of_lt hc), settle_of_le _ he]
  rfl

inductive TickCase : Prop
  | halted (f : Fault) (phase : m.phase = .halted f) (tick : m.tick = .stopped m (.fault f))
  | spent (fault : m.fault? = none) (clock : UInt64.size ≤ m.ticks.toNat + 1)
      (tick : m.tick = .stopped m .clockSpent)
  | unknown (phase : m.phase = .idle) (clock : m.ticks.toNat + 1 < UInt64.size)
      (opcode : Instruction.decode? m.nextOpcode = none)
      (tick : m.tick =
        ⟨m.afterUnknown, [.halted m.nextFault], .error (.fault m.nextFault)⟩)
  | fetch (i : Instruction) (phase : m.phase = .idle) (clock : m.ticks.toNat + 1 < UInt64.size)
      (opcode : Instruction.decode? m.nextOpcode = some i)
      (tick : m.tick = ⟨m.afterFetch i, [.fetchOf m.registers.pc i], .ok ()⟩)
  | count (i : Instruction) (e : Nat) (phase : m.phase = .executing i e)
      (clock : m.ticks.toNat + 1 < UInt64.size) (elapsed : e + 1 < i.cycles)
      (tick : m.tick = .done (m.afterCounting i (e + 1) 1) ())
  | effect (i : Instruction) (e : Nat) (phase : m.phase = .executing i e)
      (clock : m.ticks.toNat + 1 < UInt64.size) (elapsed : i.cycles ≤ e + 1)
      (tick : m.tick = .done (m.afterEffect i 1) ())

theorem tickCase : m.TickCase := by
  by_cases clock : m.ticks.toNat + 1 < UInt64.size
  · cases phase : m.phase with
    | idle =>
      cases opcode : Instruction.decode? m.nextOpcode with
      | none => exact .unknown phase clock opcode (m.tick_unknown phase clock opcode)
      | some i => exact .fetch i phase clock opcode (m.tick_fetch phase clock opcode)
    | executing i e =>
      by_cases elapsed : e + 1 < i.cycles
      · exact .count i e phase clock elapsed (m.tick_count phase clock elapsed)
      · have hle := Nat.le_of_not_lt elapsed
        exact .effect i e phase clock hle (m.tick_effect phase clock hle)
    | halted f => exact .halted f phase (m.tick_of_halted phase)
  · have hs : UInt64.size ≤ m.ticks.toNat + 1 := Nat.le_of_not_lt clock
    cases fault : m.fault? with
    | none => exact .spent fault hs (m.tick_of_spent fault (m.ticks.next?_of_le hs))
    | some f =>
      have phase := (m.fault?_eq_some_iff f).mp fault
      exact .halted f phase (m.tick_of_halted phase)

end Machine

end Micro8080
