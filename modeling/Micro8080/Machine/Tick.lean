import Micro8080.Instruction.Effect
import Micro8080.Instruction.Staging
import Micro8080.Machine.Run

/-!
# One tick of the clock

On a tick an idle machine fetches the opcode at PC and stages the operand bytes of its
instruction. The routine of the instruction runs on the tick on which its cycles run out, and the
ticks between only count. An opcode without an instruction halts the machine before any operand is
read. A halted machine ignores the clock, and so does one whose tick count is at its limit.
-/

namespace Micro8080.Machine

variable (m : Machine)

/-- Runs the routine of an instruction whose cycles have run out on the opcode in the latch, else
keeps the instruction in flight. -/
def settle (i : Instruction) (elapsed : Nat) : Machine :=
  if i.cycles ≤ elapsed then
    { m with toStorage := i.routine.run m.opcode m.toStorage, phase := .idle }
  else { m with phase := .executing i elapsed }

def fetch : Run Unit :=
  let address := m.registers.pc
  let opcode := m.memory.read address
  let registers := m.registers.setPc (address + 1)
  match Instruction.decode? opcode with
  | none =>
    let f : Fault := ⟨opcode, address⟩
    ⟨{ m with registers, opcode, phase := .halted f }, [.halted f], .error (.fault f)⟩
  | some i =>
    let staged : Machine := { m with registers := i.fetchOperands m.memory registers, opcode }
    ⟨staged.settle i 1, [.fetched opcode address i.length i.cycles], .ok ()⟩

def tick : Run Unit :=
  match m.phase, m.ticks.next? with
  | .halted f, _ => .stopped m (.fault f)
  | _, none => .stopped m .clockSpent
  | .idle, some t => { m with ticks := t }.fetch
  | .executing i elapsed, some t => .done ({ m with ticks := t }.settle i (elapsed + 1)) ()

theorem settle_of_le {i : Instruction} {e : Nat} (h : i.cycles ≤ e) :
    m.settle i e = { m with toStorage := i.routine.run m.opcode m.toStorage, phase := .idle } :=
  if_pos h

theorem settle_of_lt {i : Instruction} {e : Nat} (h : e < i.cycles) :
    m.settle i e = { m with phase := .executing i e } := if_neg (Nat.not_le.mpr h)

theorem tick_of_halted {f : Fault} (h : m.phase = .halted f) :
    m.tick = .stopped m (.fault f) := by
  rw [tick, h]

theorem tick_of_spent (h : m.fault? = none) (ht : m.ticks.next? = none) :
    m.tick = .stopped m .clockSpent := by
  unfold fault? at h
  rw [tick, ht]
  split <;> simp_all

theorem tick_of_idle (h : m.phase = .idle) {t : Ticks} (ht : m.ticks.next? = some t) :
    m.tick = { m with ticks := t }.fetch := by
  rw [tick, h, ht]

theorem tick_of_executing {i : Instruction} {e : Nat} (h : m.phase = .executing i e) {t : Ticks}
    (ht : m.ticks.next? = some t) : m.tick = .done ({ m with ticks := t }.settle i (e + 1)) () := by
  rw [tick, h, ht]

theorem fetch_of_none {b : Byte} (hb : m.memory.read m.registers.pc = b)
    (h : Instruction.decode? b = none) :
    m.fetch =
      ⟨{ m with
          registers := m.registers.setPc (m.registers.pc + 1)
          opcode := b
          phase := .halted ⟨b, m.registers.pc⟩ },
        [.halted ⟨b, m.registers.pc⟩], .error (.fault ⟨b, m.registers.pc⟩)⟩ := by
  simp only [fetch, hb, h]

/-- Every instruction outlasts its fetch. -/
theorem fetch_of_some {b : Byte} {i : Instruction} (hb : m.memory.read m.registers.pc = b)
    (h : Instruction.decode? b = some i) :
    m.fetch =
      ⟨{ m with
          registers := i.stage m.memory m.registers
          opcode := b
          phase := .executing i 1 },
        [.fetchOf m.registers.pc i], .ok ()⟩ := by
  have hc := i.four_le_cycles
  simp only [fetch, hb, h, settle_of_lt _ (show 1 < i.cycles by omega),
    i.fetchOperands_setPc m.memory m.registers, Event.fetchOf, Instruction.opcode_of_decode? h]

theorem tick_of_unknown {b : Byte} {t : Ticks} (hp : m.phase = .idle)
    (ht : m.ticks.next? = some t) (hb : m.memory.read m.registers.pc = b)
    (h : Instruction.decode? b = none) :
    m.tick =
      ⟨{ m with
          registers := m.registers.setPc (m.registers.pc + 1)
          opcode := b
          phase := .halted ⟨b, m.registers.pc⟩
          ticks := t },
        [.halted ⟨b, m.registers.pc⟩], .error (.fault ⟨b, m.registers.pc⟩)⟩ := by
  rw [tick_of_idle m hp ht, fetch_of_none { m with ticks := t } hb h]

theorem tick_of_known {b : Byte} {i : Instruction} {t : Ticks} (hp : m.phase = .idle)
    (ht : m.ticks.next? = some t) (hb : m.memory.read m.registers.pc = b)
    (h : Instruction.decode? b = some i) :
    m.tick =
      ⟨{ m with
          registers := i.stage m.memory m.registers
          opcode := b
          phase := .executing i 1
          ticks := t },
        [.fetchOf m.registers.pc i], .ok ()⟩ := by
  rw [tick_of_idle m hp ht, fetch_of_some { m with ticks := t } hb h]

end Micro8080.Machine
