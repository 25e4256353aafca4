import Micro8080.Proofs.Drive
import Micro8080.Proofs.Effect

/-!
# The footprint of an instruction

The cells that decide what a step does are those of the instruction itself and the ones that it
loads. Two machines that differ only in other cells make the same step: the answer, the events,
the registers and the control part agree, and so do the cells that the instruction stores. All
other cells keep what each machine had in them.
-/

namespace Micro8080

namespace Instruction

variable (i : Instruction) (memory : Memory) (r : Registers)

/-- The cells of the instruction itself when its opcode is at `a`. -/
def cells (a : Word) : List Word := (List.range i.length).map fun k => a + UInt16.ofNat k

theorem mem_cells {k : Nat} (hk : k < i.length) (a : Word) : a + UInt16.ofNat k ∈ i.cells a :=
  List.mem_map.mpr ⟨k, List.mem_range.mpr hk, rfl⟩

theorem loads_stage : i.loads (i.stage memory r) (i.stage memory r).wz =
    i.loads r (memory.readWord (r.pc + 1)) := by
  cases i with
  | ldax rp => exact congrArg ([·]) (pair_stage _ memory r rp.pair_ne_wz rp.pair_ne_pc)
  | lda => exact congrArg (loads r · .lda) (wz_stage .lda memory r rfl)
  | lhld => exact congrArg (loads r · .lhld) (wz_stage .lhld memory r rfl)
  | mov dst src => cases src <;> simp [loads]
  | inr x | dcr x => cases x <;> simp [loads]
  | _ => rfl

theorem stores_stage : i.stores (i.stage memory r) (i.stage memory r).wz =
    i.stores r (memory.readWord (r.pc + 1)) := by
  cases i with
  | stax rp => exact congrArg ([·]) (pair_stage _ memory r rp.pair_ne_wz rp.pair_ne_pc)
  | sta => exact congrArg (stores r · .sta) (wz_stage .sta memory r rfl)
  | shld => exact congrArg (stores r · .shld) (wz_stage .shld memory r rfl)
  | mvi x | inr x | dcr x => cases x <;> simp [stores]
  | movToMemory src => simp [stores]
  | _ => rfl

/-- The operand bytes are all that staging takes from memory, wherever the instruction lies. -/
theorem stage_shift {memory other : Memory} {r : Registers} {b : Word}
    (h : ∀ k < i.length,
      other.read (b + UInt16.ofNat k) = memory.read (r.pc + UInt16.ofNat k)) :
    i.stage other (r.setPc b) = (i.stage memory r).setPc (b + UInt16.ofNat i.length) := by
  refine Registers.ext_get (fun x => ?_) (by simp) (by simp)
  rw [get_stage, Registers.get_setPc, get_stage]
  by_cases hz : x = .z
  · subst hz
    rw [get_latch_z, get_latch_z, Registers.get_setPc, Registers.pc_setPc]
    exact ite_congr rfl (h 1) fun _ => rfl
  · by_cases hw : x = .w
    · subst hw
      rw [get_latch_w, get_latch_w, Registers.get_setPc, Registers.pc_setPc]
      exact ite_congr rfl (fun hl => h 2 (by omega)) fun _ => rfl
    · rw [get_latch_of_ne _ _ _ hw hz, get_latch_of_ne _ _ _ hw hz, Registers.get_setPc]

theorem stage_congr {memory other : Memory} {r : Registers}
    (h : ∀ a ∈ i.cells r.pc, other.read a = memory.read a) :
    i.stage other r = i.stage memory r := by
  have hs := i.stage_shift (b := r.pc) fun _ hk => h _ (i.mem_cells hk _)
  rwa [← pc_stage i memory r, Registers.setPc_pc, Registers.setPc_pc] at hs

end Instruction

namespace Machine

section Sets

variable (m : Machine)

/-- The word in the operand bytes of the next instruction. -/
def operand : Word := m.memory.readWord (m.registers.pc + 1)

/-- The cells that decide what the next step does. -/
def readSet : List Word :=
  match Instruction.decode? m.nextOpcode with
  | some i => i.cells m.registers.pc ++ i.loads m.registers m.operand
  | none => [m.registers.pc]

/-- The cells that the next step may change. -/
def writeSet : List Word :=
  match Instruction.decode? m.nextOpcode with
  | some i => i.stores m.registers m.operand
  | none => []

end Sets

/-- The runs `r` from `m` and `t` from `n` differ in memory at most: they agree on `cells`, and
neither changes any other cell. -/
structure Alike (cells : List Word) (m n : Machine) (r t : Run Nat) : Prop where
  result : t.result = r.result
  events : t.events = r.events
  rest : t.machine = { r.machine with memory := t.machine.memory }
  stored : ∀ a ∈ cells, t.machine.memory.read a = r.machine.memory.read a
  kept : ∀ a, a ∉ cells →
    r.machine.memory.read a = m.memory.read a ∧ t.machine.memory.read a = n.memory.read a

variable {m : Machine} {i : Instruction} {other : Memory}

theorem alike_of_unknown (hp : m.phase = .idle) (hc : m.ticks.toNat + 1 < UInt64.size)
    (hd : Instruction.decode? m.nextOpcode = none)
    (ho : other.read m.registers.pc = m.memory.read m.registers.pc) :
    Alike [] m { m with memory := other } m.step { m with memory := other : Machine }.step := by
  have hn : { m with memory := other : Machine }.nextOpcode = m.nextOpcode := ho
  rw [step_of_unknown hp hd hc,
    step_of_unknown (m := { m with memory := other }) hp (hn ▸ hd) hc]
  constructor
  · simp only [nextFault, hn]
  · simp only [nextFault, hn]
  · simp only [afterUnknown, nextFault, hn]
  · nofun
  · exact fun a _ => ⟨rfl, rfl⟩

theorem alike_of_known (hp : m.phase = .idle) (hc : m.ticks.toNat + i.cycles < UInt64.size)
    (hd : Instruction.decode? m.nextOpcode = some i)
    (hi : ∀ a ∈ i.cells m.registers.pc, other.read a = m.memory.read a)
    (hl : ∀ a ∈ i.loads m.registers m.operand, other.read a = m.memory.read a) :
    Alike (i.stores m.registers m.operand) m { m with memory := other } m.step
      { m with memory := other : Machine }.step := by
  have hn : { m with memory := other : Machine }.nextOpcode = m.nextOpcode := by
    have h0 := hi _ (i.mem_cells i.length_pos _)
    rwa [show UInt16.ofNat 0 = 0 from rfl, UInt16.add_zero] at h0
  have hs := i.stage_congr hi
  rw [operand, ← i.loads_stage] at hl
  rw [operand, ← i.stores_stage, step_of_known hp hd hc,
    step_of_known (m := { m with memory := other }) hp (hn ▸ hd) hc]
  -- both effects start from the same registers, the first on `m.memory`, the other on `other`
  let s : Storage := ⟨i.stage m.memory m.registers, m.memory⟩
  let t : Storage := ⟨i.stage other m.registers, other⟩
  have hr : (i.exec t).registers = (i.exec s).registers := i.registers_exec_congr hs hl
  constructor
  · rfl
  · rfl
  · simp only [s, t] at hr
    simp only [afterStep, afterFetch, hn, ← hr]
  · exact fun a ha => i.read_exec_congr (s := s) (t := t) hs hl ha
  · intro a ha
    refine ⟨i.read_exec s ha, i.read_exec t ?_⟩
    rwa [show t.registers = s.registers from hs]

/-- A step depends on its read set only and changes nothing outside its write set. -/
theorem step_footprint (hp : m.phase = .idle) (hc : m.ticks.toNat + 16 < UInt64.size)
    (ho : ∀ a ∈ m.readSet, other.read a = m.memory.read a) :
    Alike m.writeSet m { m with memory := other } m.step { m with memory := other : Machine }.step ∧
      m.step.result =
        match Instruction.decode? m.nextOpcode with
        | some i => .ok i.cycles
        | none => .error (.fault m.nextFault) := by
  unfold readSet at ho
  unfold writeSet
  cases hd : Instruction.decode? m.nextOpcode with
  | none =>
    rw [hd] at ho
    refine ⟨alike_of_unknown hp (by omega) hd (ho _ (List.mem_singleton.mpr rfl)), ?_⟩
    rw [step_of_unknown hp hd (by omega)]
  | some i =>
    rw [hd] at ho
    have hi := i.cycles_le
    refine ⟨alike_of_known hp (by omega) hd ?_ ?_, ?_⟩
    · exact fun a ha => ho a (List.mem_append_left _ ha)
    · exact fun a ha => ho a (List.mem_append_right _ ha)
    · rw [step_of_known hp hd (by omega)]

/-- An increment of its own opcode, on memories that differ in the cell behind it. -/
theorem inr_of_own_opcode_footprint :
    let m := new (Memory.zero.write 0 0x34)
    let n : Machine := { m with memory := m.memory.write 1 0xAB }
    n.step.result = .ok 10 ∧ n.step.machine.memory.read 0 = m.step.machine.memory.read 0 ∧
      n.step.machine.memory.read 1 = 0xAB := by
  intro m n
  have ho : m.nextOpcode = 0x34 := (nextOpcode_new _).trans (Memory.read_write_self _ _ _)
  have hd : Instruction.decode? m.nextOpcode = some (.inr .memory) := by
    rw [ho]
    rfl
  have hhl : m.registers.hl = 0 := Registers.pair_zero .hl
  have hw : m.writeSet = [0] := by
    simp only [writeSet, hd, Instruction.stores, hhl]
  have hr : m.readSet = [0, 0] := by
    simp only [readSet, hd, Instruction.loads, hhl, m, pc_new]
    rfl
  have hm : ∀ a ∈ m.readSet, (m.memory.write 1 0xAB).read a = m.memory.read a := by
    rw [hr]
    intro a ha
    exact Memory.read_write_of_ne _ (by rintro rfl; simp at ha) _
  obtain ⟨h, hres⟩ := step_footprint (m := m) rfl (by decide) hm
  rw [hd] at hres
  rw [hw] at h
  refine ⟨h.result.trans hres, h.stored 0 (List.mem_singleton.mpr rfl), ?_⟩
  rw [(h.kept 1 (by decide)).2]
  exact Memory.read_write_self _ _ _

end Machine

end Micro8080
