import Micro8080.Proofs.Session

/-!
# The latch of a fault

A fault stops a machine for good. Until a reset nothing but writes of the host changes it, they
reach registers and memory and never the fault, and the clock is refused with that fault again.
A reset leaves no trace of what was before it except for memory.
-/

namespace Micro8080.Machine

variable {m : Machine} {f : Fault}

theorem step_of_halted (hp : m.phase = .halted f) : m.step = .stopped m (.fault f) :=
  step_of_error (m.tick_of_halted hp)

theorem tickN_of_halted (hp : m.phase = .halted f) (k : Nat) :
    tickN (k + 1) m = .stopped m (.fault f) :=
  tickN_succ_of_error (m.tick_of_halted hp) k

theorem obey_of_halted (hp : m.phase = .halted f) {c : Command} (hc : c ≠ .reset) :
    (m.obey c).machine = { m with toStorage := c.write m.toStorage } := by
  cases c with
  | tick => rw [obey, m.tick_of_halted hp]; rfl
  | tickN k =>
    cases k with
    | zero => rfl
    | succ k => rw [obey, tickN_of_halted hp]; rfl
  | step => rw [obey, step_of_halted hp]; rfl
  | reset => exact absurd rfl hc
  | writeRegisters w => exact obey_of_writes rfl
  | writeMemory w => exact obey_of_writes rfl
  | look q => rfl

theorem after_of_halted (hp : m.phase = .halted f) {cs : List Command} (hr : .reset ∉ cs) :
    m.after cs = { m with toStorage := m.toStorage.written cs } := by
  induction cs generalizing m with
  | nil => rfl
  | cons c cs ih =>
    have hc : c ≠ .reset := (List.ne_of_not_mem_cons hr).symm
    have hcs : .reset ∉ cs := List.not_mem_of_not_mem_cons hr
    rw [after_cons, obey_of_halted hp hc,
      ih (m := { m with toStorage := c.write m.toStorage }) hp hcs]
    rfl

theorem halted_of_tick (h : m.tick.result = .error (.fault f)) :
    m.tick.machine.phase = .halted f := by
  cases m.tickCase with
  | halted g phase tick =>
    rw [tick] at h ⊢
    cases h
    exact phase
  | spent fault clock tick =>
    rw [tick] at h
    cases h
  | unknown phase clock opcode tick =>
    rw [tick] at h ⊢
    cases h
    rfl
  | fetch i phase clock opcode tick =>
    rw [tick] at h
    cases h
  | count i e phase clock elapsed tick =>
    rw [tick] at h
    cases h
  | effect i e phase clock elapsed tick =>
    rw [tick] at h
    cases h

theorem halted_of_tickN {k : Nat} (h : (tickN k m).result = .error (.fault f)) :
    (tickN k m).machine.phase = .halted f := by
  induction k generalizing m with
  | zero => cases h
  | succ k ih =>
    rcases ht : m.tick with ⟨n, es, s | _⟩
    · rw [tickN_succ_of_error ht] at h ⊢
      have hm := halted_of_tick (m := m) (f := f) (by rw [ht]; exact h)
      rwa [ht] at hm
    · rw [tickN_succ_of_ok ht] at h ⊢
      exact ih h

theorem halted_of_step (h : m.step.result = .error (.fault f)) :
    m.step.machine.phase = .halted f := by
  rcases hs : m.step with ⟨n, es, r⟩
  rw [hs] at h
  obtain rfl : r = .error (.fault f) := h
  have ht := step_fault hs
  have hm := halted_of_tick (m := m) (f := f) (by rw [ht])
  rwa [ht] at hm

/-- Only commands that drive the clock are answered by a fault, and it is latched then. -/
theorem halted_of_answer {c : Command} (h : (m.obey c).answer = .stopped (.fault f)) :
    (m.obey c).machine.phase = .halted f := by
  cases c with
  | tick => exact halted_of_tick (Run.result_of_stopped h (fun _ => nofun))
  | tickN k => exact halted_of_tickN (Run.result_of_stopped h (fun _ => nofun))
  | step => exact halted_of_step (Run.result_of_stopped h (fun _ => nofun))
  | reset => cases h
  | writeRegisters w => cases h
  | writeMemory w =>
    simp only [obey] at h
    cases hw : w.perform? m.memory <;> simp [hw] at h
  | look q =>
    cases q with
    | bytes start k =>
      simp only [obey, look] at h
      cases hs : m.memory.slice? start k <;> simp [hs] at h
    | _ => cases h

/-- What a host writes is there to be read. -/
structure TakesWrites (n : Machine) : Prop where
  register : ∀ x v, (n.obey (.writeRegisters (.register x v))).machine.registers.get x = v
  pair : ∀ p v, (n.obey (.writeRegisters (.pair p v))).machine.registers.pair p = v
  flag : ∀ x on, (n.obey (.writeRegisters (.flag x on))).machine.registers.flag x = on
  pc : ∀ v, (n.obey (.writeRegisters (.pc v))).machine.registers.pc = v
  byte : ∀ a v, (n.obey (.writeMemory (.byte a v))).machine.memory.read a = v
  word : ∀ a v, (n.obey (.writeMemory (.word a v))).machine.memory.readWord a = v

theorem takesWrites (n : Machine) : n.TakesWrites where
  register x v := by simp [obey, Registers.Write.perform]
  pair p v := by simp [obey, Registers.Write.perform]
  flag x on := by simp [obey, Registers.Write.perform]
  pc v := by simp [obey, Registers.Write.perform]
  byte a v := by simp [obey, Memory.Write.perform?]
  word a v := by simp [obey, Memory.Write.perform?]

/-- A fault that a host was told of stays through every session without a reset, whatever the host
writes meanwhile, and a reset of any machine is a new one on its memory. -/
theorem fault_latched_until_reset :
    (∀ (m : Machine) (c : Command) (f : Fault) (cs : List Command),
      (m.obey c).answer = .stopped (.fault f) → .reset ∉ cs →
        let first := (m.obey c).machine
        let n := first.after cs
        n.fault? = some f ∧ n.tick = .stopped n (.fault f) ∧ n.step = .stopped n (.fault f) ∧
          (∀ k, 1 ≤ k → tickN k n = .stopped n (.fault f)) ∧ tickN 0 n = .done n () ∧
          n = { first with toStorage := first.toStorage.written cs } ∧ n.TakesWrites) ∧
    ∀ m : Machine, (m.obey .reset).machine = new m.memory ∧
      ∀ cs, (m.obey .reset).machine.answers cs = (new m.memory).answers cs ∧
        (m.obey .reset).machine.log cs = (new m.memory).log cs ∧
        (m.obey .reset).machine.after cs = (new m.memory).after cs := by
  refine ⟨?_, ?_⟩
  · intro m c f cs h hr first n
    have hf : first.phase = .halted f := halted_of_answer h
    have hn : n = { first with toStorage := first.toStorage.written cs } := after_of_halted hf hr
    have hp : n.phase = .halted f := by rw [hn]; exact hf
    refine ⟨(n.fault?_eq_some_iff f).mpr hp, n.tick_of_halted hp, step_of_halted hp, ?_, rfl, hn,
      n.takesWrites⟩
    intro k hk
    obtain ⟨j, rfl⟩ := Nat.exists_eq_add_of_le' hk
    exact tickN_of_halted hp j
  · intro m
    have hm : (m.obey .reset).machine = new m.memory := m.reset_eq_new
    refine ⟨hm, ?_⟩
    intro cs
    rw [hm]
    exact ⟨rfl, rfl, rfl⟩

/-- A host that clears the offending byte, writes B and moves PC to an instruction reads all of it
back and still gets the fault. -/
theorem fault_outlives_writes :
    let m := new (Memory.zero.write 0 0xFF)
    let n := (m.obey .tick).machine.after
      [.writeMemory (.byte 0 0), .writeRegisters (.register .b 0x41), .writeRegisters (.pc 0),
        .step]
    n.tick.result = .error (.fault ⟨0xFF, 0⟩) ∧ n.memory.read 0 = 0 ∧
      n.registers.get .b = 0x41 ∧ n.registers.pc = 0 := by
  intro m n
  have ho : m.nextOpcode = 0xFF := (nextOpcode_new _).trans (Memory.read_write_self _ _ _)
  have ht := m.tick_unknown rfl (by decide) (by rw [ho]; rfl)
  have ha : (m.obey .tick).answer = .stopped (.fault ⟨0xFF, 0⟩) := by
    simp only [obey, ht, Run.respond, nextFault, ho, m, pc_new]
  obtain ⟨_, htick, _, _, _, hn, _⟩ := fault_latched_until_reset.1 m .tick _
    [.writeMemory (.byte 0 0), .writeRegisters (.register .b 0x41), .writeRegisters (.pc 0), .step]
    ha (by decide)
  refine ⟨by rw [htick]; rfl, ?_⟩
  have hs : n.toStorage = _ := congrArg toStorage hn
  simp [hs, Command.write, Registers.Write.perform, Memory.Write.perform?]

end Micro8080.Machine
