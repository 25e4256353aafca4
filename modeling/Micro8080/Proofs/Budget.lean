import Micro8080.Proofs.Batch
import Micro8080.Proofs.InFlight

/-!
# The ticks of a step

A step goes on until no instruction is in flight, and nothing in it says how long that may be. It
comes to at most sixteen ticks, because each tick brings an instruction in flight nearer to its
end and none has more cycles. In a machine with a history the count is known beforehand: it is what
is left of the instruction in flight, or the cycles of the next one.
-/

namespace Micro8080.Machine

variable {m n : Machine} {es : List Event} {k : Nat}

/-- A step of `m` is a run of `k` ticks, and the first that ends with no instruction in flight or
with a stop. -/
structure StepTakes (m : Machine) (k : Nat) : Prop where
  pos : 1 ≤ k
  before : ∀ j, 1 ≤ j → j < k → (tickN j m).result = .ok () ∧ (tickN j m).machine.busy = true
  last : (tickN k m).result = .ok () → (tickN k m).machine.busy = false
  step : m.step =
    ⟨(tickN k m).machine, (tickN k m).events, (tickN k m).result.map fun _ => k⟩

theorem stepTakes_one_of_error {s : Stop} (h : m.tick = ⟨n, es, .error s⟩) : m.StepTakes 1 where
  pos := Nat.le_refl 1
  before j _ _ := by omega
  last hr := by
    rw [tickN_one, h] at hr
    cases hr
  step := by
    rw [step_of_error h, tickN_one, h]
    rfl

theorem stepTakes_one_of_not_busy (h : m.tick = ⟨n, es, .ok ()⟩) (hb : n.busy = false) :
    m.StepTakes 1 where
  pos := Nat.le_refl 1
  before j _ _ := by omega
  last _ := by rwa [tickN_one, h]
  step := by
    rw [step_of_not_busy h hb, tickN_one, h]
    rfl

theorem StepTakes.succ (hk : n.StepTakes k) (h : m.tick = ⟨n, es, .ok ()⟩) (hb : n.busy = true) :
    m.StepTakes (k + 1) where
  pos := Nat.succ_pos k
  before j hj hlt := by
    obtain ⟨i, rfl⟩ := Nat.exists_eq_add_of_le' hj
    cases i with
    | zero =>
      rw [Nat.zero_add, tickN_one, h]
      exact ⟨rfl, hb⟩
    | succ i =>
      rw [tickN_succ_of_ok h]
      exact hk.before (i + 1) (Nat.succ_pos i) (by omega)
  last := by
    rw [tickN_succ_of_ok h]
    exact hk.last
  step := by
    rw [step_of_busy h hb, tickN_succ_of_ok h, hk.step]
    cases (tickN k n).result <;> rfl

theorem wait_pos_of_tick (h : m.tick = ⟨n, es, .ok ()⟩) (hb : n.busy = true) : 0 < n.wait := by
  cases m.tickCase with
  | halted f phase tick =>
    rw [tick] at h
    cases h
  | spent fault clock tick =>
    rw [tick] at h
    cases h
  | unknown phase clock opcode tick =>
    rw [tick] at h
    cases h
  | fetch i phase clock opcode tick =>
    rw [tick] at h
    cases h
    have hi := i.four_le_cycles
    exact Nat.sub_pos_of_lt (by omega)
  | count i e phase clock elapsed tick =>
    rw [tick] at h
    cases h
    exact Nat.sub_pos_of_lt elapsed
  | effect i e phase clock elapsed tick =>
    rw [tick] at h
    cases h
    cases hb

/-- Every step ends, that of a machine without a history as well. -/
theorem exists_stepTakes (m : Machine) : ∃ k ≤ max 1 m.wait, m.StepTakes k := by
  induction hw : m.wait using Nat.strongRecOn generalizing m with
  | ind w ih =>
    rcases ht : m.tick with ⟨n, es, s | _⟩
    · exact ⟨1, Nat.le_max_left 1 w, stepTakes_one_of_error ht⟩
    · cases hb : n.busy with
      | false => exact ⟨1, Nat.le_max_left 1 w, stepTakes_one_of_not_busy ht hb⟩
      | true =>
        have hlt := wait_tick ht hb
        have hpos := wait_pos_of_tick ht hb
        obtain ⟨k, hk, hs⟩ := ih n.wait (hw ▸ hlt) n rfl
        exact ⟨k + 1, by omega, hs.succ ht hb⟩

theorem wait_le (m : Machine) : m.wait ≤ 16 := by
  unfold wait
  split
  · exact Nat.le_refl 16
  · next i e _ => exact Nat.le_trans (Nat.sub_le i.cycles e) i.cycles_le
  · exact Nat.zero_le 16

/-- The ticks that a step answers are those that it has counted. -/
theorem idle_of_step {t : Nat} (h : m.step.result = .ok t) :
    m.step.machine.phase = .idle ∧ m.step.machine.ticks.toNat = m.ticks.toNat + t := by
  rcases hs : m.step with ⟨n, es, r⟩
  rw [hs] at h
  obtain rfl : r = .ok t := h
  obtain ⟨-, hb, hn⟩ := tickN_of_step hs
  have hr : (tickN t m).result = .ok () := by rw [hn]
  have hf : m.fault? = none := by
    cases hf : m.fault? with
    | none => rfl
    | some f =>
      rw [step_of_halted ((m.fault?_eq_some_iff f).mp hf)] at hs
      cases hs
  have hfault := fault?_of_tickN hf hr
  have hticks := ticks_of_tickN hr
  rw [hn] at hfault hticks
  exact ⟨n.idle_iff.mpr ⟨hb, hfault⟩, hticks⟩

theorem Sound.step_of_executing (h : m.Sound) {i : Instruction} {e : Nat}
    (hp : m.phase = .executing i e) (hc : m.ticks.toNat + 16 < UInt64.size) :
    1 ≤ i.cycles - e ∧ m.step.result = .ok (i.cycles - e) := by
  obtain ⟨-, -, he⟩ := h.executing hp
  have hi := i.cycles_le
  obtain ⟨k, hk⟩ := Nat.exists_eq_add_of_lt he
  have hleft : i.cycles - e = k + 1 := by omega
  rw [Machine.step_of_executing hp hk.symm (by omega), hleft]
  exact ⟨Nat.succ_pos k, rfl⟩

/-- A step of a machine with a history takes what is left of the instruction in flight, or the
cycles of the next one, and sixteen ticks at most. It faults only on an unknown opcode, which costs
one tick, or on a fault that was latched before, which costs none. -/
theorem step_budget (memory : Memory) (cs : List Command) :
    let m := (new memory).after cs
    let b := m.memory.read m.registers.pc
    m.ticks.toNat + 16 < UInt64.size →
      (∃ k ≤ 16, m.StepTakes k) ∧
      (∀ i e, m.phase = .executing i e →
        1 ≤ i.cycles - e ∧ m.step.result = .ok (i.cycles - e)) ∧
      (m.phase = .idle → ∀ i, Instruction.decode? b = some i → m.step.result = .ok i.cycles) ∧
      (m.phase = .idle → Instruction.decode? b = none →
        m.step.result = .error (.fault ⟨b, m.registers.pc⟩) ∧
          m.step.machine.ticks.toNat = m.ticks.toNat + 1) ∧
      (∀ f, m.fault? = some f → m.step = .stopped m (.fault f)) ∧
      ∀ t, m.step.result = .ok t →
        m.step.machine.phase = .idle ∧ m.step.machine.ticks.toNat = m.ticks.toNat + t := by
  intro m b hc
  have hm : m.Sound := sound_after memory cs
  refine ⟨?_, fun i e hp => hm.step_of_executing hp hc, ?_, ?_, ?_, fun t => idle_of_step⟩
  · obtain ⟨k, hk, hs⟩ := m.exists_stepTakes
    have hw := m.wait_le
    exact ⟨k, by omega, hs⟩
  · intro hp i hd
    have hi := i.cycles_le
    rw [step_of_known hp hd (by omega)]
  · intro hp hd
    rw [step_of_unknown hp hd (by omega)]
    exact ⟨rfl, m.ticks.toNat_later (by omega)⟩
  · intro f hf
    exact step_of_halted ((m.fault?_eq_some_iff f).mp hf)

/-- A NOP in its second cycle, with its opcode overwritten in memory and PC moved by the host: the
step completes the NOP. -/
theorem step_completes_nop :
    ((new .zero).after
      [.tick, .writeMemory (.byte 0 0xFF), .tick, .writeRegisters (.pc 0)]).step.result =
        .ok 2 := by
  let n : Machine := { (new .zero).afterFetch .nop with memory := Memory.zero.write 0 0xFF }
  have hnop : (new .zero).nextOpcode = 0 := Memory.read_zero _
  have hfetch := (new .zero).tick_fetch rfl (by decide) (i := .nop) (by rw [hnop]; rfl)
  have hcount : n.tick = .done (n.afterCounting .nop 2 1) () :=
    n.tick_count rfl (by decide) (by decide)
  have hm : (new .zero).after
      [.tick, .writeMemory (.byte 0 0xFF), .tick, .writeRegisters (.pc 0)] =
        { n.afterCounting .nop 2 1 with registers := n.registers.setPc 0 } := by
    have hfirst : ((new .zero).obey .tick).machine = (new .zero).afterFetch .nop := by
      rw [obey, hfetch]
      rfl
    have hsecond : (n.obey .tick).machine = n.afterCounting .nop 2 1 := by
      rw [obey, hcount]
      rfl
    rw [after_cons, hfirst, after_cons, after_cons]
    exact congrArg (fun k => (k.obey (.writeRegisters (.pc 0))).machine) hsecond
  have h := step_budget .zero
    [.tick, .writeMemory (.byte 0 0xFF), .tick, .writeRegisters (.pc 0)]
  rw [hm] at h ⊢
  exact ((h (by decide)).2.1 .nop 2 rfl).2

end Micro8080.Machine
