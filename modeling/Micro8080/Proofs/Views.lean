import Micro8080.Proofs.Observation

/-!
# Views that agree

A machine shows its state under many names, and they are views of one state: pairs are their halves
side by side, flags are bits of F, and what the control part shows fits together at any moment of a
history, in the middle of an instruction and after writes of the host as well. The gauge of the
ticks shows how many were performed since the start or the last reset. That number is taken here
from the machines that got a tick, whatever commands it came by.
-/

namespace Micro8080.Machine

variable {m n : Machine} {es : List Event}

section Performed

/-- Whether a tick is performed. The one that raises a fault is; a halted machine ignores the clock,
and at the limit of the count the tick is refused. -/
def performs (m : Machine) : Bool :=
  match m.fault?, m.tick.result with
  | none, .ok () | none, .error (.fault _) => true
  | _, _ => false

/-- The machines that get the ticks of a batch of `n`, in order. A batch ends at the first stop. -/
def tickedN : Nat → Machine → List Machine
  | 0, _ => []
  | n + 1, m => m ::
    match m.tick.result with
    | .ok () => tickedN n m.tick.machine
    | .error _ => []

/-- The machines that get the ticks of a step, which goes on while an instruction is in flight. -/
def tickedStep (m : Machine) : List Machine :=
  match _ : m.tick with
  | ⟨_, _, .error _⟩ => [m]
  | ⟨n, _, .ok ()⟩ => if _ : n.busy = true then m :: tickedStep n else [m]
termination_by m.wait
decreasing_by exact wait_tick ‹_› ‹_›

def ticked (m : Machine) : Command → List Machine
  | .tick => [m]
  | .tickN n => tickedN n m
  | .step => m.tickedStep
  | .reset | .writeRegisters _ | .writeMemory _ | .look _ => []

/-- The ticks that are performed in a session behind its last reset, or in all of it. -/
def performed (m : Machine) : List Command → Nat
  | [] => 0
  | c :: cs =>
    (if .reset ∈ cs then 0 else (m.ticked c).countP performs) + (m.obey c).machine.performed cs

theorem tickedN_of_ok (h : m.tick = ⟨n, es, .ok ()⟩) (k : Nat) :
    tickedN (k + 1) m = m :: tickedN k n := by
  rw [tickedN, h]

theorem tickedN_of_error {s : Stop} (h : m.tick = ⟨n, es, .error s⟩) (k : Nat) :
    tickedN (k + 1) m = [m] := by
  rw [tickedN, h]

theorem tickedStep_of_error {s : Stop} (h : m.tick = ⟨n, es, .error s⟩) : m.tickedStep = [m] := by
  rw [tickedStep]
  split <;> simp_all

theorem tickedStep_of_busy (h : m.tick = ⟨n, es, .ok ()⟩) (hb : n.busy = true) :
    m.tickedStep = m :: n.tickedStep := by
  rw [tickedStep]
  split <;> simp_all

theorem tickedStep_of_not_busy (h : m.tick = ⟨n, es, .ok ()⟩) (hb : n.busy = false) :
    m.tickedStep = [m] := by
  rw [tickedStep]
  split <;> simp_all

theorem toNat_ticks_tick (m : Machine) :
    m.tick.machine.ticks.toNat = m.ticks.toNat + if m.performs then 1 else 0 := by
  cases m.tickCase with
  | halted f phase tick => simp [performs, fault?, phase, tick, Run.stopped]
  | spent fault clock tick => simp [performs, fault, tick, Run.stopped]
  | unknown phase clock opcode tick =>
    have hf := (m.idle_iff.mp phase).2
    simp only [performs, hf, tick]
    exact m.ticks.toNat_later clock
  | fetch i phase clock opcode tick =>
    have hf := (m.idle_iff.mp phase).2
    simp only [performs, hf, tick]
    exact m.ticks.toNat_later clock
  | count i e phase clock elapsed tick =>
    simp only [performs, fault?, phase, tick, Run.done]
    exact m.ticks.toNat_later clock
  | effect i e phase clock elapsed tick =>
    simp only [performs, fault?, phase, tick, Run.done]
    exact m.ticks.toNat_later clock

theorem toNat_ticks_tickN (k : Nat) (m : Machine) :
    (tickN k m).machine.ticks.toNat = m.ticks.toNat + (tickedN k m).countP performs := by
  induction k generalizing m with
  | zero => rfl
  | succ k ih =>
    have hm := m.toNat_ticks_tick
    rcases ht : m.tick with ⟨n, es, s | _⟩ <;> rw [ht] at hm
    · rw [tickN_succ_of_error ht, tickedN_of_error ht, List.countP_singleton]
      exact hm
    · rw [tickN_succ_of_ok ht, tickedN_of_ok ht, List.countP_cons, ih, hm]
      omega

theorem toNat_ticks_step (m : Machine) :
    m.step.machine.ticks.toNat = m.ticks.toNat + m.tickedStep.countP performs := by
  -- by the cycles that are left, as the step itself
  induction hw : m.wait using Nat.strongRecOn generalizing m with
  | ind w ih =>
    have hm := m.toNat_ticks_tick
    rcases ht : m.tick with ⟨n, es, s | _⟩ <;> rw [ht] at hm
    · rw [step_of_error ht, tickedStep_of_error ht, List.countP_singleton]
      exact hm
    · cases hb : n.busy with
      | false =>
        rw [step_of_not_busy ht hb, tickedStep_of_not_busy ht hb, List.countP_singleton]
        exact hm
      | true =>
        rw [step_of_busy ht hb, tickedStep_of_busy ht hb, List.countP_cons,
          ih _ (hw ▸ wait_tick ht hb) n rfl, hm]
        omega

theorem toNat_ticks_obey (m : Machine) {c : Command} (hc : c ≠ .reset) :
    (m.obey c).machine.ticks.toNat = m.ticks.toNat + (m.ticked c).countP performs := by
  cases c with
  | tick =>
    rw [ticked, List.countP_singleton]
    exact m.toNat_ticks_tick
  | tickN k => exact toNat_ticks_tickN k m
  | step => exact m.toNat_ticks_step
  | reset => exact absurd rfl hc
  | writeRegisters w => rfl
  | writeMemory w =>
    rw [obey_of_writes rfl]
    rfl
  | look q => rfl

/-- What was counted before the session is lost if there is a reset in it. -/
theorem toNat_ticks_after (m : Machine) (cs : List Command) :
    (m.after cs).ticks.toNat = (if .reset ∈ cs then 0 else m.ticks.toNat) + m.performed cs := by
  induction cs generalizing m with
  | nil => rfl
  | cons c cs ih =>
    rw [after_cons, ih, performed]
    by_cases hcs : .reset ∈ cs
    · simp [hcs]
    · by_cases hc : c = .reset
      · subst hc
        rw [if_neg hcs, if_neg hcs, if_pos List.mem_cons_self]
        simp only [ticked, List.countP_nil, Nat.zero_add]
        exact Nat.zero_add _
      · have hmem : ¬.reset ∈ c :: cs := by
          rw [List.mem_cons, not_or]
          exact ⟨fun h => hc h.symm, hcs⟩
        rw [if_neg hcs, if_neg hcs, if_neg hmem, m.toNat_ticks_obey hc, Nat.add_assoc]

end Performed

section Views

theorem query_halves (m : Machine) (p : Pair) (hi lo : Register) (hp : p.halves? = some (hi, lo)) :
    ∃ h l w, m.query (Gauge.register hi).name = some (.byte h) ∧
      m.query (Gauge.register lo).name = some (.byte l) ∧
      m.query (Gauge.pair p).name = some (.word w) ∧
      w.toNat = 256 * h.toNat + l.toNat := by
  refine ⟨_, _, _, query_name (.register hi), query_name (.register lo), query_name (.pair p), ?_⟩
  rw [m.registers.pair_eq_ofBytes hp, Word.toNat_ofBytes, Nat.mul_comm]

theorem query_flag (m : Machine) (x : Flag) :
    ∃ f, m.query "f" = some (.byte f) ∧
      m.query (Gauge.flag x).name = some (.bit (Byte.bit f x.position)) :=
  ⟨_, query_name (.register .f), query_name (.flag x)⟩

variable (h : m.Sound)

include h

theorem Sound.toNat_cycle : (UInt8.ofNat m.cycle).toNat = m.cycle :=
  UInt8.toNat_ofNat_of_lt' (Nat.lt_trans h.cycle_lt (by decide))

theorem Sound.busy_iff_cycle : m.busy = true ↔ UInt8.ofNat m.cycle ≠ 0 := by
  have hc : UInt8.ofNat m.cycle = 0 ↔ m.cycle = 0 := by
    rw [← UInt8.toNat_inj, h.toNat_cycle]
    rfl
  rw [ne_eq, hc]
  cases hp : m.phase with
  | idle => simp [busy, cycle, hp]
  | executing i e =>
    have he := (h.executing hp).2.1
    simp only [busy, cycle, hp, true_iff]
    omega
  | halted f => simp [busy, cycle, hp]

theorem Sound.cycle_lt_of_busy (hb : m.busy = true) :
    ∃ i, Instruction.decode? m.opcode = some i ∧ m.cycle < i.cycles := by
  obtain ⟨i, e, hp⟩ := m.busy_iff.mp hb
  obtain ⟨hd, -, he⟩ := h.executing hp
  refine ⟨i, hd, ?_⟩
  rwa [cycle, hp]

theorem Sound.of_fault (hf : m.fault?.isSome = true) :
    m.busy = false ∧ m.cycle = 0 ∧ ∃ address, m.fault? = some ⟨m.opcode, address⟩ := by
  obtain ⟨f, hf⟩ := Option.isSome_iff_exists.mp hf
  have hp := (m.fault?_eq_some_iff f).mp hf
  obtain ⟨ho, -⟩ := h.halted hp
  refine ⟨by rw [busy, hp], by rw [cycle, hp], f.address, ?_⟩
  rw [hf, ← ho]

end Views

/-- After every session the readings of one machine fit together. -/
theorem views_agree (memory : Memory) (cs : List Command) :
    let m := (new memory).after cs
    (∀ high low both,
      (high, low, both) ∈ [("b", "c", "bc"), ("d", "e", "de"), ("h", "l", "hl"), ("w", "z", "wz")] →
      ∃ h l w, m.query high = some (.byte h) ∧ m.query low = some (.byte l) ∧
        m.query both = some (.word w) ∧ w.toNat = 256 * h.toNat + l.toNat) ∧
    (∀ path k,
      (path, k) ∈
        [("flags.s", 7), ("flags.z", 6), ("flags.ac", 4), ("flags.p", 2), ("flags.c", 0)] →
      ∃ f, m.query "f" = some (.byte f) ∧ m.query path = some (.bit (Byte.bit f k))) ∧
    (∃ w, m.query "pc" = some (.word w) ∧ w.toNat = m.programCounter.toNat) ∧
    ∃ opcode cycle busy faulted ticks,
      m.query "opcode" = some (.byte opcode) ∧ m.query "cycle" = some (.byte cycle) ∧
      m.query "busy" = some (.bit busy) ∧ m.query "faulted" = some (.bit faulted) ∧
      m.query "ticks" = some (.count ticks) ∧
      (busy = true ↔ cycle ≠ 0) ∧ cycle.toNat ≤ 15 ∧
      (faulted = true →
        busy = false ∧ cycle = 0 ∧ ∃ address, m.fault? = some ⟨opcode, address⟩) ∧
      (busy = true → ∃ i, Instruction.decode? opcode = some i ∧ cycle.toNat < i.cycles) ∧
      ticks.toNat = (new memory).performed cs := by
  intro m
  have hs : m.Sound := sound_after memory cs
  refine ⟨?_, ?_, ⟨_, query_name (.pair .pc), ?_⟩,
    ⟨_, _, _, _, _, query_name .opcode, query_name .cycle, query_name .busy, query_name .faulted,
      query_name .ticks, hs.busy_iff_cycle, ?_, ?_, ?_, ?_⟩⟩
  · intro high low both hmem
    simp only [List.mem_cons, List.not_mem_nil, or_false] at hmem
    rcases hmem with hp | hp | hp | hp <;> cases hp
    · exact m.query_halves .bc .b .c rfl
    · exact m.query_halves .de .d .e rfl
    · exact m.query_halves .hl .h .l rfl
    · exact m.query_halves .wz .w .z rfl
  · intro path k hmem
    simp only [List.mem_cons, List.not_mem_nil, or_false] at hmem
    rcases hmem with hp | hp | hp | hp | hp <;> cases hp
    · exact m.query_flag .sign
    · exact m.query_flag .zero
    · exact m.query_flag .auxCarry
    · exact m.query_flag .parity
    · exact m.query_flag .carry
  · exact (UInt16.toNat_toUInt32 _).symm
  · rw [hs.toNat_cycle]
    exact Nat.le_of_lt_succ hs.cycle_lt
  · intro hf
    obtain ⟨hb, hc, ha⟩ := hs.of_fault hf
    exact ⟨hb, congrArg UInt8.ofNat hc, ha⟩
  · intro hb
    rw [hs.toNat_cycle]
    exact hs.cycle_lt_of_busy hb
  · have ht := (new memory).toNat_ticks_after cs
    rw [show (new memory).ticks.toNat = 0 from rfl, ite_self, Nat.zero_add] at ht
    exact ht

/-- A NOP in its first cycle, and an unknown opcode that got two ticks, of which one was performed,
with PC moved back by the host. -/
theorem views_at_first_opcode :
    let memory := Memory.zero.write 0 0xFF
    let m := (new .zero).after [.tick]
    let n := (new memory).after [.tick, .tick, .writeRegisters (.pc 0)]
    (∃ h l w, m.query "h" = some (.byte h) ∧ m.query "l" = some (.byte l) ∧
      m.query "hl" = some (.word w) ∧ w.toNat = 256 * h.toNat + l.toNat) ∧
    (∃ f, n.query "f" = some (.byte f) ∧ n.query "flags.ac" = some (.bit (Byte.bit f 4))) ∧
    (∃ opcode cycle i, m.query "opcode" = some (.byte opcode) ∧
      m.query "cycle" = some (.byte cycle) ∧ Instruction.decode? opcode = some i ∧
      cycle.toNat < i.cycles) ∧
    ∃ opcode address ticks, n.query "opcode" = some (.byte opcode) ∧
      n.fault? = some ⟨opcode, address⟩ ∧ n.query "ticks" = some (.count ticks) ∧
      ticks.toNat = 1 := by
  intro memory m n
  obtain ⟨hpair, -, -, opcode, cycle, busy, -, -, ho, hc, hb, -, -, -, -, -, hflight, -⟩ :=
    views_agree .zero [.tick]
  obtain ⟨-, hflag, -, latch, _, _, faulted, ticks, hl, -, -, hf, ht, -, -, hfault, -, hticks⟩ :=
    views_agree memory [.tick, .tick, .writeRegisters (.pc 0)]
  refine ⟨hpair _ _ _ (by decide), hflag _ _ (by decide), ?_, ?_⟩
  · have hnop : (new .zero).nextOpcode = 0 := Memory.read_zero _
    have hfetch := (new .zero).tick_fetch rfl (by decide) (i := .nop) (by rw [hnop]; rfl)
    have hm : m.busy = true := by
      simp only [m, after_cons, after_nil, obey, hfetch, Run.respond]
      rfl
    have hbusy : m.busy = busy :=
      Reading.bit.inj (Option.some.inj ((query_name .busy).symm.trans hb))
    obtain ⟨i, hi⟩ := hflight (hbusy.symm.trans hm)
    exact ⟨opcode, cycle, i, ho, hc, hi⟩
  · have hunknown : (new memory).nextOpcode = 0xFF :=
      (nextOpcode_new memory).trans (Memory.read_write_self _ _ _)
    have htick := (new memory).tick_unknown rfl (by decide) (by rw [hunknown]; rfl)
    have hfirst : ((new memory).obey .tick).machine = (new memory).afterUnknown := by
      rw [obey, htick]
      rfl
    have hperforms : (new memory).performs = true := by
      rw [performs, htick]
      rfl
    have hone : (new memory).performed [.tick, .tick, .writeRegisters (.pc 0)] = 1 := by
      simp only [performed, ticked, List.countP_singleton, hfirst, hperforms]
      rfl
    have hn : n.fault?.isSome = true := by
      simp only [n, after_cons, hfirst]
      rfl
    have hfaulted : n.fault?.isSome = faulted :=
      Reading.bit.inj (Option.some.inj ((query_name .faulted).symm.trans hf))
    obtain ⟨-, -, address, ha⟩ := hfault (hfaulted.symm.trans hn)
    exact ⟨latch, address, ticks, hl, ha, ht, hticks.trans hone⟩

end Micro8080.Machine
