import Micro8080.Proofs.Session

/-!
# The instruction in flight

Whatever a host does, an instruction in flight is the one that the opcode latch stands for, and
its cycles have started but not run out. A latched fault names the opcode in the latch, which
stands for no instruction. So a routine that takes its operands from the latch finds those of
its own instruction there, and the count of elapsed cycles fits a byte.
-/

namespace Micro8080.Machine

variable {m : Machine}

/-- An instruction in flight is the one that the opcode latch stands for. -/
def Latched (m : Machine) : Prop :=
  ∀ i e, m.phase = .executing i e → Instruction.decode? m.opcode = some i

theorem latched_tick (h : m.Latched) : m.tick.machine.Latched := by
  cases m.tickCase with
  | halted f phase tick => rwa [tick]
  | spent fault clock tick => rwa [tick]
  | unknown phase clock opcode tick =>
    rw [tick]
    nofun
  | fetch i phase clock opcode tick =>
    rw [tick]
    rintro j e ⟨⟩
    exact opcode
  | count i e phase clock elapsed tick =>
    rw [tick]
    rintro j d ⟨⟩
    exact h i e phase
  | effect i e phase clock elapsed tick =>
    rw [tick]
    nofun

structure Sound (m : Machine) : Prop where
  executing : ∀ {i e}, m.phase = .executing i e →
    Instruction.decode? m.opcode = some i ∧ 1 ≤ e ∧ e < i.cycles
  halted : ∀ {f}, m.phase = .halted f →
    f.opcode = m.opcode ∧ Instruction.decode? m.opcode = none

theorem sound_of_idle (hp : m.phase = .idle) : m.Sound where
  executing he := by
    rw [hp] at he
    cases he
  halted hf := by
    rw [hp] at hf
    cases hf

theorem sound_tick (h : m.Sound) : m.tick.machine.Sound := by
  cases m.tickCase with
  | halted f phase tick =>
    rw [tick]
    exact h
  | spent fault clock tick =>
    rw [tick]
    exact h
  | unknown phase clock opcode tick =>
    rw [tick]
    refine ⟨nofun, fun hf => ?_⟩
    cases hf
    exact ⟨rfl, opcode⟩
  | fetch i phase clock opcode tick =>
    rw [tick]
    refine ⟨fun he => ?_, nofun⟩
    cases he
    -- the fetch is the first cycle, and no instruction has only one
    have hi := i.four_le_cycles
    exact ⟨opcode, Nat.le_refl 1, by omega⟩
  | count i e phase clock elapsed tick =>
    rw [tick]
    refine ⟨fun he => ?_, nofun⟩
    cases he
    exact ⟨(h.executing phase).1, by omega, elapsed⟩
  | effect i e phase clock elapsed tick =>
    rw [tick]
    exact sound_of_idle rfl

theorem stable_sound : Stable Sound where
  tick := sound_tick
  registers _ h := ⟨h.executing, h.halted⟩
  memory _ h := ⟨h.executing, h.halted⟩

theorem sound_after (memory : Memory) (cs : List Command) : ((new memory).after cs).Sound :=
  stable_sound.after (fun _ => sound_of_idle rfl) cs (sound_of_idle rfl)

theorem Sound.cycle_lt (h : m.Sound) : m.cycle < 16 := by
  unfold cycle
  split
  · next i e hp =>
    have hi := i.cycles_le
    have he := (h.executing hp).2.2
    omega
  · decide
  · decide

/-- The routine that runs takes its operands from the latch, and finds those of its own
instruction there. -/
theorem Sound.effect_of_latch (h : m.Sound) {i : Instruction} {e : Nat}
    (hp : m.phase = .executing i e) (hc : m.ticks.toNat + 1 < UInt64.size)
    (he : i.cycles ≤ e + 1) :
    m.tick.machine.toStorage = i.routine.run m.opcode m.toStorage ∧
      i.routine.run m.opcode m.toStorage = i.exec m.toStorage := by
  rw [m.tick_effect hp hc he]
  exact ⟨rfl, Routine.run_of_decode? m.toStorage (h.executing hp).1⟩

/-- After every session the phase agrees with the opcode latch. -/
theorem phase_agrees_with_latch (memory : Memory) (cs : List Command) :
    let m := (new memory).after cs
    (∀ i e, m.phase = .executing i e →
      Instruction.decode? m.opcode = some i ∧ 1 ≤ e ∧ e < i.cycles ∧ m.fault? = none ∧
        e + 1 < UInt8.size ∧
        (m.ticks.toNat + 1 < UInt64.size → i.cycles ≤ e + 1 →
          m.tick.machine.toStorage = i.routine.run m.opcode m.toStorage ∧
            i.routine.run m.opcode m.toStorage = i.exec m.toStorage)) ∧
    ∀ f, m.fault? = some f →
      m.busy = false ∧ f.opcode = m.opcode ∧ Instruction.decode? m.opcode = none := by
  intro m
  have h : m.Sound := sound_after memory cs
  refine ⟨?_, ?_⟩
  · intro i e hp
    obtain ⟨hd, hlo, hhi⟩ := h.executing hp
    have hi := i.cycles_le
    have hs : UInt8.size = 256 := rfl
    refine ⟨hd, hlo, hhi, by rw [fault?, hp], by omega, ?_⟩
    intro hc he
    exact h.effect_of_latch hp hc he
  · intro f hf
    have hp := (m.fault?_eq_some_iff f).mp hf
    exact ⟨by rw [busy, hp], h.halted hp⟩

/-- The latch of a NOP in its first cycle, and that of a fault whose opcode is overwritten. -/
theorem latch_after_first_tick :
    Instruction.decode? ((new .zero).after [.tick]).opcode = some .nop ∧
      Instruction.decode?
        ((new (Memory.zero.write 0 0xFF)).after [.tick, .writeMemory (.byte 0 0)]).opcode =
          none := by
  refine ⟨?_, ?_⟩
  · have hd : Instruction.decode? (new .zero).nextOpcode = some .nop := by
      have ho : (new .zero).nextOpcode = 0 := Memory.read_zero _
      rw [ho]
      rfl
    have ht := (new .zero).tick_fetch rfl (by decide) hd
    have hp : ((new .zero).after [.tick]).phase = .executing .nop 1 := by
      simp only [after_cons, after_nil, obey, ht, Run.respond]
      rfl
    exact ((phase_agrees_with_latch .zero [.tick]).1 .nop 1 hp).1
  · have ho : (new (Memory.zero.write 0 0xFF)).nextOpcode = 0xFF := Memory.read_write_self _ _ _
    have ht := (new (Memory.zero.write 0 0xFF)).tick_unknown rfl (by decide) (by rw [ho]; rfl)
    have hf : ((new (Memory.zero.write 0 0xFF)).after
        [.tick, .writeMemory (.byte 0 0)]).fault? = some ⟨0xFF, 0⟩ := by
      simp only [after_cons, after_nil, obey, ht, Run.respond, Memory.Write.perform?, nextFault,
        fault?_eq_some_iff, afterUnknown, ho]
      rfl
    exact ((phase_agrees_with_latch _ _).2 _ hf).2.2

end Micro8080.Machine
