import Micro8080.Proofs.Session

/-!
# Writes of the host during an instruction

While an instruction only counts its cycles, the writes of a host and the ticks do not see each
other. So the machine in mid-instruction is known from the number of the ticks and the writes in
their order, however they interleave, and the last tick applies the routine of the opcode in the
latch to the registers and the memory that the writes have left.
-/

namespace Micro8080

/-- `cs` interleaves the writes `ws`, in their order, with `n` ticks. -/
structure Interleaves (ws : List Command) (n : Nat) (cs : List Command) : Prop where
  only : ∀ c ∈ cs, c = .tick ∨ c.writes = true
  order : cs.filter Command.writes = ws
  ticks : cs.count .tick = n

namespace Storage

variable (s : Storage)

theorem written_filter (cs : List Command) :
    s.written (cs.filter Command.writes) = s.written cs := by
  induction cs generalizing s with
  | nil => rfl
  | cons c cs ih =>
    cases hc : c.writes with
    | false => rw [List.filter_cons_of_neg (by simp [hc]), ih, written_cons,
        Command.write_of_not_writes hc]
    | true => rw [List.filter_cons_of_pos hc, written_cons, written_cons, ih]

end Storage

namespace Machine

variable {m : Machine} {i : Instruction} {e : Nat}

/-- A machine in mid-instruction after ticks and writes in any order: the ticks have counted,
the writes have been performed, and nothing else has changed. -/
theorem after_of_executing {cs : List Command} (hp : m.phase = .executing i e)
    (hcs : ∀ c ∈ cs, c = .tick ∨ c.writes = true) (hk : e + cs.count .tick < i.cycles)
    (hc : m.ticks.toNat + cs.count .tick < UInt64.size) :
    m.after cs =
      { m.afterCounting i (e + cs.count .tick) (cs.count .tick) with
        toStorage := m.toStorage.written cs } := by
  induction cs generalizing m e with
  | nil =>
    rw [List.count_nil, afterCounting, Nat.add_zero, ← hp, Ticks.later_zero]
    rfl
  | cons c cs ih =>
    obtain ⟨hhead, htail⟩ := List.forall_mem_cons.mp hcs
    rcases hhead with rfl | hw
    · rw [List.count_cons_self] at hk hc ⊢
      have hn : (m.ticks.later 1).toNat = m.ticks.toNat + 1 := m.ticks.toNat_later (by omega)
      have ht : (m.obey .tick).machine = m.afterCounting i (e + 1) 1 := by
        rw [obey, m.tick_count hp (by omega) (by omega)]
        rfl
      rw [after_cons, ht, ih (m := m.afterCounting i (e + 1) 1) rfl htail (by omega)
        (by rw [afterCounting, hn]; omega)]
      simp only [afterCounting, Ticks.later_later, Nat.add_comm, Nat.add_left_comm]
      rfl
    · have hne : c ≠ .tick := by
        rintro rfl
        cases hw
      rw [List.count_cons_of_ne hne] at hk hc ⊢
      rw [after_cons, obey_of_writes hw,
        ih (m := { m with toStorage := c.write m.toStorage }) hp htail hk hc]
      rfl

theorem tick_of_interleaved {ws cs : List Command} {n : Nat} (hp : m.phase = .executing i e)
    (hcs : Interleaves ws n cs) (hn : e + n + 1 = i.cycles)
    (hc : m.ticks.toNat + (n + 1) < UInt64.size) :
    (m.after cs).obey .tick =
      ⟨{ m with
          toStorage := i.routine.run m.opcode (m.toStorage.written ws)
          phase := .idle
          ticks := m.ticks.later (n + 1) }, [], .done⟩ := by
  obtain ⟨only, rfl, rfl⟩ := hcs
  have hk : (m.ticks.later (cs.count .tick)).toNat = m.ticks.toNat + cs.count .tick :=
    m.ticks.toNat_later (by omega)
  rw [after_of_executing hp only (by omega) (by omega), Storage.written_filter, obey,
    tick_effect { m.afterCounting i _ _ with toStorage := m.toStorage.written cs } rfl
      (by rw [afterCounting, hk]; omega) (by omega)]
  simp only [afterEffect, afterCounting, Ticks.later_later]
  rfl

/-- A write of the host and a tick that only counts can change places. However a list of writes
interleaves with the ticks of an instruction, the last tick runs the routine of the opcode in the
latch on what the writes have made of registers and memory, and this is the effect of the
instruction that was fetched. -/
theorem writes_float_over_ticks (hp : m.phase = .executing i e)
    (hd : Instruction.decode? m.opcode = some i) (he : e + 1 < i.cycles)
    (hc : m.ticks.toNat + i.cycles < UInt64.size) :
    (∀ w : Command, w.writes = true → m.after [.tick, w] = m.after [w, .tick]) ∧
      (∀ ws n cs, Interleaves ws n cs →
        (e + n < i.cycles →
          m.after cs =
            { m with
              toStorage := m.toStorage.written ws
              phase := .executing i (e + n)
              ticks := m.ticks.later n }) ∧
        (e + n + 1 = i.cycles →
          (m.after cs).obey .tick =
            ⟨{ m with
                toStorage := i.routine.run m.opcode (m.toStorage.written ws)
                phase := .idle
                ticks := m.ticks.later (n + 1) }, [], .done⟩)) ∧
      ∀ s, i.routine.run m.opcode s = i.exec s := by
  refine ⟨fun w hw => ?_, fun ws n cs hcs => ⟨fun hn => ?_, fun hn => ?_⟩,
    fun s => Routine.run_of_decode? s hd⟩
  · have hne : w ≠ .tick := by
      rintro rfl
      cases hw
    have ht : [Command.tick, w].count .tick = 1 := by simp [hne]
    have hs : [w, Command.tick].count .tick = 1 := by simp [hne]
    rw [after_of_executing hp (by simp [hw]) (by omega) (by omega),
      after_of_executing hp (by simp [hw]) (by omega) (by omega), ht, hs]
    rfl
  · obtain ⟨only, rfl, rfl⟩ := hcs
    rw [after_of_executing hp only hn (by omega), Storage.written_filter]
    rfl
  · exact tick_of_interleaved hp hcs hn (by omega)

/-- An increment of B whose opcode, operand and PC are overwritten between its ticks. -/
theorem inr_of_overwritten_opcode :
    let m := (new (Memory.zero.write 0 0x04)).after [.tick]
    let cs : List Command := [.tick, .writeMemory (.byte 0 0x76),
      .writeRegisters (.register .b 0x41), .tick, .writeRegisters (.pc 0x1234), .tick]
    let last := (m.after cs).obey .tick
    last.answer = .done ∧
      last.machine.registers =
        ((Registers.zero.setPair .bc 0x4200).set .f 0x04).setPc 0x1234 := by
  intro m cs last
  have ho : (new (Memory.zero.write 0 0x04)).nextOpcode = 0x04 :=
    (nextOpcode_new _).trans (Memory.read_write_self _ _ _)
  have hd : Instruction.decode? 0x04 = some (.inr (.reg .b)) := rfl
  have hm : m = (new (Memory.zero.write 0 0x04)).afterFetch (.inr (.reg .b)) := by
    simp only [m, after_cons, after_nil, obey, tick_fetch _ rfl (by decide) (ho.symm ▸ hd)]
    rfl
  have hp : m.phase = .executing (.inr (.reg .b)) 1 := by rw [hm]; rfl
  have hop : m.opcode = 0x04 := by rw [hm]; exact ho
  have ht : m.ticks.toNat = 1 := by rw [hm]; rfl
  have hcs : Interleaves [.writeMemory (.byte 0 0x76), .writeRegisters (.register .b 0x41),
      .writeRegisters (.pc 0x1234)] 3 cs := ⟨by decide, rfl, rfl⟩
  have hl : last = _ := ((writes_float_over_ticks hp (by rw [hop]; exact hd) (by decide)
    (by rw [ht]; decide)).2.1 _ 3 cs hcs).2 rfl
  have hs : m.registers = Registers.zero.setPc 1 := by
    rw [hm]
    decide
  rw [hl, hop]
  refine ⟨rfl, ?_⟩
  simp only [Storage.written_cons, Storage.written_nil, Command.write, hs]
  decide

end Machine

end Micro8080
