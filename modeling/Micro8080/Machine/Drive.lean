import Micro8080.Machine.Tick

/-!
# Driving the machine

A host drives the machine by a number of ticks or by whole instructions. `tickN` gives up to
`n` ticks and ends at the first stop. `step` ticks until no instruction is in flight and counts
the ticks; it ends because the cycles that are left go down with every tick.
-/

namespace Micro8080.Machine

def tickN : Nat → Machine → Run Unit
  | 0, m => .done m ()
  | n + 1, m => m.tick.andThen fun _ => tickN n

/-- More than the ticks that a step can still take after the next one. -/
def wait (m : Machine) : Nat :=
  match m.phase with
  | .idle => 16
  | .executing i elapsed => i.cycles - elapsed
  | .halted _ => 0

theorem wait_settle {m : Machine} {i : Instruction} {e : Nat}
    (hb : (m.settle i e).busy = true) : (m.settle i e).wait = i.cycles - e ∧ e < i.cycles := by
  by_cases h : i.cycles ≤ e
  · simp [settle_of_le m h, busy] at hb
  · rw [settle_of_lt m (by omega)]
    exact ⟨rfl, by omega⟩

theorem wait_fetch {m n : Machine} {es : List Event} (h : m.fetch = ⟨n, es, .ok ()⟩) :
    n.wait < 16 := by
  cases hd : Instruction.decode? (m.memory.read m.registers.pc) with
  | none => simp [fetch_of_none m rfl hd] at h
  | some i =>
    have := i.cycles_le
    rw [fetch_of_some m rfl hd, Run.mk.injEq] at h
    rw [← h.1]
    simp only [wait]
    omega

theorem wait_tick {m n : Machine} {es : List Event} (h : m.tick = ⟨n, es, .ok ()⟩)
    (hb : n.busy = true) : n.wait < m.wait := by
  unfold tick at h
  split at h
  · simp [Run.stopped] at h
  · simp [Run.stopped] at h
  · next hp _ =>
    have := wait_fetch h
    simpa only [wait, hp] using this
  · next i e t hp _ =>
    simp only [Run.done, Run.mk.injEq] at h
    rw [← h.1] at hb ⊢
    obtain ⟨hw, hlt⟩ := wait_settle hb
    rw [hw]
    simp only [wait, hp]
    omega

def step (m : Machine) : Run Nat :=
  match h : m.tick with
  | ⟨n, es, .error s⟩ => ⟨n, es, .error s⟩
  | ⟨n, es, .ok ()⟩ =>
    if hb : n.busy = true then
      let rest := step n
      ⟨rest.machine, es ++ rest.events, rest.result.map (· + 1)⟩
    else ⟨n, es, .ok 1⟩
termination_by m.wait
decreasing_by exact wait_tick h hb

variable (m : Machine)

@[simp] theorem tickN_zero : tickN 0 m = .done m () := rfl

theorem tickN_succ (n : Nat) : tickN (n + 1) m = m.tick.andThen fun _ => tickN n := rfl

theorem step_of_error {m n : Machine} {es : List Event} {s : Stop}
    (h : m.tick = ⟨n, es, .error s⟩) : m.step = ⟨n, es, .error s⟩ := by
  rw [step]
  split <;> simp_all

theorem step_of_busy {m n : Machine} {es : List Event} (h : m.tick = ⟨n, es, .ok ()⟩)
    (hb : n.busy = true) :
    m.step = ⟨n.step.machine, es ++ n.step.events, n.step.result.map (· + 1)⟩ := by
  rw [step]
  split <;> simp_all

theorem step_of_not_busy {m n : Machine} {es : List Event} (h : m.tick = ⟨n, es, .ok ()⟩)
    (hb : n.busy = false) : m.step = ⟨n, es, .ok 1⟩ := by
  rw [step]
  split <;> simp_all

end Micro8080.Machine
