import Mathlib.Algebra.BigOperators.Ring.Finset
import Micro8080.Proofs.Effect
import Micro8080.Proofs.Session

/-!
# The log of a run

The log of a machine that runs from its start lists the fetches, and a halt at the end if there
was one. It determines when and where each fetch took place: the cycles of the fetches before it
say at which tick, and the last of them says at which address. `Chronicle` is the invariant of
such runs; it ties the fetches to PC, to the latches and to the count of ticks.
-/

namespace Micro8080

structure Fetch where
  address : Word
  instruction : Instruction

namespace Fetch

variable (f : Fetch) (fs : List Fetch)

def event : Event := .fetchOf f.address f.instruction

/-- A log shows which fetches it lists. -/
theorem event_injective : Function.Injective event := by
  rintro ⟨a, i⟩ ⟨b, j⟩ h
  simp only [event, Event.fetchOf, Event.fetched.injEq] at h
  obtain ⟨hop, rfl, -, -⟩ := h
  rw [Instruction.opcode_inj.mp hop]

/-- Where execution goes on. A jump has its operand word from the memory of the fetch. -/
def next (memory : Memory) : Word :=
  if f.instruction.opcode = 0xC3 then memory.readWord (f.address + 1)
  else f.address + UInt16.ofNat f.instruction.length

/-- The cycles of all instructions of a list of fetches. -/
def cycles : Nat := (fs.map (·.instruction.cycles)).sum

theorem cycles_cons : cycles (f :: fs) = f.instruction.cycles + cycles fs := by
  simp [cycles]

@[simp] theorem cycles_concat : cycles (fs ++ [f]) = cycles fs + f.instruction.cycles := by
  simp [cycles]

theorem cycles_dropLast :
    cycles fs.dropLast + (fs.getLast?.map (·.instruction.cycles)).getD 0 = cycles fs := by
  cases fs using List.reverseRecOn with
  | nil => rfl
  | append_singleton fs f => simp

theorem next_of_jmp {f : Fetch} (hj : f.instruction = .jmp) (memory : Memory) :
    f.next memory = memory.readWord (f.address + 1) := by
  rw [next, hj]
  exact if_pos rfl

theorem next_of_ne_jmp {f : Fetch} (hj : f.instruction ≠ .jmp) (memory : Memory) :
    f.next memory = f.address + UInt16.ofNat f.instruction.length := by
  rw [next, if_neg]
  exact fun h => hj (Instruction.opcode_inj.mp h)

end Fetch

namespace Machine

variable (memory : Memory) (fs : List Fetch)

/-- The machine that started on `memory`, after `t` ticks. -/
def atTick (t : Nat) : Machine := (tickN t (new memory)).machine

/-- The address at which a run from `memory` goes on after the fetches `fs`. -/
def resume : Word :=
  match fs.getLast? with
  | none => 0
  | some f => f.next (atTick memory (Fetch.cycles fs.dropLast)).memory

/-- In the run from `memory`, `f` comes next after `fs`. -/
structure Follows (f : Fetch) : Prop where
  address : f.address = resume memory fs
  opcode : Instruction.decode? ((atTick memory (Fetch.cycles fs)).memory.read f.address) =
    some f.instruction
  events : (atTick memory (Fetch.cycles fs)).tick.events = [f.event]

/-- After `fs` the run from `memory` has fetched `f`, and `e` cycles of it have gone when it comes
to the machine `n`. Of what the latches hold, only the target of a jump decides what comes next. -/
structure Underway (f : Fetch) (e : Nat) (n : Machine) : Prop where
  ticks : n.ticks.toNat = Fetch.cycles fs + e
  elapsed : e < f.instruction.cycles
  latch : Instruction.decode? n.opcode = some f.instruction
  pc : n.registers.pc = f.address + UInt16.ofNat f.instruction.length
  wz : f.instruction = .jmp →
    n.registers.wz = (atTick memory (Fetch.cycles fs)).memory.readWord (f.address + 1)

/-- The run from `memory` has fetched `fs` when it comes to the machine `n`. -/
structure Chronicle (n : Machine) : Prop where
  here : n = atTick memory n.ticks.toNat
  follows : ∀ gs f, gs ++ [f] <+: fs → Follows memory gs f
  idle : n.phase = .idle →
    n.ticks.toNat = Fetch.cycles fs ∧ n.registers.pc = resume memory fs
  executing : ∀ i e, n.phase = .executing i e →
    ∃ gs f, fs = gs ++ [f] ∧ f.instruction = i ∧ Underway memory gs f e n
  halted : ∀ f, n.phase = .halted f →
    n.ticks.toNat = Fetch.cycles fs + 1 ∧ f.address = resume memory fs ∧
    f.opcode = (atTick memory (Fetch.cycles fs)).memory.read f.address

/-- What the log shows of the chronicle. -/
def Recorded (es : List Event) (n : Machine) : Prop :=
  ∃ fs, es = fs.map Fetch.event ++ n.fault?.toList.map .halted ∧ Chronicle memory fs n

variable {memory fs} {n : Machine}

@[simp] theorem resume_concat (f : Fetch) :
    resume memory (fs ++ [f]) = f.next (atTick memory (Fetch.cycles fs)).memory := by
  simp [resume]

theorem chronicle_new : Chronicle memory [] (new memory) where
  here := rfl
  follows gs f h := by simp at h
  idle _ := ⟨rfl, pc_new memory⟩
  executing _ _ h := by cases h
  halted _ h := by cases h

namespace Chronicle

variable (h : Chronicle memory fs n)

include h

theorem here_tick {k : Machine} {es : List Event} {r : Except Stop Unit}
    (ht : n.tick = ⟨k, es, r⟩) (hk : k.ticks = n.ticks.later 1)
    (hc : n.ticks.toNat + 1 < UInt64.size) : k = atTick memory k.ticks.toNat := by
  have hn : n.tick = (atTick memory n.ticks.toNat).tick := congrArg tick h.here
  rw [hk, n.ticks.toNat_later hc, atTick, (tickN_succ_last _).1, ← atTick, ← hn, ht]

theorem at_idle (hp : n.phase = .idle) : n = atTick memory (Fetch.cycles fs) := by
  rw [← (h.idle hp).1]
  exact h.here

theorem afterUnknown (hp : n.phase = .idle) (hc : n.ticks.toNat + 1 < UInt64.size)
    (hd : Instruction.decode? n.nextOpcode = none) : Chronicle memory fs n.afterUnknown where
  here := h.here_tick (n.tick_unknown hp hc hd) rfl hc
  follows := h.follows
  idle hi := by cases hi
  executing _ _ he := by cases he
  halted f hf := by
    cases hf
    obtain ⟨ht, hpc⟩ := h.idle hp
    refine ⟨?_, hpc, ?_⟩
    · rw [← ht]
      exact n.ticks.toNat_later hc
    · rw [← h.at_idle hp]
      rfl

theorem afterFetch {i : Instruction} (hp : n.phase = .idle)
    (hc : n.ticks.toNat + 1 < UInt64.size) (hd : Instruction.decode? n.nextOpcode = some i) :
    Chronicle memory (fs ++ [⟨n.registers.pc, i⟩]) (n.afterFetch i) where
  here := h.here_tick (n.tick_fetch hp hc hd) rfl hc
  follows gs f hg := by
    rcases List.prefix_concat_iff.mp hg with he | hg
    · obtain ⟨rfl, hf⟩ := List.append_inj' he rfl
      obtain rfl : f = ⟨n.registers.pc, i⟩ := by simpa using hf
      refine ⟨(h.idle hp).2, ?_, ?_⟩
      · rw [← h.at_idle hp]
        exact hd
      · rw [← h.at_idle hp, n.tick_fetch hp hc hd]
        rfl
    · exact h.follows gs f hg
  idle hi := by cases hi
  executing j e he := by
    cases he
    refine ⟨fs, ⟨n.registers.pc, i⟩, rfl, rfl, ?_, ?_, hd, n.pc_afterFetch i, ?_⟩
    · rw [← (h.idle hp).1]
      exact n.ticks.toNat_later hc
    · exact Nat.lt_of_lt_of_le (by decide) i.four_le_cycles
    · rintro rfl
      rw [← h.at_idle hp]
      exact Instruction.jmp.wz_stage n.memory n.registers rfl
  halted _ hf := by cases hf

theorem afterCounting {i : Instruction} {e : Nat} (hp : n.phase = .executing i e)
    (hc : n.ticks.toNat + 1 < UInt64.size) (he : e + 1 < i.cycles) :
    Chronicle memory fs (n.afterCounting i (e + 1) 1) where
  here := h.here_tick (n.tick_count hp hc he) rfl hc
  follows := h.follows
  idle hi := by cases hi
  executing j d hd := by
    cases hd
    obtain ⟨gs, f, hfs, rfl, hu⟩ := h.executing i e hp
    refine ⟨gs, f, hfs, rfl, ?_, he, hu.latch, hu.pc, hu.wz⟩
    rw [← Nat.add_assoc, ← hu.ticks]
    exact n.ticks.toNat_later hc
  halted _ hf := by cases hf

theorem afterEffect {i : Instruction} {e : Nat} (hp : n.phase = .executing i e)
    (hc : n.ticks.toNat + 1 < UInt64.size) (he : i.cycles ≤ e + 1) :
    Chronicle memory fs (n.afterEffect i 1) where
  here := h.here_tick (n.tick_effect hp hc he) rfl hc
  follows := h.follows
  idle _ := by
    obtain ⟨gs, f, rfl, rfl, hu⟩ := h.executing i e hp
    refine ⟨?_, ?_⟩
    · have hlast : f.instruction.cycles = e + 1 := Nat.le_antisymm he hu.elapsed
      rw [Fetch.cycles_concat, hlast, ← Nat.add_assoc, ← hu.ticks]
      exact n.ticks.toNat_later hc
    · have hs := congrArg Storage.registers (n.toStorage_afterEffect hu.latch 1)
      rw [resume_concat, hs]
      -- a jump takes PC from the latches, so memory may have changed since its fetch
      by_cases hj : f.instruction = .jmp
      · rw [Fetch.next_of_jmp hj, ← hu.wz hj, hj]
        exact n.registers.pc_setPc _
      · rw [Fetch.next_of_ne_jmp hj, ← hu.pc]
        exact Instruction.pc_exec n.toStorage hj
  executing _ _ hd := by cases hd
  halted _ hf := by cases hf

theorem ticks_eq :
    n.ticks.toNat = Fetch.cycles fs.dropLast +
      (if n.busy then n.cycle else (fs.getLast?.map (·.instruction.cycles)).getD 0) +
      (if n.fault?.isSome then 1 else 0) := by
  cases hp : n.phase with
  | idle =>
    rw [(h.idle hp).1, ← Fetch.cycles_dropLast]
    simp [busy, fault?, hp]
  | executing i e =>
    obtain ⟨gs, f, rfl, _, hu⟩ := h.executing i e hp
    rw [hu.ticks]
    simp [busy, cycle, fault?, hp]
  | halted f =>
    rw [(h.halted f hp).1, ← Fetch.cycles_dropLast]
    simp [busy, fault?, hp]

end Chronicle

theorem recorded_tick {es : List Event} (h : Recorded memory es n) :
    Recorded memory (es ++ n.tick.events) n.tick.machine := by
  obtain ⟨fs, rfl, hc⟩ := h
  cases n.tickCase with
  | halted f phase tick =>
    rw [tick]
    exact ⟨fs, List.append_nil _, hc⟩
  | spent fault clock tick =>
    rw [tick]
    exact ⟨fs, List.append_nil _, hc⟩
  | unknown phase clock opcode tick =>
    have hf : n.fault? = none := by rw [fault?, phase]
    rw [tick, hf]
    refine ⟨fs, ?_, hc.afterUnknown phase clock opcode⟩
    rw [Option.toList_none, List.map_nil, List.append_nil]
    rfl
  | fetch i phase clock opcode tick =>
    have hf : n.fault? = none := by rw [fault?, phase]
    rw [tick, hf]
    refine ⟨fs ++ [⟨n.registers.pc, i⟩], ?_, hc.afterFetch phase clock opcode⟩
    rw [Option.toList_none, List.map_nil, List.append_nil, List.map_append]
    exact (List.append_nil _).symm
  | count i e phase clock elapsed tick =>
    have hf : n.fault? = none := by rw [fault?, phase]
    rw [tick, hf]
    exact ⟨fs, List.append_nil _, hc.afterCounting phase clock elapsed⟩
  | effect i e phase clock elapsed tick =>
    have hf : n.fault? = none := by rw [fault?, phase]
    rw [tick, hf]
    exact ⟨fs, List.append_nil _, hc.afterEffect phase clock elapsed⟩

theorem recorded_tickN (k : Nat) :
    Recorded memory (tickN k (new memory)).events (tickN k (new memory)).machine := by
  induction k with
  | zero => exact ⟨[], rfl, chronicle_new⟩
  | succ k ih =>
    obtain ⟨hm, he⟩ := tickN_succ_last (m := new memory) k
    rw [hm, he]
    exact recorded_tick ih

/-- The log of a run lists its fetches, and the halt at the end if there was one. Each fetch took
the instruction at its address from the memory of that time, each goes on where the one before
it led, and the ticks are the cycles of the instructions so far and one for a halt. -/
theorem log_of_driven_run (memory : Memory) {cs : List Command}
    (hcs : ∀ c ∈ cs, c.drives = true) :
    let n := (new memory).after cs
    n = atTick memory n.ticks.toNat ∧
      ∃ fs : List Fetch,
        (new memory).log cs = fs.map Fetch.event ++ n.fault?.toList.map .halted ∧
        (∀ gs f, gs ++ [f] <+: fs → Follows memory gs f) ∧
        (∀ f, n.fault? = some f → f.address = resume memory fs ∧
          f.opcode = (atTick memory (Fetch.cycles fs)).memory.read f.address) ∧
        n.ticks.toNat = Fetch.cycles fs.dropLast +
          (if n.busy then n.cycle else (fs.getLast?.map (·.instruction.cycles)).getD 0) +
          (if n.fault?.isSome then 1 else 0) := by
  intro n
  obtain ⟨k, hm, he⟩ := session_eq_tickN (m := new memory) hcs
  obtain ⟨fs, hlog, hc⟩ : Recorded memory _ _ := recorded_tickN k
  rw [← he, ← hm] at hlog
  rw [← hm] at hc
  refine ⟨hc.here, fs, hlog, hc.follows, fun f hf => ?_, hc.ticks_eq⟩
  exact (hc.halted f ((n.fault?_eq_some_iff f).mp hf)).2

/-- A jump to itself, once by a step and once more up to its fetch. -/
theorem log_of_jump_to_itself :
    let m := new (Memory.zero.write 0 0xC3)
    m.log [.step, .tick] = [.fetched 0xC3 0 3 10, .fetched 0xC3 0 3 10] ∧
      (m.after [.step, .tick]).ticks.toNat = 11 := by
  intro m
  have hd : Instruction.decode? 0xC3 = some .jmp := rfl
  have ho : m.nextOpcode = 0xC3 := (nextOpcode_new _).trans (Memory.read_write_self _ _ _)
  have hm : m.registers.pc = 0 := pc_new _
  let n : Machine := m.afterStep .jmp
  have hs : m.step = ⟨n, [.fetched 0xC3 0 3 10], .ok 10⟩ := by
    rw [step_of_known rfl (ho ▸ hd) (by decide), hm]
    rfl
  have hw : (Memory.zero.write 0 0xC3).readWord 1 = 0 := by
    rw [Memory.readWord, Memory.read_write_of_ne _ (by decide),
      Memory.read_write_of_ne _ (by decide), Memory.read_zero, Memory.read_zero]
    rfl
  have hpc : n.registers.pc = 0 := by
    have hwz := Instruction.jmp.wz_stage m.memory m.registers rfl
    rw [hm] at hwz
    exact (Registers.pc_setPc _ _).trans (hwz.trans hw)
  have hn : n.nextOpcode = 0xC3 :=
    (nextOpcode_of_pc hpc).trans (Memory.read_write_self _ _ _)
  have ht : n.tick = ⟨n.afterFetch .jmp, [.fetched 0xC3 0 3 10], .ok ()⟩ := by
    rw [n.tick_fetch rfl (by decide) (hn ▸ hd), hpc]
    rfl
  have hfirst : m.obey .step = ⟨n, [.fetched 0xC3 0 3 10], .ticks 10⟩ := by
    rw [obey, hs]
    rfl
  have hsecond : n.obey .tick = ⟨n.afterFetch .jmp, [.fetched 0xC3 0 3 10], .done⟩ := by
    rw [obey, ht]
    rfl
  have hlog : m.log [.step, .tick] = [.fetched 0xC3 0 3 10, .fetched 0xC3 0 3 10] := by
    rw [log, hfirst, log, hsecond, log]
    rfl
  have hafter : m.after [.step, .tick] = n.afterFetch .jmp := by
    rw [after_cons, hfirst, after_cons, hsecond, after_nil]
  have hrun := log_of_driven_run (Memory.zero.write 0 0xC3)
    (show ∀ c ∈ [Command.step, .tick], c.drives = true by decide)
  rw [show (new _).log _ = _ from hlog, show (new _).after _ = _ from hafter] at hrun
  obtain ⟨_, fs, hfs, _, _, hticks⟩ := hrun
  have hmap : [⟨0, .jmp⟩, ⟨0, .jmp⟩].map Fetch.event = fs.map Fetch.event :=
    hfs.trans (List.append_nil _)
  have hf : [⟨0, .jmp⟩, ⟨0, .jmp⟩] = fs := List.map_injective_iff.mpr Fetch.event_injective hmap
  refine ⟨hlog, ?_⟩
  rw [hafter, hticks, ← hf]
  rfl

end Machine

end Micro8080
