import Micro8080.Proofs.Chronicle
import Micro8080.Proofs.Timing

/-!
# Listings of code

A linear sweep reads instructions from memory one behind the other, by their lengths alone. Its
listing says what a machine does that steps through this code, as long as the code neither jumps
nor stores: which instructions it fetches and from where, how long they take, and where it comes
to stand. A sweep may wrap around and list the same cells more than once.
-/

namespace Micro8080

/-- Instructions with their addresses, and the address behind the last one. -/
structure Listing where
  lines : List Fetch
  stop : Word

/-- The listing of the first instructions from `a` on, if all their opcodes stand for one. -/
def Memory.listing? (memory : Memory) : Nat → Word → Option Listing
  | 0, a => some ⟨[], a⟩
  | k + 1, a =>
    (Instruction.decode? (memory.read a)).bind fun i =>
      (memory.listing? k (a + UInt16.ofNat i.length)).map fun l => ⟨⟨a, i⟩ :: l.lines, l.stop⟩

theorem Memory.listing?_succ_eq_some_iff {memory : Memory} {k : Nat} {a : Word} {l : Listing} :
    memory.listing? (k + 1) a = some l ↔
      ∃ i t, Instruction.decode? (memory.read a) = some i ∧
        memory.listing? k (a + UInt16.ofNat i.length) = some t ∧
        l = ⟨⟨a, i⟩ :: t.lines, t.stop⟩ := by
  simp only [listing?, Option.bind_eq_some_iff, Option.map_eq_some_iff]
  constructor
  · rintro ⟨i, hd, t, ht, rfl⟩
    exact ⟨i, t, hd, ht, rfl⟩
  · rintro ⟨i, t, hd, ht, rfl⟩
    exact ⟨i, hd, t, ht, rfl⟩

namespace Machine

variable {m n : Machine} {k : Nat} {l : Listing}

/-- `n` has gone through the listing `l` from where `m` was: it stands behind the last line, the
cycles of all lines have passed, and memory is what it was. -/
structure Passed (m : Machine) (l : Listing) (n : Machine) : Prop where
  phase : n.phase = .idle
  pc : n.registers.pc = l.stop
  memory : n.memory = m.memory
  ticks : n.ticks.toNat = m.ticks.toNat + Fetch.cycles l.lines

theorem steps_of_listing (hp : m.phase = .idle)
    (hl : m.memory.listing? k m.registers.pc = some l)
    (hs : ∀ f ∈ l.lines, f.instruction ≠ .jmp ∧ f.instruction.storing = false)
    (hc : m.ticks.toNat + Fetch.cycles l.lines < UInt64.size) :
    m.answers (List.replicate k .step) = l.lines.map (fun f => .ticks f.instruction.cycles) ∧
      m.log (List.replicate k .step) = l.lines.map Fetch.event ∧
      m.Passed l (m.after (List.replicate k .step)) := by
  induction k generalizing m l with
  | zero =>
    cases hl
    exact ⟨rfl, rfl, hp, rfl, rfl, rfl⟩
  | succ k ih =>
    obtain ⟨i, t, hd, ht, rfl⟩ := Memory.listing?_succ_eq_some_iff.mp hl
    obtain ⟨⟨hj, hi⟩, hrest⟩ := List.forall_mem_cons.mp hs
    have hc : m.ticks.toNat + (i.cycles + Fetch.cycles t.lines) < UInt64.size := by
      rwa [Fetch.cycles_cons] at hc
    have ho := obey_step_of_known hp hd (by omega)
    have hn := toNat_ticks_afterStep (m := m) (i := i) (by omega)
    have hm : (m.afterStep i).memory = m.memory := memory_afterStep hi
    have hpc : (m.afterStep i).registers.pc = m.registers.pc + UInt16.ofNat i.length :=
      pc_afterStep hj
    obtain ⟨ha, he, hq⟩ := ih phase_afterStep (by rw [hm, hpc, ht]) hrest (by omega)
    rw [List.replicate_succ, answers, log, after_cons, ho]
    refine ⟨?_, ?_, hq.phase, hq.pc, hq.memory.trans hm, ?_⟩
    · rw [ha, List.map_cons]
    · rw [he, List.map_cons]
      rfl
    · rw [hq.ticks, hn, Fetch.cycles_cons, Nat.add_assoc]

/-- Steps go through a listing line by line, and an opcode behind it that stands for no
instruction stops the next step. -/
theorem steps_follow_listing (hp : m.phase = .idle)
    (hl : m.memory.listing? k m.registers.pc = some l)
    (hs : ∀ f ∈ l.lines, f.instruction ≠ .jmp ∧ f.instruction.storing = false)
    (hc : m.ticks.toNat + Fetch.cycles l.lines < UInt64.size) :
    let n := m.after (List.replicate k .step)
    m.answers (List.replicate k .step) = l.lines.map (fun f => .ticks f.instruction.cycles) ∧
      m.log (List.replicate k .step) = l.lines.map Fetch.event ∧
      m.Passed l n ∧
      (Instruction.lengthOf? (m.memory.read l.stop) = none → n.ticks.toNat + 1 < UInt64.size →
        (n.obey .step).answer = .stopped (.fault ⟨m.memory.read l.stop, l.stop⟩)) := by
  intro n
  obtain ⟨ha, he, hn⟩ := steps_of_listing hp hl hs hc
  refine ⟨ha, he, hn, fun hu ht => ?_⟩
  have ho : n.nextOpcode = m.memory.read l.stop := by rw [nextOpcode, hn.memory, hn.pc]
  rw [Instruction.lengthOf?_eq_none_iff, ← ho] at hu
  rw [obey_step_of_unknown hn.phase hu ht, nextFault, ho, hn.pc]

/-- A NOP and a load of SP whose operand bytes wrap around, up to an unknown opcode. -/
theorem listing_across_last_address :
    let m : Machine :=
      { new ((Memory.zero.write 0xFFFE 0x31).write 0x0001 0xFF) with
        registers := Registers.zero.setPc 0xFFFD }
    m.answers [.step, .step, .step] = [.ticks 4, .ticks 10, .stopped (.fault ⟨0xFF, 1⟩)] ∧
      m.log [.step, .step] = [.fetched 0x00 0xFFFD 1 4, .fetched 0x31 0xFFFE 3 10] := by
  intro m
  have hpc : m.registers.pc = 0xFFFD := Registers.zero.pc_setPc _
  have hnop : m.memory.read 0xFFFD = 0x00 := by simp [m, new]
  have hlxi : m.memory.read 0xFFFE = 0x31 := by simp [m, new]
  have hend : m.memory.read 0x0001 = 0xFF := by simp [m, new]
  have hl : m.memory.listing? 2 m.registers.pc =
      some ⟨[⟨0xFFFD, .nop⟩, ⟨0xFFFE, .lxi .sp⟩], 1⟩ := by
    rw [hpc]
    refine Memory.listing?_succ_eq_some_iff.mpr ⟨.nop, ⟨[⟨0xFFFE, .lxi .sp⟩], 1⟩, ?_, ?_, rfl⟩
    · rw [hnop]
      rfl
    · refine Memory.listing?_succ_eq_some_iff.mpr ⟨.lxi .sp, ⟨[], 1⟩, ?_, ?_, rfl⟩
      · rw [show (0xFFFD : Word) + UInt16.ofNat Instruction.nop.length = 0xFFFE by decide, hlxi]
        rfl
      · rw [show (0xFFFD : Word) + UInt16.ofNat Instruction.nop.length +
          UInt16.ofNat (Instruction.lxi .sp).length = 1 by decide]
        rfl
  obtain ⟨ha, he, hn, hf⟩ := steps_follow_listing (m := m) rfl hl (by decide) (by decide)
  refine ⟨?_, he⟩
  have hstop := hf (by rw [hend]; rfl) (by rw [hn.ticks]; decide)
  rw [hend] at hstop
  calc m.answers (List.replicate 2 .step ++ [.step])
      = [.ticks 4, .ticks 10] ++ [((m.after (List.replicate 2 .step)).obey .step).answer] := by
        rw [answers_append, ha]
        rfl
    _ = [.ticks 4, .ticks 10, .stopped (.fault ⟨0xFF, 1⟩)] := by rw [hstop]; rfl

end Machine

end Micro8080
