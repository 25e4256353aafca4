import Micro8080.Proofs.InFlight

/-!
# Looking at a machine

The gauges, the cells of memory and the fault are all that a host can look up, and they are all
that there is. The instruction in flight has no gauge, but in a machine with a history it is the
one that the opcode latch stands for. So machines that look alike behave alike, whatever has been
done with each of them.
-/

namespace Micro8080

namespace Numeral

theorem mem_padded {base w n : Nat} (hb : 0 < base) {c : Char} (hc : c ∈ padded base w n) :
    ∃ k < base, c = digit k := by
  induction w generalizing n with
  | zero => cases hc
  | succ w ih =>
    rw [padded, List.mem_append, List.mem_singleton] at hc
    rcases hc with hc | rfl
    · exact ih hc
    · exact ⟨n % base, Nat.mod_lt n hb, rfl⟩

end Numeral

namespace Path

theorem dropMarks_of_not_mem {cs : List Char} (hx : 'x' ∉ cs) : dropMarks cs = cs := by
  unfold dropMarks
  split
  · simp at hx
  · rfl

theorem dropPlus_of_not_mem {cs : List Char} (hp : '+' ∉ cs) : dropPlus cs = cs := by
  unfold dropPlus
  split
  · simp at hp
  · rfl

/-- Four digits are enough for every address. -/
theorem address?_padded (a : Word) : address? (Numeral.padded 16 4 a.toNat) = some a := by
  have hdigit : ∀ c ∈ Numeral.padded 16 4 a.toNat, c ≠ 'x' ∧ c ≠ '+' := by
    intro c hc
    obtain ⟨k, hk, rfl⟩ := Numeral.mem_padded (by decide) hc
    have hall : ∀ k < 16, Numeral.digit k ≠ 'x' ∧ Numeral.digit k ≠ '+' := by decide
    exact hall k hk
  have hx : 'x' ∉ Numeral.padded 16 4 a.toNat := fun hc => (hdigit _ hc).1 rfl
  have hp : '+' ∉ Numeral.padded 16 4 a.toNat := fun hc => (hdigit _ hc).2 rfl
  have ha : a.toNat < Memory.size := a.toNat_lt
  rw [address?, dropMarks_of_not_mem hx, dropPlus_of_not_mem hp,
    Numeral.value?_padded (by decide) (by decide) ha]
  simp [Option.filter, ha]

end Path

namespace Machine

variable {m n : Machine}

/-- The path of what stands behind `mem.`. -/
def memPath (cs : List Char) : String := "mem." ++ String.ofList cs

theorem toList_memPath (cs : List Char) :
    (memPath cs).toList = 'm' :: 'e' :: 'm' :: '.' :: cs := by
  simp only [memPath, String.toList_append, String.toList_ofList]
  rfl

theorem query_memPath (cs : List Char) :
    m.query (memPath cs) = (Path.address? cs).map fun a => .byte (m.memory.read a) := by
  rw [query, toList_memPath]
  rfl

/-- The path of a cell, its address in four digits. -/
def cellPath (a : Word) : String := "mem." ++ String.ofList (Numeral.padded 16 4 a.toNat)

theorem query_cellPath (a : Word) : m.query (cellPath a) = some (.byte (m.memory.read a)) := by
  have hp : cellPath a = memPath (Numeral.padded 16 4 a.toNat) := rfl
  rw [hp, query_memPath, Path.address?_padded, Option.map_some]

/-- The same is seen on both machines, whatever one looks at. -/
structure LooksLike (m n : Machine) : Prop where
  gauge : ∀ path ∈ queryPaths, m.query path = n.query path
  cell : ∀ a, m.query (cellPath a) = n.query (cellPath a)
  fault : m.fault? = n.fault?

namespace LooksLike

variable (h : LooksLike m n)

include h

theorem read_eq (g : Gauge) : g.read m = g.read n := by
  have hg := h.gauge g.name (mem_queryPaths_iff.mpr ⟨g, rfl⟩)
  rwa [query_name, query_name, Option.some.injEq] at hg

theorem memory_eq : m.memory = n.memory := by
  refine Memory.ext fun a => ?_
  have ha := h.cell a
  rwa [query_cellPath, query_cellPath, Option.some.injEq, Reading.byte.injEq] at ha

theorem registers_eq : m.registers = n.registers := by
  apply Registers.ext_get
  · exact fun x => Reading.byte.inj (h.read_eq (.register x))
  · exact Reading.word.inj (h.read_eq (.pair .sp))
  · exact Reading.word.inj (h.read_eq (.pair .pc))

theorem opcode_eq : m.opcode = n.opcode := Reading.byte.inj (h.read_eq .opcode)

theorem ticks_eq : m.ticks = n.ticks :=
  congrArg Ticks.mk (Reading.count.inj (h.read_eq .ticks))

theorem busy_eq : m.busy = n.busy := Reading.bit.inj (h.read_eq .busy)

section Sound

variable (hm : m.Sound) (hn : n.Sound)

include hm hn

/-- The gauge of the cycle is a byte, which has room for every instruction. -/
theorem cycle_eq : m.cycle = n.cycle := by
  have hmc : m.cycle < UInt8.size := Nat.lt_trans hm.cycle_lt (by decide)
  have hnc : n.cycle < UInt8.size := Nat.lt_trans hn.cycle_lt (by decide)
  have hc : UInt8.ofNat m.cycle = UInt8.ofNat n.cycle := Reading.byte.inj (h.read_eq .cycle)
  rw [← UInt8.toNat_ofNat_of_lt' hmc, hc, UInt8.toNat_ofNat_of_lt' hnc]

theorem phase_eq : m.phase = n.phase := by
  have hf := h.fault
  have hb := h.busy_eq
  have hc := h.cycle_eq hm hn
  cases hp : m.phase with
  | idle => cases hq : n.phase <;> simp [fault?, busy, hp, hq] at hf hb ⊢
  | halted f => cases hq : n.phase <;> simp_all [fault?]
  | executing i d =>
    cases hq : n.phase with
    | idle => simp [busy, hp, hq] at hb
    | halted g => simp [busy, hp, hq] at hb
    | executing j e =>
      -- the latch is seen on both machines, and each has the instruction of its latch in flight
      obtain rfl : i = j := by
        have hi := (hm.executing hp).1
        rw [h.opcode_eq, (hn.executing hq).1] at hi
        exact (Option.some.inj hi).symm
      obtain rfl : d = e := by simpa only [cycle, hp, hq] using hc
      rfl

theorem eq_of_sound : m = n :=
  calc m = ⟨⟨m.registers, m.memory⟩, m.opcode, m.phase, m.ticks⟩ := rfl
    _ = ⟨⟨n.registers, n.memory⟩, n.opcode, n.phase, n.ticks⟩ := by
      rw [h.registers_eq, h.memory_eq, h.opcode_eq, h.phase_eq hm hn, h.ticks_eq]

end Sound

end LooksLike

/-- Two machines with a history each that look alike answer every session alike. -/
theorem observation_is_complete (memory other : Memory) (cs ds : List Command)
    (h : LooksLike ((new memory).after cs) ((new other).after ds)) :
    (new memory).after cs = (new other).after ds ∧
      ∀ es : List Command,
        ((new memory).after cs).answers es = ((new other).after ds).answers es ∧
          ((new memory).after cs).log es = ((new other).after ds).log es := by
  have heq := h.eq_of_sound (sound_after memory cs) (sound_after other ds)
  refine ⟨heq, fun es => ?_⟩
  rw [heq]
  exact ⟨rfl, rfl⟩

/-- A byte that was cleared by the host, and an instruction that a reset took back, leave nothing
to be seen in the middle of the next instruction. -/
theorem step_after_different_pasts :
    let m := (new (Memory.zero.write 0x2000 0x41)).after [.writeMemory (.byte 0x2000 0), .tick]
    let n := (new .zero).after [.step, .reset, .tick]
    n.answers [.step] = m.answers [.step] := by
  intro m n
  have hm : m = (new .zero).after [.tick] := by
    have hz : Memory.zero.write 0x2000 0 = Memory.zero := by
      have h0 := Memory.zero.write_read 0x2000
      rwa [Memory.read_zero] at h0
    simp only [m, after_cons, after_nil, obey, Memory.Write.perform?, new, Memory.write_write, hz]
  have hn : n = (new .zero).after [.tick] := by
    have hd : Instruction.decode? (new .zero).nextOpcode = some .nop := by
      rw [show (new .zero).nextOpcode = 0 from Memory.read_zero _]
      rfl
    have hs : (new .zero).step.machine.memory = .zero := by
      rw [step_of_known rfl hd (by decide)]
      rfl
    simp only [n, after_cons, after_nil, obey, Run.respond, reset_eq_new, hs]
  have h : LooksLike n m := by
    rw [hm, hn]
    exact ⟨fun _ _ => rfl, fun _ => rfl, rfl⟩
  exact ((observation_is_complete _ _ _ _ h).2 [.step]).1

end Machine

end Micro8080
