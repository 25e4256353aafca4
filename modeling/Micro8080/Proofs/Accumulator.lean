import Micro8080.Proofs.Code

/-!
# The accumulator and the carry

The rotations, the complements and the set of the carry work on the accumulator and the carry
alone. The two make a ring of nine bits, which the rotations through the carry turn; the other
rotations turn the accumulator and copy the bit that wrapped around into the carry. Code of such
operations, however long, does to the two what the operations do one after the other, and apart
from them only PC moves.
-/

namespace Micro8080

structure Accumulator where
  carry : Bool
  a : BitVec 8
deriving DecidableEq

def Registers.accumulator (r : Registers) : Accumulator := ⟨r.flag .carry, r.a.toBitVec⟩

/-- Register files that differ in the accumulator and F at most. -/
theorem Registers.eq_set_a_set_f {r s : Registers}
    (hg : ∀ x, x ≠ .a → x ≠ .f → s.get x = r.get x) (hsp : s.sp = r.sp) (hpc : s.pc = r.pc) :
    s = (r.set .a s.a).set .f s.f := by
  refine ext_get (fun x => ?_) (by simp [hsp]) (by simp [hpc])
  rw [get_set, get_set]
  by_cases hf : x = .f
  · rw [if_pos hf, hf]
  · by_cases ha : x = .a
    · rw [if_neg hf, if_pos ha, ha]
    · rw [if_neg hf, if_neg ha, hg x ha hf]

namespace Accumulator

/-- The operations that see and change nothing else. -/
inductive Op where
  | nop
  | rlc
  | rrc
  | ral
  | rar
  | cma
  | stc
  | cmc
deriving DecidableEq

def Op.instruction : Op → Instruction
  | .nop => .nop
  | .rlc => .rlc
  | .rrc => .rrc
  | .ral => .ral
  | .rar => .rar
  | .cma => .cma
  | .stc => .stc
  | .cmc => .cmc

variable (s : Accumulator)

/-- The nine bits, with the carry on top. -/
def ring : BitVec 9 := .cons s.carry s.a

def ofRing (x : BitVec 9) : Accumulator := ⟨x.msb, x.setWidth 8⟩

def perform : Op → Accumulator
  | .nop => s
  | .rlc => ⟨(s.a.rotateLeft 1).getLsbD 0, s.a.rotateLeft 1⟩
  | .rrc => ⟨(s.a.rotateRight 1).getLsbD 7, s.a.rotateRight 1⟩
  | .ral => ofRing (s.ring.rotateLeft 1)
  | .rar => ofRing (s.ring.rotateRight 1)
  | .cma => { s with a := ~~~s.a }
  | .stc => { s with carry := true }
  | .cmc => { s with carry := !s.carry }

def performAll (ops : List Op) : Accumulator := ops.foldl perform s

@[simp] theorem performAll_nil : s.performAll [] = s := rfl

@[simp] theorem performAll_cons (o : Op) (ops : List Op) :
    s.performAll (o :: ops) = (s.perform o).performAll ops := rfl

theorem performAll_append (ops rest : List Op) :
    s.performAll (ops ++ rest) = (s.performAll ops).performAll rest :=
  List.foldl_append

@[simp] theorem ring_ofRing (x : BitVec 9) : (ofRing x).ring = x := by
  apply BitVec.eq_of_getLsbD_eq
  intro k hk
  rw [ring, BitVec.getLsbD_cons, ofRing, BitVec.msb_eq_getLsbD_last]
  by_cases h : k = 8
  · rw [if_pos h, h]
  · rw [if_neg h, BitVec.getLsbD_setWidth, decide_eq_true (by omega), Bool.true_and]

@[simp] theorem ofRing_ring : ofRing s.ring = s := by
  simp [ofRing, ring]

section Rotations

variable {w : Nat} (x : BitVec w)

theorem rotateLeft_zero : x.rotateLeft 0 = x := by
  apply BitVec.eq_of_getMsbD_eq
  intro j hj
  rw [BitVec.getMsbD_rotateLeft, decide_eq_true hj, Bool.true_and, Nat.zero_add,
    Nat.mod_eq_of_lt hj]

theorem rotateLeft_rotateLeft (k l : Nat) :
    (x.rotateLeft k).rotateLeft l = x.rotateLeft (k + l) := by
  apply BitVec.eq_of_getMsbD_eq
  intro j hj
  have hmod : (l + j) % w < w := Nat.mod_lt _ (by omega)
  simp only [BitVec.getMsbD_rotateLeft, hj, hmod, decide_true, Bool.true_and, Nat.add_mod_mod,
    Nat.add_assoc]

end Rotations

theorem ring_performAll_ral (n : Nat) :
    (s.performAll (List.replicate n .ral)).ring = s.ring.rotateLeft (n % 9) := by
  rw [BitVec.rotateLeft_mod_eq_rotateLeft]
  induction n generalizing s with
  | zero => exact (rotateLeft_zero _).symm
  | succ n ih =>
    rw [List.replicate_succ, performAll_cons, ih, perform, ring_ofRing, rotateLeft_rotateLeft,
      Nat.add_comm 1 n]

theorem a_performAll_rlc (n : Nat) :
    (s.performAll (List.replicate n .rlc)).a = s.a.rotateLeft (n % 8) := by
  rw [BitVec.rotateLeft_mod_eq_rotateLeft]
  induction n generalizing s with
  | zero => exact (rotateLeft_zero _).symm
  | succ n ih =>
    rw [List.replicate_succ, performAll_cons, ih, perform, rotateLeft_rotateLeft, Nat.add_comm 1 n]

section Shifts

variable (b : Byte) (c : Bool)

theorem perform_rlc :
    perform ⟨c, b.toBitVec⟩ .rlc =
      ⟨Byte.bit b 7, (Byte.shiftInLow b (Byte.bit b 7)).toBitVec⟩ := by
  have ha : b.toBitVec.rotateLeft 1 = (Byte.shiftInLow b (Byte.bit b 7)).toBitVec := by
    apply BitVec.eq_of_getLsbD_eq
    intro k hk
    refine Eq.trans ?_ (Byte.bit_shiftInLow b _ hk).symm
    rw [BitVec.getLsbD_rotateLeft]
    by_cases h : k = 0
    · simp [h, Byte.bit]
    · simp [h, hk, Byte.bit]
  rw [perform, ha]
  congr 1
  exact Byte.bit_shiftInLow b _ (by decide)

theorem perform_rrc :
    perform ⟨c, b.toBitVec⟩ .rrc =
      ⟨Byte.bit b 0, (Byte.shiftInHigh b (Byte.bit b 0)).toBitVec⟩ := by
  have ha : b.toBitVec.rotateRight 1 = (Byte.shiftInHigh b (Byte.bit b 0)).toBitVec := by
    apply BitVec.eq_of_getLsbD_eq
    intro k hk
    refine Eq.trans ?_ (Byte.bit_shiftInHigh b _ k).symm
    rw [BitVec.getLsbD_rotateRight]
    by_cases h : k = 7
    · simp [h, Byte.bit]
    · have hlt : k < 7 := by omega
      simp [h, hlt, Byte.bit, Nat.add_comm]
  rw [perform, ha]
  congr 1
  exact Byte.bit_shiftInHigh b _ 7

theorem perform_ral :
    perform ⟨c, b.toBitVec⟩ .ral = ⟨Byte.bit b 7, (Byte.shiftInLow b c).toBitVec⟩ := by
  have hr : (ring ⟨c, b.toBitVec⟩).rotateLeft 1 =
      ring ⟨Byte.bit b 7, (Byte.shiftInLow b c).toBitVec⟩ := by
    apply BitVec.eq_of_getLsbD_eq
    intro k hk
    simp only [ring, BitVec.getLsbD_rotateLeft, BitVec.getLsbD_cons]
    by_cases htop : k = 8
    · simp [htop, Byte.bit]
    · have hlow := Byte.bit_shiftInLow b c (show k < 8 by omega)
      rw [Byte.bit] at hlow
      rw [if_neg htop, hlow]
      by_cases h : k = 0
      · simp [h]
      · have hne : k - 1 ≠ 8 := by omega
        simp [h, hk, hne, Byte.bit]
  rw [perform, hr, ofRing_ring]

theorem perform_rar :
    perform ⟨c, b.toBitVec⟩ .rar = ⟨Byte.bit b 0, (Byte.shiftInHigh b c).toBitVec⟩ := by
  have hr : (ring ⟨c, b.toBitVec⟩).rotateRight 1 =
      ring ⟨Byte.bit b 0, (Byte.shiftInHigh b c).toBitVec⟩ := by
    apply BitVec.eq_of_getLsbD_eq
    intro k hk
    have hlow := Byte.bit_shiftInHigh b c k
    rw [Byte.bit] at hlow
    simp only [ring, BitVec.getLsbD_rotateRight, BitVec.getLsbD_cons, hlow]
    by_cases htop : k = 8
    · simp [htop, Byte.bit]
    · have hlt : k < 8 := by omega
      by_cases h : k = 7
      · simp [h]
      · simp [h, hlt, htop, Byte.bit, Nat.add_comm]
  rw [perform, hr, ofRing_ring]

end Shifts

namespace Op

variable (o : Op) (t : Storage)

theorem cycles_instruction : o.instruction.cycles = 4 := by
  cases o <;> rfl

theorem storing_instruction : o.instruction.storing = false := by
  cases o <;> rfl

theorem flags_instruction {x : Flag} (hx : x ∈ o.instruction.flags) : x = .carry := by
  cases o <;> simp_all [instruction, Instruction.flags]

theorem stage_instruction (memory : Memory) (r : Registers) :
    o.instruction.stage memory r = r.setPc (r.pc + 1) := by
  cases o <;> rfl

theorem accumulator_setFlag (r : Registers) (c : Bool) :
    (r.setFlag .carry c).accumulator = ⟨c, r.a.toBitVec⟩ := by
  simp [Registers.accumulator, Registers.setFlag, Registers.flag]

theorem accumulator_set_a (r : Registers) (v : Byte) :
    (r.set .a v).accumulator = ⟨r.flag .carry, v.toBitVec⟩ := by
  simp [Registers.accumulator, Registers.flag]

theorem accumulator_setFlag_set (r : Registers) (c : Bool) (v : Byte) :
    ((r.setFlag .carry c).set .a v).accumulator = ⟨c, v.toBitVec⟩ := by
  rw [accumulator_set_a, Registers.flag_setFlag, if_pos rfl]

theorem accumulator_setPc (r : Registers) (w : Word) :
    (r.setPc w).accumulator = r.accumulator := by
  simp [Registers.accumulator, Registers.flag]

theorem accumulator_exec :
    (o.instruction.exec t).registers.accumulator = t.registers.accumulator.perform o := by
  cases o with
  | nop => rfl
  | rlc =>
    refine Eq.trans ?_ (perform_rlc _ _).symm
    rw [← Condition.carry_shiftLeft]
    exact accumulator_setFlag_set _ _ _
  | rrc =>
    refine Eq.trans ?_ (perform_rrc _ _).symm
    rw [← Condition.carry_shiftRight]
    exact accumulator_setFlag_set _ _ _
  | ral =>
    refine Eq.trans ?_ (perform_ral _ _).symm
    rw [← Condition.carry_shiftLeft]
    exact accumulator_setFlag_set _ _ _
  | rar =>
    refine Eq.trans ?_ (perform_rar _ _).symm
    rw [← Condition.carry_shiftRight]
    exact accumulator_setFlag_set _ _ _
  | cma => exact accumulator_set_a _ _
  | stc => exact accumulator_setFlag _ _
  | cmc => exact accumulator_setFlag _ _

theorem registers_exec :
    (o.instruction.exec t).registers =
      (t.registers.set .a (o.instruction.exec t).registers.a).set .f
        (o.instruction.exec t).registers.f := by
  apply Registers.eq_set_a_set_f
  · intro x ha hf
    cases o <;> simp [instruction, Instruction.exec, Registers.setFlag, ha, hf]
  · cases o <;> simp [instruction, Instruction.exec]
  · cases o <;> simp [instruction, Instruction.exec]

end Op

end Accumulator

namespace Machine

open Accumulator (Op)

variable {m n : Machine}

/-- `n` has performed the operations `ops` from where `m` was, four cycles each, and differs from
`m` in the accumulator, the carry and PC only. -/
structure Operated (m : Machine) (ops : List Op) (n : Machine) : Prop where
  phase : n.phase = .idle
  accumulator : n.registers.accumulator = m.registers.accumulator.performAll ops
  flags : ∀ k, k ≠ Flag.carry.position →
    Byte.bit n.registers.f k = Byte.bit m.registers.f k
  registers : n.registers =
    ((m.registers.setPc (m.registers.pc + UInt16.ofNat ops.length)).set .a n.registers.a).set .f
      n.registers.f
  memory : n.memory = m.memory
  ticks : n.ticks.toNat = m.ticks.toNat + 4 * ops.length

section

variable {ops : List Op} (h : m.Operated ops n)

include h

theorem Operated.pc : n.registers.pc = m.registers.pc + UInt16.ofNat ops.length := by
  rw [h.registers, Registers.pc_set, Registers.pc_set, Registers.pc_setPc]

theorem Operated.sp : n.registers.sp = m.registers.sp := by
  rw [h.registers]
  simp

theorem Operated.get {x : Register} (ha : x ≠ .a) (hf : x ≠ .f) :
    n.registers.get x = m.registers.get x := by
  rw [h.registers]
  simp [ha, hf]

end

theorem operated_nil (hp : m.phase = .idle) : m.Operated [] m where
  phase := hp
  accumulator := rfl
  flags _ _ := rfl
  registers := by
    rw [List.length_nil, show UInt16.ofNat 0 = 0 from rfl, UInt16.add_zero, Registers.setPc_pc]
    exact Registers.eq_set_a_set_f (fun _ _ _ => rfl) rfl rfl
  memory := rfl
  ticks := rfl

theorem operated_afterStep (o : Op) (hc : m.ticks.toNat + 4 < UInt64.size) :
    m.Operated [o] (m.afterStep o.instruction) := by
  have hstage := o.stage_instruction m.memory m.registers
  constructor
  · exact phase_afterStep
  · rw [registers_afterStep, o.accumulator_exec, hstage, Op.accumulator_setPc]
    rfl
  · intro k hk
    have hflags : ∀ x ∈ o.instruction.flags, k ≠ x.position := by
      intro x hx
      rwa [o.flags_instruction hx]
    rw [registers_afterStep, Instruction.bit_f_exec _ _ hflags, Instruction.f_stage]
  · rw [registers_afterStep, hstage]
    exact o.registers_exec _
  · exact memory_afterStep o.storing_instruction
  · have ht := toNat_ticks_afterStep (m := m) (i := o.instruction) (by rwa [o.cycles_instruction])
    rw [ht, o.cycles_instruction]
    rfl

theorem Operated.trans {k : Machine} {ops rest : List Op} (h : m.Operated ops k)
    (hn : k.Operated rest n) : m.Operated (ops ++ rest) n where
  phase := hn.phase
  accumulator := by
    rw [hn.accumulator, h.accumulator, Accumulator.performAll_append]
  flags j hj := (hn.flags j hj).trans (h.flags j hj)
  registers := by
    rw [List.length_append, UInt16.ofNat_add, ← UInt16.add_assoc, ← h.pc, ← hn.pc]
    apply Registers.eq_set_a_set_f
    · intro x ha hf
      rw [Registers.get_setPc, hn.get ha hf, h.get ha hf]
    · exact (hn.sp.trans h.sp).trans (by simp)
    · exact (Registers.pc_setPc _ _).symm
  memory := hn.memory.trans h.memory
  ticks := by
    rw [hn.ticks, h.ticks, List.length_append]
    omega

theorem steps_of_operations {ops : List Op} (hp : m.phase = .idle)
    (hm : m.memory.Holds m.registers.pc (ops.map fun o => o.instruction.opcode))
    (hc : m.ticks.toNat + 4 * ops.length < UInt64.size) :
    m.answers (List.replicate ops.length .step) = List.replicate ops.length (.ticks 4) ∧
      m.Operated ops (m.after (List.replicate ops.length .step)) := by
  induction ops generalizing m with
  | nil => exact ⟨rfl, operated_nil hp⟩
  | cons o ops ih =>
    rw [List.length_cons] at hc
    rw [List.map_cons] at hm
    have hd : Instruction.decode? m.nextOpcode = some o.instruction :=
      Instruction.decode?_eq_some_iff.mpr hm.head.symm
    have hs : m.obey .step =
        ⟨m.afterStep o.instruction, [.fetchOf m.registers.pc o.instruction], .ticks 4⟩ := by
      have h := obey_step_of_known hp hd (by rw [o.cycles_instruction]; omega)
      rwa [o.cycles_instruction] at h
    have ho : m.Operated [o] (m.afterStep o.instruction) := operated_afterStep o (by omega)
    -- the rest of the code is behind PC, because no operation writes to memory
    have hrest : (m.afterStep o.instruction).memory.Holds (m.afterStep o.instruction).registers.pc
        (ops.map fun o => o.instruction.opcode) := by
      have hcode : m.memory.Holds m.registers.pc
          ([o.instruction.opcode] ++ ops.map fun o => o.instruction.opcode) := hm
      rw [ho.memory, ho.pc]
      exact (Memory.holds_append.mp hcode).2
    obtain ⟨ha, hn⟩ := ih ho.phase hrest (by rw [ho.ticks, List.length_singleton]; omega)
    rw [List.length_cons, List.replicate_succ, answers, after_cons, hs, List.replicate_succ, ha]
    exact ⟨rfl, ho.trans hn⟩

/-- Steps through code of accumulator operations take four ticks each, and what the code does is
what its operations do in their order: nine rotations through the carry are none, and so are eight
rotations of the accumulator. -/
theorem accumulator_code {ops : List Op} (hp : m.phase = .idle)
    (hm : m.memory.Holds m.registers.pc (ops.map fun o => o.instruction.opcode))
    (hc : m.ticks.toNat + 4 * ops.length < UInt64.size) :
    let n := m.after (List.replicate ops.length .step)
    m.answers (List.replicate ops.length .step) = List.replicate ops.length (.ticks 4) ∧
      m.Operated ops n ∧
      (ops = List.replicate ops.length .ral →
        n.registers.accumulator.ring =
          m.registers.accumulator.ring.rotateLeft (ops.length % 9)) ∧
      (ops = List.replicate ops.length .rlc →
        n.registers.accumulator.a = m.registers.accumulator.a.rotateLeft (ops.length % 8)) := by
  intro n
  obtain ⟨ha, hn⟩ := steps_of_operations hp hm hc
  refine ⟨ha, hn, ?_, ?_⟩
  · intro hral
    have h := m.registers.accumulator.ring_performAll_ral ops.length
    rwa [← hral, ← hn.accumulator] at h
  · intro hrlc
    have h := m.registers.accumulator.a_performAll_rlc ops.length
    rwa [← hrlc, ← hn.accumulator] at h

/-- A memory full of RLCs, gone through once and a bit further. -/
theorem rotations_around_memory :
    let m : Machine :=
      { new ⟨Vector.replicate Memory.size 0x07⟩ with
        registers := Registers.zero.set .a 0x01 }
    (m.after (List.replicate 70003 .step)).registers.accumulator.a = 0x08#8 ∧
      (m.after (List.replicate 70003 .step)).registers.pc = 4467 := by
  intro m
  -- with a variable for the count, so that no step of the run is computed
  have h (k : Nat) (hc : 0 + 4 * k < UInt64.size) :
      (m.after (List.replicate k .step)).registers.accumulator.a = (0x01#8).rotateLeft (k % 8) ∧
        (m.after (List.replicate k .step)).registers.pc = 0 + UInt16.ofNat k := by
    have hlen : (List.replicate k Op.rlc).length = k := List.length_replicate
    have hm : m.memory.Holds m.registers.pc
        ((List.replicate k Op.rlc).map fun o => o.instruction.opcode) := by
      intro j hj
      rw [List.getElem_map, List.getElem_replicate]
      exact Vector.getElem_replicate _
    obtain ⟨-, hn, -, ha⟩ := accumulator_code (m := m) rfl hm (by rwa [hlen])
    have hpc := hn.pc
    have hstart : m.registers.pc = 0 := by simp [m]
    have ha0 : m.registers.accumulator.a = 0x01#8 := by simp [m, Registers.accumulator]
    rw [hlen] at ha hpc
    rw [ha0] at ha
    rw [hstart] at hpc
    exact ⟨ha rfl, hpc⟩
  obtain ⟨ha, hpc⟩ := h 70003 (by decide)
  exact ⟨ha.trans (by decide), hpc.trans (by decide)⟩

end Machine

end Micro8080
