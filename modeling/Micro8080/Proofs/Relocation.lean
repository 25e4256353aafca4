import Mathlib.Data.UInt
import Micro8080.Proofs.Code
import Micro8080.Proofs.Footprint

/-!
# Code that may lie anywhere

Code in which nothing jumps or has an operand in memory does the same at every origin, even if it
lies across the last address at one of them: two machines that run it agree in all registers but
PC after every instruction.
-/

namespace Micro8080

namespace Storage

variable (s : Storage) (x : Operand) (v : Byte) (a : Word)

theorem load_setPc : (s.setPair .pc a).load x = s.load x := by
  cases x <;> simp [load]

theorem set_setPc (x : Register) : (s.setPair .pc a).set x v = (s.set x v).setPair .pc a :=
  congrArg (fun r => { s with registers := r })
    (s.registers.set_setPair v a (Pair.not_holds_of_pointer rfl x))

theorem setPair_setPc {p : Pair} (hp : p ≠ .pc) (w : Word) :
    (s.setPair .pc a).setPair p w = (s.setPair p w).setPair .pc a :=
  congrArg (fun r => { s with registers := r }) (s.registers.setPair_comm w hp.symm a)

theorem setFlag_setPc (x : Flag) (on : Bool) :
    (s.setPair .pc a).setFlag x on = (s.setFlag x on).setPair .pc a := by
  simp only [setFlag, Registers.setFlag, registers_setPair, Registers.f_setPair]
  exact s.set_setPc _ a .f

theorem write_setPc (b : Word) :
    (s.setPair .pc a).write b v = (s.write b v).setPair .pc a := rfl

theorem writeWord_setPc (b w : Word) :
    (s.setPair .pc a).writeWord b w = (s.writeWord b w).setPair .pc a := rfl

theorem store_setPc : (s.setPair .pc a).store x v = (s.store x v).setPair .pc a := by
  cases x with
  | reg r => exact s.set_setPc v a r.register
  | memory => simp [store, write_setPc]

theorem markResult_setPc (op : Condition.Operation) :
    (s.setPair .pc a).markResult op v = (s.markResult op v).setPair .pc a := by
  simp only [markResult, setFlag_setPc]

end Storage

namespace Instruction

/-- The instructions whose operands are registers or follow the opcode, except for jumps. -/
def registerOnly : Instruction → Bool
  | .nop | .lxi _ | .inx _ | .dcx _ | .dad _ => true
  | .inr (.reg _) | .dcr (.reg _) | .mvi (.reg _) | .mov _ (.reg _) => true
  | .rlc | .rrc | .ral | .rar | .cma | .stc | .cmc => true
  | _ => false

variable {i : Instruction}

theorem ne_jmp_of_registerOnly (hi : i.registerOnly = true) : i ≠ .jmp := by
  rintro rfl
  cases hi

theorem storing_of_registerOnly (hi : i.registerOnly = true) : i.storing = false := by
  cases i with
  | inr x | dcr x | mvi x =>
    cases x with
    | reg r => rfl
    | memory => cases hi
  | stax _ | shld | sta | movToMemory _ => cases hi
  | _ => rfl

theorem loads_of_registerOnly (hi : i.registerOnly = true) (r : Registers) (operand : Word) :
    i.loads r operand = [] := by
  cases i with
  | inr x | dcr x | mov _ x =>
    cases x with
    | reg r => rfl
    | memory => cases hi
  | ldax _ | lhld | lda => cases hi
  | _ => rfl

/-- No effect but that of a jump sees PC. -/
theorem exec_setPc (hj : i ≠ .jmp) (s : Storage) (a : Word) :
    i.exec (s.setPair .pc a) = (i.exec s).setPair .pc a := by
  cases i with
  | jmp => exact absurd rfl hj
  | inr x | dcr x =>
    simp only [exec, Storage.load_setPc, Storage.store_setPc, Storage.markResult_setPc]
  | mvi x => simp [exec, Storage.store_setPc]
  | mov dst src =>
    rw [exec, exec, Storage.load_setPc, Storage.store_setPc]
  | movToMemory src =>
    rw [exec, exec, Storage.load_setPc, Storage.store_setPc]
  | lxi rp | inx rp | dcx rp => simp [exec, Storage.setPair_setPc]
  | dad rp => simp [exec, Storage.setPair_setPc, Storage.setFlag_setPc]
  | stax rp => simp [exec, Storage.write_setPc]
  | ldax rp => simp [exec, Storage.set_setPc]
  | shld | sta => simp [exec, Storage.write_setPc, Storage.writeWord_setPc]
  | lhld => simp [exec, Storage.setPair_setPc]
  | _ => simp [exec, Registers.flag, Storage.set_setPc, Storage.setFlag_setPc]

end Instruction

namespace Machine

variable {m n : Machine} {es : List Encoding}

open Encoding in
theorem steps_of_code (hp : m.phase = .idle) (hm : m.memory.Holds m.registers.pc (code es))
    (hes : ∀ e ∈ es, e.instruction.registerOnly = true)
    (hc : m.ticks.toNat + cycles es < UInt64.size) :
    m.answers (List.replicate es.length .step) = es.map (fun e => .ticks e.instruction.cycles) ∧
      (m.after (List.replicate es.length .step)).memory = m.memory ∧
      (m.after (List.replicate es.length .step)).registers.pc =
        m.registers.pc + UInt16.ofNat (code es).length := by
  obtain ⟨fs, hl, hf⟩ := listing_of_holds hm
  have hcycles : Fetch.cycles fs = cycles es := by
    have h := congrArg (fun is => (is.map Instruction.cycles).sum) hf
    simp only [List.map_map] at h
    exact h
  have hall : ∀ i ∈ fs.map Fetch.instruction, i ≠ .jmp ∧ i.storing = false := by
    rw [hf]
    exact List.forall_mem_map.mpr fun e he =>
      ⟨Instruction.ne_jmp_of_registerOnly (hes e he),
        Instruction.storing_of_registerOnly (hes e he)⟩
  obtain ⟨ha, _, hn⟩ := steps_of_listing hp hl (List.forall_mem_map.mp hall) (by rwa [hcycles])
  refine ⟨?_, hn.memory, hn.pc⟩
  have h := congrArg (List.map fun i : Instruction => Answer.ticks i.cycles) hf
  rw [List.map_map, List.map_map] at h
  exact ha.trans h

/-- Idle machines that agree in all registers but PC. -/
structure Relocated (m n : Machine) : Prop where
  left : m.phase = .idle
  right : n.phase = .idle
  registers : n.registers = m.registers.setPc n.registers.pc

namespace Relocated

variable (h : Relocated m n)

include h

theorem afterStep {i : Instruction} (hi : i.registerOnly = true)
    (hcode : ∀ k < i.length, n.memory.read (n.registers.pc + UInt16.ofNat k) =
      m.memory.read (m.registers.pc + UInt16.ofNat k)) :
    Relocated (m.afterStep i) (n.afterStep i) := by
  let s : Storage := ⟨i.stage m.memory m.registers, m.memory⟩
  let a : Word := n.registers.pc + UInt16.ofNat i.length
  have hstage : i.stage n.memory n.registers = s.registers.setPc a := by
    rw [h.registers]
    exact i.stage_shift hcode
  have hr : (n.afterStep i).registers = (m.afterStep i).registers.setPc a := by
    have hload : (i.exec ⟨s.registers.setPc a, n.memory⟩).registers =
        (i.exec ⟨s.registers.setPc a, m.memory⟩).registers := by
      refine i.registers_exec_congr rfl ?_
      rw [Instruction.loads_of_registerOnly hi]
      exact nofun
    have hpc := Instruction.exec_setPc (Instruction.ne_jmp_of_registerOnly hi) s a
    rw [registers_afterStep, hstage, hload]
    exact congrArg Storage.registers hpc
  refine ⟨phase_afterStep, phase_afterStep, ?_⟩
  rw [hr, Registers.pc_setPc]

open Encoding in
theorem after_steps (hm : m.memory.Holds m.registers.pc (code es))
    (hn : n.memory.Holds n.registers.pc (code es))
    (hes : ∀ e ∈ es, e.instruction.registerOnly = true)
    (hcm : m.ticks.toNat + cycles es < UInt64.size)
    (hcn : n.ticks.toNat + cycles es < UInt64.size) :
    Relocated (m.after (List.replicate es.length .step))
      (n.after (List.replicate es.length .step)) := by
  induction es generalizing m n with
  | nil => exact h
  | cons e es ih =>
    obtain ⟨hi, hrest⟩ := List.forall_mem_cons.mp hes
    have hj := Instruction.ne_jmp_of_registerOnly hi
    have hs := Instruction.storing_of_registerOnly hi
    rw [code_cons, Memory.holds_append, length_bytes] at hm hn
    rw [cycles_cons] at hcm hcn
    rw [List.length_cons, List.replicate_succ, after_cons, after_cons,
      obey_step_of_known h.left (decode?_of_holds hm.1) (by omega),
      obey_step_of_known h.right (decode?_of_holds hn.1) (by omega)]
    refine ih (h.afterStep hi fun k hk => ?_) ?_ ?_ hrest ?_ ?_
    · rw [hm.1 k (by rwa [length_bytes]), hn.1 k (by rwa [length_bytes])]
    · rw [memory_afterStep hs, pc_afterStep hj]
      exact hm.2
    · rw [memory_afterStep hs, pc_afterStep hj]
      exact hn.2
    · rw [toNat_ticks_afterStep (by omega)]
      omega
    · rw [toNat_ticks_afterStep (by omega)]
      omega

end Relocated

open Encoding in
/-- Register-only code has one run for all origins: machines that enter it with the same registers
agree after every instruction in all registers but PC, and their PCs stay equally far apart. -/
theorem code_runs_anywhere (h : Relocated m n)
    (hm : m.memory.Holds m.registers.pc (code es)) (hn : n.memory.Holds n.registers.pc (code es))
    (hes : ∀ e ∈ es, e.instruction.registerOnly = true)
    (hcm : m.ticks.toNat + cycles es < UInt64.size)
    (hcn : n.ticks.toNat + cycles es < UInt64.size) :
    (∀ k ≤ es.length,
      let cs := List.replicate k Command.step
      m.answers cs = (es.take k).map (fun e => .ticks e.instruction.cycles) ∧
        n.answers cs = m.answers cs ∧ Relocated (m.after cs) (n.after cs) ∧
        (n.after cs).registers.pc - (m.after cs).registers.pc =
          n.registers.pc - m.registers.pc ∧
        (m.after cs).memory = m.memory ∧ (n.after cs).memory = n.memory) ∧
      (m.after (List.replicate es.length .step)).registers.pc =
        m.registers.pc + UInt16.ofNat (code es).length ∧
      (n.after (List.replicate es.length .step)).registers.pc =
        n.registers.pc + UInt16.ofNat (code es).length := by
  refine ⟨fun k hk => ?_, (steps_of_code h.left hm hes hcm).2.2,
    (steps_of_code h.right hn hes hcn).2.2⟩
  -- the first instructions are register-only code themselves
  have hlen : (es.take k).length = k := List.length_take_of_le hk
  have htake : ∀ e ∈ es.take k, e.instruction.registerOnly = true :=
    fun e he => hes e (List.mem_of_mem_take he)
  have hcode : code es = code (es.take k) ++ code (es.drop k) := by
    rw [← code_append, List.take_append_drop]
  have hcycles : cycles es = cycles (es.take k) + cycles (es.drop k) := by
    rw [← cycles_append, List.take_append_drop]
  rw [hcode, Memory.holds_append] at hm hn
  rw [hcycles] at hcm hcn
  obtain ⟨ham, hmm, hpm⟩ := steps_of_code h.left hm.1 htake (by omega)
  obtain ⟨han, hmn, hpn⟩ := steps_of_code h.right hn.1 htake (by omega)
  have hr := h.after_steps hm.1 hn.1 htake (by omega) (by omega)
  rw [hlen] at ham hmm hpm han hmn hpn hr
  refine ⟨ham, han.trans ham.symm, hr, ?_, hmm, hmn⟩
  rw [hpm, hpn, add_sub_add_right_eq_sub]

/-- Code that loads B and increments it, once in the middle of memory and once across its end. -/
theorem code_across_last_address :
    let c : List Byte := [0x06, 0x41, 0x04]
    let m : Machine :=
      { new (Memory.zero.fill 0x0100 c) with registers := Registers.zero.setPc 0x0100 }
    let n : Machine :=
      { new (Memory.zero.fill 0xFFFF c) with registers := Registers.zero.setPc 0xFFFF }
    n.answers [.step, .step] = [.ticks 7, .ticks 5] ∧
      (n.after [.step, .step]).registers.bc = (m.after [.step, .step]).registers.bc ∧
      (n.after [.step, .step]).registers.pc = 0x0002 := by
  intro c m n
  let es : List Encoding := [⟨.mvi (.reg .b), [0x41], rfl⟩, ⟨.inr (.reg .b), [], rfl⟩]
  have hcode : Encoding.code es = c := rfl
  have hcells : ∀ k < 3, k = 0 ∨ k = 1 ∨ k = 2 := by omega
  have hpcm : m.registers.pc = 0x0100 := Registers.pc_setPc _ _
  have hpcn : n.registers.pc = 0xFFFF := Registers.pc_setPc _ _
  have hm : m.memory.Holds m.registers.pc (Encoding.code es) := by
    intro k hk
    rw [hpcm]
    rcases hcells k hk with rfl | rfl | rfl <;> simp [m, new, c, Memory.fill, hcode]
  have hn : n.memory.Holds n.registers.pc (Encoding.code es) := by
    intro k hk
    rw [hpcn]
    rcases hcells k hk with rfl | rfl | rfl <;> simp [n, new, c, Memory.fill, hcode]
  have h : m.Relocated n := by
    refine ⟨rfl, rfl, ?_⟩
    rw [hpcn]
    simp [m, n]
  obtain ⟨hrun, _, hpc⟩ := code_runs_anywhere h hm hn (by decide) (by decide) (by decide)
  obtain ⟨ha, hmn, hr, _⟩ := hrun 2 (Nat.le_refl 2)
  refine ⟨hmn.trans ha, ?_, ?_⟩
  · have hbc := congrArg Registers.bc hr.registers
    exact hbc.trans (Registers.pair_setPair _ _ _ _)
  · rw [hpcn] at hpc
    exact hpc.trans (by decide)

end Machine

end Micro8080
