import Micro8080.Instruction.Effect
import Micro8080.Instruction.Staging

/-!
# What effects touch

An effect reaches few places, and which ones can be told from the instruction and the registers:
the flags that it sets, the pointer that it loads, the cells that it reads as data and the cells
that it writes. The rest of the registers and of memory stays as it was, and cells that are not
read make no difference.
-/

namespace Micro8080

/-- The pairs whose halves instructions can name as byte operands. -/
def Pair.halved : Pair → Bool
  | .bc | .de | .hl => true
  | .sp | .pc | .wz => false

namespace Registers

variable (r : Registers) (x : Gpr) (v : Byte)

@[simp] theorem f_set_gpr : (r.set x.register v).f = r.f := by
  rw [f, get_set, if_neg]
  cases x <;> decide

theorem pair_set_gpr {p : Pair} (hp : p.halved = false) :
    (r.set x.register v).pair p = r.pair p := by
  refine r.pair_set_of_not_holds v ?_
  cases p <;> cases hp <;> cases x <;> decide

end Registers

namespace Storage

variable (s : Storage) (x : Operand) (v : Byte)

@[simp] theorem f_store : (s.store x v).registers.f = s.registers.f := by
  cases x with
  | reg r => exact s.registers.f_set_gpr r v
  | memory => rfl

theorem pair_store {p : Pair} (hp : p.halved = false) :
    (s.store x v).registers.pair p = s.registers.pair p := by
  cases x with
  | reg r => exact s.registers.pair_set_gpr r v hp
  | memory => rfl

@[simp] theorem pair_markResult (op : Condition.Operation) (p : Pair) :
    (s.markResult op v).registers.pair p = s.registers.pair p := by
  simp [markResult]

theorem bit_markResult (op : Condition.Operation) {k : Nat}
    (hk : ∀ x ∈ [Flag.sign, .zero, .parity, .auxCarry], k ≠ x.position) :
    Byte.bit (s.markResult op v).registers.f k = Byte.bit s.registers.f k := by
  simp only [List.forall_mem_cons] at hk
  simp only [markResult, registers_setFlag, Registers.bit_setFlag, if_neg hk.1, if_neg hk.2.1,
    if_neg hk.2.2.1, if_neg hk.2.2.2.1]

end Storage

namespace Instruction

/-- The flags that an instruction sets. -/
def flags : Instruction → List Flag
  | .inr _ | .dcr _ => [.sign, .zero, .parity, .auxCarry]
  | .rlc | .rrc | .ral | .rar | .dad _ | .stc | .cmc => [.carry]
  | _ => []

/-- The pair that an instruction sets as a whole. -/
def target? : Instruction → Option Pair
  | .lxi rp | .inx rp | .dcx rp => some rp.pair
  | .dad _ | .lhld => some .hl
  | .jmp => some .pc
  | _ => none

/-- The cells that an instruction with this operand word reads as data. -/
def loads (r : Registers) (operand : Word) : Instruction → List Word
  | .ldax rp => [r.pair rp.pair]
  | .mov _ .memory | .inr .memory | .dcr .memory => [r.hl]
  | .lda => [operand]
  | .lhld => [operand, operand + 1]
  | _ => []

/-- The cells that an instruction with this operand word writes. -/
def stores (r : Registers) (operand : Word) : Instruction → List Word
  | .stax rp => [r.pair rp.pair]
  | .movToMemory _ | .mvi .memory | .inr .memory | .dcr .memory => [r.hl]
  | .sta => [operand]
  | .shld => [operand, operand + 1]
  | _ => []

/-- The instructions that store to memory. -/
def storing : Instruction → Bool
  | .stax _ | .sta | .shld | .movToMemory _ => true
  | .mvi .memory | .inr .memory | .dcr .memory => true
  | _ => false

variable (i : Instruction) (s : Storage)

theorem target?_eq_sp_iff : i.target? = some .sp ↔ i ∈ [.lxi .sp, .inx .sp, .dcx .sp] := by
  cases i with
  | lxi rp | inx rp | dcx rp => cases rp <;> decide
  | _ => simp [target?]

theorem target?_eq_pc_iff : i.target? = some .pc ↔ i = .jmp := by
  cases i <;> simp [target?]

theorem target?_ne_wz : i.target? ≠ some .wz := by
  cases i <;> simp [target?]

@[simp] theorem f_stage (memory : Memory) (r : Registers) : (i.stage memory r).f = r.f :=
  (i.get_stage memory r .f).trans (i.get_latch_of_ne memory r (x := .f) nofun nofun)

theorem bit_f_exec {k : Nat} (hk : ∀ x ∈ i.flags, k ≠ x.position) :
    Byte.bit (i.exec s).registers.f k = Byte.bit s.registers.f k := by
  cases i with
  | inr x | dcr x => rw [exec, Storage.bit_markResult _ _ _ hk, Storage.f_store]
  | mov dst src => rw [exec, Storage.f_store]
  | movToMemory src => rw [exec, Storage.f_store]
  | mvi x => rw [exec, Storage.f_store]
  | rlc | rrc | ral | rar | dad _ | stc | cmc =>
    have hc : k ≠ Flag.carry.position := hk .carry (List.mem_singleton.mpr rfl)
    simp [exec, Registers.bit_setFlag, hc]
  | _ => simp [exec]

theorem flag_exec {x : Flag} (hx : x ∉ i.flags) :
    (i.exec s).registers.flag x = s.registers.flag x :=
  i.bit_f_exec s fun _ hy he => hx (Flag.position_inj.mp he ▸ hy)

theorem pair_exec {p : Pair} (hp : p.halved = false) (ht : i.target? ≠ some p) :
    (i.exec s).registers.pair p = s.registers.pair p := by
  have ha (r : Registers) (v : Byte) : (r.set .a v).pair p = r.pair p :=
    r.pair_set_gpr .a v hp
  cases i with
  | inr x | dcr x => rw [exec, Storage.pair_markResult, Storage.pair_store _ _ _ hp]
  | mov dst src => rw [exec, Storage.pair_store _ _ _ hp]
  | movToMemory src => rw [exec, Storage.pair_store _ _ _ hp]
  | mvi x => rw [exec, Storage.pair_store _ _ _ hp]
  | ldax _ | lda | cma | rlc | rrc | ral | rar => simp [exec, ha]
  | lxi rp | inx rp | dcx rp | dad rp | lhld | jmp =>
    simp only [target?, ne_eq, Option.some.injEq] at ht
    simp [exec, Ne.symm ht]
  | _ => simp [exec]

/-- No effect writes to the latches of the operand bytes. -/
theorem get_exec_of_latch {x : Register} (hx : x = .w ∨ x = .z) :
    (i.exec s).registers.get x = s.registers.get x := by
  have hwz := i.pair_exec s (p := .wz) rfl i.target?_ne_wz
  obtain ⟨hw, hz⟩ := (Registers.pair_eq_iff _ rfl _).mp hwz
  rcases hx with rfl | rfl
  · exact hw
  · exact hz

theorem read_exec {a : Word} (ha : a ∉ i.stores s.registers s.registers.wz) :
    (i.exec s).memory.read a = s.memory.read a := by
  cases i with
  | inr x | dcr x | mvi x =>
    cases x with
    | reg r => rfl
    | memory => simp_all [exec, stores, Storage.store]
  | _ => simp_all [exec, stores, Storage.store, Memory.read_writeWord]

theorem stores_eq_nil {i : Instruction} (hi : i.storing = false) (r : Registers)
    (operand : Word) : i.stores r operand = [] := by
  cases i with
  | mvi x | inr x | dcr x =>
    cases x with
    | reg r => rfl
    | memory => cases hi
  | stax _ | sta | shld | movToMemory _ => cases hi
  | _ => rfl

theorem memory_exec {i : Instruction} (hi : i.storing = false) :
    (i.exec s).memory = s.memory := by
  refine Memory.ext fun a => i.read_exec s ?_
  rw [stores_eq_nil hi]
  exact List.not_mem_nil

theorem pc_exec {i : Instruction} (hj : i ≠ .jmp) :
    (i.exec s).registers.pc = s.registers.pc :=
  i.pair_exec s (p := .pc) rfl fun ht => hj (i.target?_eq_pc_iff.mp ht)

section TwoMemories

variable {s} {t : Storage} (hr : t.registers = s.registers)
  (hm : ∀ a ∈ i.loads s.registers s.registers.wz, t.memory.read a = s.memory.read a)

include hr hm

/-- Memory has no other way into the registers than the cells that are loaded. -/
theorem registers_exec_congr : (i.exec t).registers = (i.exec s).registers := by
  obtain ⟨r, m⟩ := s
  obtain ⟨_, n⟩ := t
  cases hr
  cases i with
  | inr x | dcr x =>
    cases x with
    | reg r => rfl
    | memory => simp_all [exec, loads, Storage.load, Storage.store, Storage.markResult]
  | mvi x => cases x <;> rfl
  | mov dst src =>
    cases src with
    | reg r => rfl
    | memory => simp_all [exec, loads, Storage.load, Storage.store]
  | ldax _ | lda | lhld => simp_all [exec, loads, Memory.readWord]
  | _ => rfl

theorem read_exec_congr {a : Word} (ha : a ∈ i.stores s.registers s.registers.wz) :
    (i.exec t).memory.read a = (i.exec s).memory.read a := by
  obtain ⟨r, m⟩ := s
  obtain ⟨_, n⟩ := t
  cases hr
  cases i with
  | inr x | dcr x | mvi x =>
    cases x with
    | reg r => simp [stores] at ha
    | memory => simp_all [exec, loads, stores, Storage.load, Storage.store]
  | shld =>
    simp only [exec, Storage.memory_writeWord, Memory.read_writeWord]
    split
    · rfl
    · next hne =>
      have hlo : a = r.wz := by simpa [stores, hne] using ha
      rw [if_pos hlo, if_pos hlo]
  | _ => simp_all [exec, stores, Storage.load, Storage.store]

end TwoMemories

end Instruction

end Micro8080
