import Mathlib.Logic.Function.Basic
import Micro8080.Proofs.Footprint
import Micro8080.Proofs.Timing

/-!
# Bytes by place

Every register, each half of the two pointers and every cell of memory is a place that holds one
byte, and no two places share one. What a step does to registers and memory is a list of bytes with
the places they go to: `Performs` says that it does just this, so that a place the list does not
name keeps its byte.
-/

namespace Micro8080

inductive Place where
  | register (x : Register)
  | spHigh
  | spLow
  | pcHigh
  | pcLow
  | cell (a : Word)
deriving DecidableEq

namespace Pair

def high : Pair → Place
  | .bc => .register .b
  | .de => .register .d
  | .hl => .register .h
  | .sp => .spHigh
  | .pc => .pcHigh
  | .wz => .register .w

def low : Pair → Place
  | .bc => .register .c
  | .de => .register .e
  | .hl => .register .l
  | .sp => .spLow
  | .pc => .pcLow
  | .wz => .register .z

/-- The two bytes of a word in a pair. -/
def bytes (p : Pair) (v : Word) : List (Place × Byte) :=
  [(p.high, Word.high v), (p.low, Word.low v)]

end Pair

/-- Where the operand is when HL is the one of `r`. -/
def Operand.place (r : Registers) : Operand → Place
  | .reg x => .register x.register
  | .memory => .cell r.hl

/-- The bytes of all places after bytes were put into some of them, one after the other. -/
def overwrite (f : Place → Byte) (ws : List (Place × Byte)) : Place → Byte :=
  ws.foldl (fun g w => Function.update g w.1 w.2) f

@[simp] theorem overwrite_nil (f : Place → Byte) : overwrite f [] = f := rfl

@[simp] theorem overwrite_cons (f : Place → Byte) (p : Place) (v : Byte)
    (ws : List (Place × Byte)) :
    overwrite f ((p, v) :: ws) = overwrite (Function.update f p v) ws := rfl

theorem overwrite_append (f : Place → Byte) (ws vs : List (Place × Byte)) :
    overwrite f (ws ++ vs) = overwrite (overwrite f ws) vs :=
  List.foldl_append

theorem overwrite_concat_self (f : Place → Byte) (ws : List (Place × Byte)) (p : Place) (v : Byte) :
    overwrite f (ws ++ [(p, v)]) p = v := by
  simp [overwrite_append]

theorem overwrite_of_forall_ne (f : Place → Byte) {ws : List (Place × Byte)} {p : Place}
    (h : ∀ w ∈ ws, w.1 ≠ p) : overwrite f ws p = f p := by
  induction ws generalizing f with
  | nil => rfl
  | cons w ws ih =>
    obtain ⟨hw, hws⟩ := List.forall_mem_cons.mp h
    rw [overwrite_cons, ih _ hws, Function.update_of_ne hw.symm]

/-- The first word is lost when a pair is given two. -/
theorem overwrite_bytes_bytes (f : Place → Byte) (p : Pair) (v w : Word) :
    overwrite f (p.bytes v ++ p.bytes w) = overwrite f (p.bytes w) := by
  have hne : p.low ≠ p.high := by cases p <;> nofun
  simp only [Pair.bytes, List.cons_append, List.nil_append, overwrite_cons, overwrite_nil]
  rw [Function.update_comm hne, Function.update_idem, Function.update_idem]

namespace Storage

variable (s : Storage)

def peek : Place → Byte
  | .register x => s.registers.get x
  | .spHigh => Word.high s.registers.sp
  | .spLow => Word.low s.registers.sp
  | .pcHigh => Word.high s.registers.pc
  | .pcLow => Word.low s.registers.pc
  | .cell a => s.memory.read a

/-- Registers and memory hold nothing else. -/
theorem ext_peek {s t : Storage} (h : ∀ p, s.peek p = t.peek p) : s = t := by
  have hr : s.registers = t.registers := by
    apply Registers.ext_get
    · intro x
      exact h (.register x)
    · exact (Word.eq_iff_high_low _ _).mpr ⟨h .spHigh, h .spLow⟩
    · exact (Word.eq_iff_high_low _ _).mpr ⟨h .pcHigh, h .pcLow⟩
  have hm : s.memory = t.memory := Memory.ext fun a => h (.cell a)
  cases s
  cases t
  cases hr
  cases hm
  rfl

theorem peek_set (x : Register) (v : Byte) :
    (s.set x v).peek = Function.update s.peek (.register x) v := by
  funext p
  cases p <;> simp [peek, Function.update_apply]

theorem peek_setPair (p : Pair) (v : Word) :
    (s.setPair p v).peek = overwrite s.peek (p.bytes v) := by
  have hset {hi lo : Register} (hp : p.halves? = some (hi, lo)) :
      s.setPair p v = (s.set hi (Word.high v)).set lo (Word.low v) :=
    congrArg (fun r => { s with registers := r }) (s.registers.setPair_eq_set hp v)
  cases p with
  | bc | de | hl | wz =>
    rw [hset rfl, peek_set, peek_set]
    rfl
  | sp | pc =>
    funext q
    cases q <;> simp [peek, Pair.bytes, Pair.high, Pair.low]

theorem peek_write (a : Word) (v : Byte) :
    (s.write a v).peek = Function.update s.peek (.cell a) v := by
  funext p
  cases p <;> simp [peek, Function.update_apply]

theorem peek_writeWord (a v : Word) :
    (s.writeWord a v).peek =
      overwrite s.peek [(.cell a, Word.low v), (.cell (a + 1), Word.high v)] := by
  have hw : s.writeWord a v = (s.write a (Word.low v)).write (a + 1) (Word.high v) := rfl
  rw [hw, peek_write, peek_write]
  rfl

theorem peek_setFlag (x : Flag) (on : Bool) :
    (s.setFlag x on).peek =
      Function.update s.peek (.register .f) (x.write s.registers.f on) :=
  s.peek_set .f _

theorem peek_store (x : Operand) (v : Byte) :
    (s.store x v).peek = Function.update s.peek (x.place s.registers) v := by
  cases x with
  | reg r => exact s.peek_set r.register v
  | memory => exact s.peek_write s.registers.hl v

theorem load_eq_peek (x : Operand) : s.load x = s.peek (x.place s.registers) := by
  cases x <;> rfl

end Storage

namespace Machine

variable {m : Machine} {i : Instruction}

theorem operand_eq (m : Machine) :
    m.operand =
      Word.ofBytes (m.memory.read (m.registers.pc + 2)) (m.memory.read (m.registers.pc + 1)) := by
  rw [operand, Memory.readWord, UInt16.add_assoc]
  rfl

/-- What `i` finds when its effect begins. -/
def staged (m : Machine) (i : Instruction) : Storage :=
  ⟨i.stage m.memory m.registers, m.memory⟩

/-- The bytes that the fetch of `i` puts into the latches and into PC. -/
def staging (m : Machine) (i : Instruction) : List (Place × Byte) :=
  (match i.immediate with
    | .none => []
    | .byte => [(.register .z, m.memory.read (m.registers.pc + 1))]
    | .word => Pair.wz.bytes m.operand) ++
  Pair.pc.bytes (m.registers.pc + UInt16.ofNat i.length)

theorem peek_staged (m : Machine) (i : Instruction) :
    (m.staged i).peek = overwrite m.peek (m.staging i) := by
  have hpc : m.staged i = Storage.setPair ⟨i.latch m.memory m.registers, m.memory⟩ .pc
      (m.registers.pc + UInt16.ofNat i.length) := rfl
  rw [hpc, Storage.peek_setPair, staging, overwrite_append]
  congr 1
  unfold Instruction.latch
  cases i.immediate with
  | none => rfl
  | byte => exact Storage.peek_set m.toStorage .z _
  | word => exact Storage.peek_setPair m.toStorage .wz _

theorem hl_staged (m : Machine) (i : Instruction) : (m.staged i).registers.hl = m.registers.hl :=
  i.hl_stage m.memory m.registers

theorem pair_staged (m : Machine) (i : Instruction) {p : Pair} (hwz : p ≠ .wz) (hpc : p ≠ .pc) :
    (m.staged i).registers.pair p = m.registers.pair p :=
  i.pair_stage m.memory m.registers hwz hpc

theorem a_staged (m : Machine) (i : Instruction) : (m.staged i).registers.a = m.registers.a :=
  (i.get_stage _ _ _).trans (i.get_latch_of_ne _ _ nofun nofun)

theorem wz_staged (m : Machine) (h : i.immediate = .word) :
    (m.staged i).registers.wz = m.operand :=
  i.wz_stage m.memory m.registers h

theorem place_staged (m : Machine) (i : Instruction) (x : Operand) :
    x.place (m.staged i).registers = x.place m.registers := by
  cases x with
  | reg r => rfl
  | memory => exact congrArg Place.cell (m.hl_staged i)

theorem load_staged (m : Machine) (i : Instruction) (x : Operand) :
    (m.staged i).load x = m.load x := by
  cases x with
  | reg r =>
    have hw : r.register ≠ .w := by cases r <;> nofun
    have hz : r.register ≠ .z := by cases r <;> nofun
    exact (i.get_stage _ _ _).trans (i.get_latch_of_ne _ _ hw hz)
  | memory => exact congrArg m.memory.read (m.hl_staged i)

/-- The next step of `m` takes `cycles` ticks and stores the bytes `ws`, all else that registers
and memory hold is left alone. -/
structure Performs (m : Machine) (cycles : Nat) (ws : List (Place × Byte)) : Prop where
  result : m.step.result = .ok cycles
  phase : m.step.machine.phase = .idle
  opcode : m.step.machine.opcode = m.nextOpcode
  ticks : m.step.machine.ticks.toNat = m.ticks.toNat + cycles
  bytes : m.step.machine.peek = overwrite m.peek ws

theorem Performs.peek_of_forall_ne {cycles : Nat} {ws : List (Place × Byte)} {p : Place}
    (h : m.Performs cycles ws) (hp : ∀ w ∈ ws, w.1 ≠ p) : m.step.machine.peek p = m.peek p := by
  rw [h.bytes]
  exact overwrite_of_forall_ne _ hp

theorem Performs.congr {cycles : Nat} {ws vs : List (Place × Byte)} (h : m.Performs cycles ws)
    (he : overwrite m.peek ws = overwrite m.peek vs) : m.Performs cycles vs :=
  { h with bytes := h.bytes.trans he }

/-- A step of an idle machine stages an instruction and applies its effect. -/
theorem performs_of_exec {ws : List (Place × Byte)} (hp : m.phase = .idle)
    (hc : m.ticks.toNat + 16 < UInt64.size) (ho : m.nextOpcode = i.opcode)
    (h : (i.exec (m.staged i)).peek = overwrite (m.staged i).peek ws) :
    m.Performs i.cycles (m.staging i ++ ws) := by
  have hi := i.cycles_le
  have hd : Instruction.decode? m.nextOpcode = some i :=
    Instruction.decode?_eq_some_iff.mpr ho.symm
  have hs : m.step = ⟨m.afterStep i, [.fetchOf m.registers.pc i], .ok i.cycles⟩ :=
    step_of_known hp hd (by omega)
  constructor
  · rw [hs]
  · rw [hs]
    exact phase_afterStep
  · rw [hs]
    rfl
  · rw [hs]
    exact toNat_ticks_afterStep (by omega)
  · rw [hs, overwrite_append, ← peek_staged]
    exact h

end Machine

end Micro8080
