import Micro8080.Proofs.Increment
import Micro8080.Proofs.Succession
import Micro8080.Proofs.Transfer

/-!
# Stores among code

A load from the address of a store gives the stored registers back, unless the store hit the load
itself. A step takes its instruction from memory as it is when the step begins, so it runs what was
stored over its bytes just before. The instruction that stores has all its own bytes since its
fetch, and a store over them comes too late for it.
-/

namespace Micro8080.Machine

variable {m : Machine} {i j : Instruction}

section Stores

/-- The bytes that `i` stores, each in its cell. -/
def deposits (m : Machine) : Instruction → List (Place × Byte)
  | .stax rp => [(.cell (m.registers.pair rp.pair), m.registers.a)]
  | .sta => [(.cell m.operand, m.registers.a)]
  | .shld => [(.cell m.operand, m.registers.get .l), (.cell (m.operand + 1), m.registers.get .h)]
  | .movToMemory src => [(.cell m.registers.hl, m.load (.reg src))]
  | .mvi .memory => [(.cell m.registers.hl, m.memory.read (m.registers.pc + 1))]
  | .inr .memory => [(.cell m.registers.hl, m.load .memory + 1)]
  | .dcr .memory => [(.cell m.registers.hl, m.load .memory - 1)]
  | _ => []

theorem map_fst_deposits (m : Machine) (i : Instruction) :
    (m.deposits i).map Prod.fst = (i.stores m.registers m.operand).map Place.cell := by
  cases i with
  | mvi x | inr x | dcr x => cases x <;> rfl
  | _ => rfl

theorem ne_of_mem_deposits {w : Place × Byte} (hw : w ∈ m.deposits i) {p : Place}
    (hp : ∀ a, p ≠ .cell a) : w.1 ≠ p := by
  have hmem : w.1 ∈ (i.stores m.registers m.operand).map Place.cell :=
    map_fst_deposits m i ▸ List.mem_map_of_mem hw
  obtain ⟨a, _, ha⟩ := List.mem_map.mp hmem
  exact ha ▸ (hp a).symm

/-- What an instruction that stores leaves in F: a count reports on the stored byte. -/
def Marked (m : Machine) : Instruction → Byte → Prop
  | .inr x, f => Reports m.registers.f (m.load x + 1) ((m.load x + 1).toNat % 16 = 15) f
  | .dcr x, f => Reports m.registers.f (m.load x - 1) ((m.load x - 1).toNat % 16 = 0) f
  | _, f => f = m.registers.f

variable (hp : m.phase = .idle) (hc : m.ticks.toNat + 16 < UInt64.size)

include hp hc

/-- The operand and the bytes to store are those of memory before the store, also where the store
hits the instruction itself. -/
theorem performs_of_storing (hi : i.storing = true) (ho : m.nextOpcode = i.opcode) :
    ∃ f, m.Performs i.cycles (m.staging i ++ m.deposits i ++ [(Place.register .f, f)]) ∧
      m.Marked i f := by
  have hown (h : m.Performs i.cycles (m.staging i ++ m.deposits i)) :
      m.Performs i.cycles
        (m.staging i ++ m.deposits i ++ [(Place.register .f, m.registers.f)]) := by
    refine h.congr (overwrite_concat_of_eq m.peek ?_).symm
    apply overwrite_of_forall_ne
    intro w hw
    rcases List.mem_append.mp hw with hs | hd
    · exact ne_of_mem_staging hs (by simp)
    · exact ne_of_mem_deposits hd (by simp)
  cases i with
  | stax rp => exact ⟨_, hown (performs_stax hp hc rp ho), rfl⟩
  | sta => exact ⟨_, hown (performs_sta hp hc ho), rfl⟩
  | shld => exact ⟨_, hown (performs_shld hp hc ho), rfl⟩
  | movToMemory src => exact ⟨_, hown (performs_movToMemory hp hc src ho), rfl⟩
  | mvi x =>
    cases x with
    | reg r => cases hi
    | memory => exact ⟨_, hown (performs_mvi hp hc .memory ho), rfl⟩
  | inr x =>
    cases x with
    | reg r => cases hi
    | memory => exact performs_inr hp hc .memory ho
  | dcr x =>
    cases x with
    | reg r => cases hi
    | memory => exact performs_dcr hp hc .memory ho
  | _ => cases hi

end Stores

section Fetches

/-- The next step decodes `b 0`, and `b 1` and `b 2` come into the latches as far as operand bytes
belong to the instruction. -/
structure Takes (m : Machine) (b : Nat → Byte) : Prop where
  opcode : m.step.machine.opcode = b 0
  unknown : Instruction.decode? (b 0) = none →
    m.step.result = .error (.fault ⟨b 0, m.registers.pc⟩)
  known : ∀ i, Instruction.decode? (b 0) = some i →
    m.step.result = .ok i.cycles ∧ m.step.events = [.fetchOf m.registers.pc i]
  z : ∀ i, Instruction.decode? (b 0) = some i → 2 ≤ i.length →
    m.step.machine.registers.get .z = b 1
  w : ∀ i, Instruction.decode? (b 0) = some i → i.length = 3 →
    m.step.machine.registers.get .w = b 2

theorem get_afterStep_of_latch (m : Machine) (i : Instruction) {x : Register}
    (hx : x = .w ∨ x = .z) :
    (m.afterStep i).registers.get x = (i.latch m.memory m.registers).get x :=
  (i.get_exec_of_latch (m.afterFetch i).toStorage hx).trans (i.get_stage m.memory m.registers x)

theorem takes_of_idle (hp : m.phase = .idle) (hc : m.ticks.toNat + 16 < UInt64.size) :
    m.Takes fun k => m.memory.read (m.registers.pc + UInt16.ofNat k) := by
  have h0 : m.memory.read (m.registers.pc + UInt16.ofNat 0) = m.nextOpcode :=
    congrArg m.memory.read (UInt16.add_zero _)
  have hknown {i : Instruction} (hd : Instruction.decode? m.nextOpcode = some i) :
      m.step = ⟨m.afterStep i, [.fetchOf m.registers.pc i], .ok i.cycles⟩ := by
    have hi := i.cycles_le
    exact step_of_known hp hd (by omega)
  have hunknown (hd : Instruction.decode? m.nextOpcode = none) :
      m.step = ⟨m.afterUnknown, [.halted m.nextFault], .error (.fault m.nextFault)⟩ :=
    step_of_unknown hp hd (by omega)
  constructor
  · rw [h0]
    cases hd : Instruction.decode? m.nextOpcode with
    | none => rw [hunknown hd]; rfl
    | some i => rw [hknown hd]; rfl
  · intro hd
    rw [h0] at hd ⊢
    rw [hunknown hd]
    rfl
  · intro i hd
    rw [h0] at hd
    rw [hknown hd]
    exact ⟨rfl, rfl⟩
  · intro i hd hl
    rw [h0] at hd
    rw [hknown hd]
    have hz := i.get_latch_z m.memory m.registers
    rw [if_pos hl] at hz
    exact (m.get_afterStep_of_latch i (.inr rfl)).trans hz
  · intro i hd hl
    rw [h0] at hd
    rw [hknown hd]
    have hw := i.get_latch_w m.memory m.registers
    rw [if_pos hl] at hw
    exact (m.get_afterStep_of_latch i (.inl rfl)).trans hw

/-- The code of the step after a store is read with the stored bytes in it. -/
theorem takes_after_store (hp : m.phase = .idle) (hc : m.ticks.toNat + 32 < UInt64.size)
    (hi : i.storing = true) (ho : m.nextOpcode = i.opcode) :
    m.step.machine.Takes fun k => overwrite m.peek (m.deposits i)
      (.cell (m.registers.pc + UInt16.ofNat i.length + UInt16.ofNat k)) := by
  obtain ⟨f, h, -⟩ := performs_of_storing hp (by omega) hi ho
  have hcycles := i.cycles_le
  -- F is neither in PC nor a cell, so the next fetch does not meet what the store did to it
  rw [List.append_assoc] at h
  have hpc := h.pc_eq fun w hw => by
    rcases List.mem_append.mp hw with hd | hf
    · exact ⟨ne_of_mem_deposits hd nofun, ne_of_mem_deposits hd nofun⟩
    · obtain rfl := List.mem_singleton.mp hf
      exact ⟨nofun, nofun⟩
  have hread (a : Word) :
      m.step.machine.memory.read a = overwrite m.peek (m.deposits i) (.cell a) := by
    rw [h.read_eq_overwrite a]
    exact overwrite_append_of_forall_ne _ _ (by simp)
  have ht := takes_of_idle h.phase (by rw [h.ticks]; omega)
  simp only [hread, hpc] at ht
  exact ht

end Fetches

section Reloads

variable {c d : Nat} {ws vs : List (Place × Byte)}

theorem ne_pc_of_cell {w : Place × Byte} (hw : ∃ a, w.1 = .cell a) :
    w.1 ≠ .pcHigh ∧ w.1 ≠ .pcLow := by
  obtain ⟨a, ha⟩ := hw
  rw [ha]
  exact ⟨nofun, nofun⟩

theorem map_fst_staging_congr (n : Machine) (hij : i.immediate = j.immediate) :
    (m.staging i).map Prod.fst = (n.staging j).map Prod.fst := by
  simp only [staging, Pair.bytes, List.map_append, List.map_cons, List.map_nil, hij]
  cases j.immediate with
  | none | byte => rfl
  | word => simp only [List.map_cons, List.map_nil]

/-- A second step that loads what the registers hold leaves its operand bytes and PC. -/
theorem performsAll_of_reload (hi : m.Performs c (m.staging i ++ ws))
    (hj : m.step.machine.Performs d (m.step.machine.staging j ++ vs))
    (hij : i.immediate = j.immediate) (hws : ∀ w ∈ ws, ∃ a, w.1 = .cell a)
    (hvs : ∀ v ∈ vs, ∃ x : Gpr, v = (.register x.register, m.registers.get x.register)) :
    m.PerformsAll [c, d] (ws ++ m.step.machine.staging j) := by
  -- neither the store nor the second fetch touched the registers that are loaded
  have hold : ∀ v ∈ vs, overwrite m.peek (ws ++ m.step.machine.staging j) v.1 = v.2 := by
    intro v hv
    obtain ⟨x, rfl⟩ := hvs v hv
    apply overwrite_of_forall_ne
    intro w hw
    rcases List.mem_append.mp hw with hcell | hstaging
    · obtain ⟨a, ha⟩ := hws w hcell
      rw [ha]
      nofun
    · apply ne_of_mem_staging hstaging
      cases x <;> simp [Gpr.register]
  refine (hi.andThen hj).congr ?_
  calc overwrite m.peek (m.staging i ++ ws ++ (m.step.machine.staging j ++ vs))
      = overwrite m.peek (m.staging i ++ (ws ++ m.step.machine.staging j ++ vs)) := by
        simp only [List.append_assoc]
    _ = overwrite m.peek (ws ++ m.step.machine.staging j ++ vs) := by
        apply overwrite_append_of_subset
        intro p hp
        simp only [List.map_append, List.mem_append]
        exact .inl (.inr (map_fst_staging_congr _ hij ▸ hp))
    _ = overwrite m.peek (ws ++ m.step.machine.staging j) := overwrite_append_of_forall_eq _ hold

theorem staging_of_word (hi : i.immediate = .word) :
    m.staging i = Pair.wz.bytes m.operand ++ Pair.pc.bytes (m.registers.pc + 3) := by
  rw [staging, Instruction.length, hi]
  rfl

theorem operand_of_holds {a : Word} {b : Byte} {bs : List Byte}
    (hm : m.memory.Holds m.registers.pc (b :: Word.low a :: Word.high a :: bs)) :
    m.operand = a := by
  have hlow : m.memory.read (m.registers.pc + 1) = Word.low a := hm 1 (by simp)
  have hhigh : m.memory.read (m.registers.pc + 2) = Word.high a := hm 2 (by simp)
  rw [operand_eq, hlow, hhigh, Word.ofBytes_high_low]

/-- The code of the second instruction is still there when the first one stored elsewhere. -/
theorem holds_of_apart {bs : List Byte} (h : m.Performs c (m.staging i ++ ws))
    (hm : m.memory.Holds (m.registers.pc + UInt16.ofNat i.length) bs)
    (hbs : bs.length = j.length)
    (hws : ∀ w ∈ ws, ∃ a, a ∉ j.cells (m.registers.pc + UInt16.ofNat i.length) ∧ w.1 = .cell a) :
    m.step.machine.memory.Holds m.step.machine.registers.pc bs := by
  refine h.holds ?_ hm ?_
  · intro w hw
    obtain ⟨a, -, ha⟩ := hws w hw
    exact ne_pc_of_cell ⟨a, ha⟩
  · intro k hk w hw he
    obtain ⟨a, hfar, ha⟩ := hws w hw
    obtain rfl := Place.cell.inj (ha.symm.trans he)
    exact hfar (j.mem_cells (hbs ▸ hk) _)

theorem staging_behind_word {a : Word} {b : Byte} (h : m.Performs c (m.staging i ++ ws))
    (hws : ∀ w ∈ ws, ∃ a, w.1 = .cell a) (hi : i.immediate = .word) (hj : j.immediate = .word)
    (hm : m.step.machine.memory.Holds m.step.machine.registers.pc [b, Word.low a, Word.high a]) :
    m.step.machine.staging j = Pair.wz.bytes a ++ Pair.pc.bytes (m.registers.pc + 6) := by
  have hpc := h.pc_eq fun w hw => ne_pc_of_cell (hws w hw)
  rw [staging_of_word hj, operand_of_holds hm, hpc, Instruction.length, hi, UInt16.add_assoc]
  rfl

theorem performsAll_of_accumulator {a : Word}
    (hi : m.Performs c (m.staging i ++ [(.cell a, m.registers.a)]))
    (hj : m.step.machine.Performs d (m.step.machine.staging j ++
      [(.register .a, m.step.machine.memory.read a)]))
    (hij : i.immediate = j.immediate) :
    m.PerformsAll [c, d] ((Place.cell a, m.registers.a) :: m.step.machine.staging j) := by
  have ha : m.step.machine.memory.read a = m.registers.a := by
    rw [hi.read_eq_overwrite]
    exact overwrite_concat_self m.peek [] _ _
  rw [ha] at hj
  refine performsAll_of_reload hi hj hij ?_ ?_
  · simp
  · exact List.forall_mem_singleton.mpr ⟨.a, rfl⟩

variable (hp : m.phase = .idle) (hc : m.ticks.toNat + 32 < UInt64.size)

include hp hc

theorem performsAll_shld_lhld {a : Word}
    (hm : m.memory.Holds m.registers.pc
      [0x22, Word.low a, Word.high a, 0x2A, Word.low a, Word.high a])
    (ha : ∀ x ∈ [a, a + 1], x ∉ Instruction.lhld.cells (m.registers.pc + 3)) :
    m.PerformsAll [16, 16]
      ([(Place.cell a, m.registers.get .l), (.cell (a + 1), m.registers.get .h)] ++
        (Pair.wz.bytes a ++ Pair.pc.bytes (m.registers.pc + 6))) := by
  have hfirst := performs_shld hp (by omega) hm.head
  rw [operand_of_holds hm] at hfirst
  have hcode := holds_of_apart (j := .lhld) hfirst (hm.drop 3) rfl fun w hw => by
    rcases List.mem_pair.mp hw with rfl | rfl
    · exact ⟨a, ha a (by simp), rfl⟩
    · exact ⟨a + 1, ha (a + 1) (by simp), rfl⟩
  have hlast := performs_lhld hfirst.phase (by rw [hfirst.ticks]; omega) hcode.head
  have hlow : m.step.machine.memory.read a = m.registers.get .l := by
    rw [hfirst.read_eq_overwrite]
    simp
  have hhigh : m.step.machine.memory.read (a + 1) = m.registers.get .h := by
    rw [hfirst.read_eq_overwrite]
    simp
  rw [operand_of_holds hcode, hlow, hhigh] at hlast
  have hs := staging_behind_word (j := .lhld) hfirst (by simp) rfl rfl hcode
  rw [← hs]
  refine performsAll_of_reload hfirst hlast rfl ?_ ?_
  · simp
  · intro v hv
    rcases List.mem_pair.mp hv with rfl | rfl
    · exact ⟨.h, rfl⟩
    · exact ⟨.l, rfl⟩

theorem performsAll_sta_lda {a : Word}
    (hm : m.memory.Holds m.registers.pc
      [0x32, Word.low a, Word.high a, 0x3A, Word.low a, Word.high a])
    (ha : a ∉ Instruction.lda.cells (m.registers.pc + 3)) :
    m.PerformsAll [13, 13] ((Place.cell a, m.registers.a) ::
      (Pair.wz.bytes a ++ Pair.pc.bytes (m.registers.pc + 6))) := by
  have hfirst := performs_sta hp (by omega) hm.head
  rw [operand_of_holds hm] at hfirst
  have hcode := holds_of_apart (j := .lda) hfirst (hm.drop 3) rfl
    (List.forall_mem_singleton.mpr ⟨a, ha, rfl⟩)
  have hlast := performs_lda hfirst.phase (by rw [hfirst.ticks]; omega) hcode.head
  rw [operand_of_holds hcode] at hlast
  rw [← staging_behind_word (j := .lda) hfirst (by simp) rfl rfl hcode]
  exact performsAll_of_accumulator hfirst hlast rfl

theorem performsAll_stax_ldax (rp : Indirect)
    (hm : m.memory.Holds m.registers.pc
      [(Instruction.stax rp).opcode, (Instruction.ldax rp).opcode])
    (ha : m.registers.pair rp.pair ∉ (Instruction.ldax rp).cells (m.registers.pc + 1)) :
    m.PerformsAll [7, 7] ((Place.cell (m.registers.pair rp.pair), m.registers.a) ::
      Pair.pc.bytes (m.registers.pc + 2)) := by
  have hfirst := performs_stax hp (by omega) rp hm.head
  have hcode := holds_of_apart (j := .ldax rp) hfirst (hm.drop 1) rfl
    (List.forall_mem_singleton.mpr ⟨_, ha, rfl⟩)
  have hpc := hfirst.pc_eq (by simp)
  have hlast := performs_ldax hfirst.phase (by rw [hfirst.ticks]; omega) rp hcode.head
  have hpair : m.step.machine.registers.pair rp.pair = m.registers.pair rp.pair := by
    apply hfirst.pair_eq_of_apart
    · simp
    · cases rp <;> simp [Pair.high, Pair.low, Indirect.pair]
  have hs : m.step.machine.staging (.ldax rp) = Pair.pc.bytes (m.registers.pc + 2) := by
    rw [staging_of_none rfl, hpc, UInt16.add_assoc]
    rfl
  rw [hpair] at hlast
  rw [← hs]
  exact performsAll_of_accumulator hfirst hlast rfl

end Reloads

/-- A store and the load behind it give the registers back, whatever the address is, if the load is
not hit. A store over the code that follows is executed, and one over the bytes of its own
instruction does what any other does. -/
theorem store_coherence {m : Machine} (hp : m.phase = .idle)
    (hc : m.ticks.toNat + 32 < UInt64.size) :
    let r := m.registers
    let code := m.memory.Holds r.pc
    (∀ a : Word, code [0x22, Word.low a, Word.high a, 0x2A, Word.low a, Word.high a] →
      (∀ x ∈ [a, a + 1], x ∉ Instruction.lhld.cells (r.pc + 3)) →
      m.PerformsAll [16, 16] ([(Place.cell a, r.get .l), (.cell (a + 1), r.get .h)] ++
        (Pair.wz.bytes a ++ Pair.pc.bytes (r.pc + 6)))) ∧
    (∀ a : Word, code [0x32, Word.low a, Word.high a, 0x3A, Word.low a, Word.high a] →
      a ∉ Instruction.lda.cells (r.pc + 3) →
      m.PerformsAll [13, 13]
        ((Place.cell a, r.a) :: (Pair.wz.bytes a ++ Pair.pc.bytes (r.pc + 6)))) ∧
    (∀ rp : Indirect,
      code [UInt8.ofNat (0x02 + 16 * rp.code), UInt8.ofNat (0x0A + 16 * rp.code)] →
      r.pair rp.pair ∉ (Instruction.ldax rp).cells (r.pc + 1) →
      m.PerformsAll [7, 7] ((Place.cell (r.pair rp.pair), r.a) :: Pair.pc.bytes (r.pc + 2))) ∧
    ∀ i : Instruction, i.storing = true → m.nextOpcode = i.opcode →
      (∃ f, m.Performs i.cycles (m.staging i ++ m.deposits i ++ [(Place.register .f, f)]) ∧
        m.Marked i f) ∧
      m.step.machine.Takes fun k => overwrite m.peek (m.deposits i)
        (.cell (r.pc + UInt16.ofNat i.length + UInt16.ofNat k)) := by
  intro r code
  refine ⟨fun a hm ha => performsAll_shld_lhld hp hc hm ha,
    fun a hm ha => performsAll_sta_lda hp hc hm ha, ?_, ?_⟩
  · intro rp hm ha
    have hstax : UInt8.ofNat (0x02 + 16 * rp.code) = (Instruction.stax rp).opcode := by
      cases rp <;> rfl
    have hldax : UInt8.ofNat (0x0A + 16 * rp.code) = (Instruction.ldax rp).opcode := by
      cases rp <;> rfl
    rw [hstax, hldax] at hm
    exact performsAll_stax_ldax hp hc rp hm ha
  · intro i hi ho
    exact ⟨performs_of_storing hp (by omega) hi ho, takes_after_store hp hc hi ho⟩

/-- HL by way of the last address and the first one, a store over an unknown opcode that is next,
and one over its own address bytes. -/
theorem stores_among_code :
    let m (hl : Word) (bs : List Byte) : Machine :=
      { new (Memory.zero.fill 1 bs) with
        registers := ((Registers.zero.set .a 0x5A).setPair .hl hl).setPc 1 }
    let pair := m 0x1234 [0x22, 0xFF, 0xFF, 0x2A, 0xFF, 0xFF]
    ((pair.after [.step, .step]).peek (.cell 0) = 0x12 ∧
        (pair.after [.step, .step]).peek (.register .h) = 0x12) ∧
      (m 2 [0x77, 0xFF]).step.machine.step.result = .ok 5 ∧
      (m 0 [0x32, 0x02, 0x00]).step.machine.peek (.cell 2) = 0x5A := by
  intro m pair
  have hpc (hl : Word) (bs : List Byte) : (m hl bs).registers.pc = 1 := Registers.pc_setPc _ _
  have ha (hl : Word) (bs : List Byte) : (m hl bs).registers.a = 0x5A := by simp [m]
  have hh (bs : List Byte) : (m 0x1234 bs).registers.get .h = 0x12 := by
    change (((Registers.zero.set .a 0x5A).setPair .hl 0x1234).setPc 1).get .h = 0x12
    decide
  have hcode (hl : Word) {bs : List Byte} (hbs : bs.length ≤ 6) :
      (m hl bs).memory.Holds 1 bs := by
    apply Memory.holds_fill
    change 1 + bs.length ≤ 65536
    omega
  have hm (hl : Word) {bs : List Byte} (hbs : bs.length ≤ 6) :
      (m hl bs).memory.Holds (m hl bs).registers.pc bs :=
    (hpc hl bs).symm ▸ hcode hl hbs
  have h (hl : Word) (bs : List Byte) :=
    store_coherence (m := m hl bs) rfl (by change 0 + 32 < UInt64.size; decide)
  obtain ⟨hpair, -⟩ := h 0x1234 [0x22, 0xFF, 0xFF, 0x2A, 0xFF, 0xFF]
  obtain ⟨-, -, -, hnext⟩ := h 2 [0x77, 0xFF]
  obtain ⟨-, -, -, hown⟩ := h 0 [0x32, 0x02, 0x00]
  simp only [hpc, hh] at hpair
  simp only [hpc] at hnext
  have hfar : ∀ x ∈ [(0xFFFF : Word), 0xFFFF + 1], x ∉ Instruction.lhld.cells (1 + 3) := by
    intro x hx
    rcases List.mem_pair.mp hx with rfl | rfl <;> decide
  refine ⟨⟨?_, ?_⟩, ?_, ?_⟩
  · rw [(hpair 0xFFFF (hcode _ (by decide)) hfar).peek_after_two,
      overwrite_append_of_forall_ne _ _ (by simp [Pair.bytes, Pair.high, Pair.low])]
    exact overwrite_concat_self _ [_] (.cell 0) _
  · rw [(hpair 0xFFFF (hcode _ (by decide)) hfar).peek_after_two,
      overwrite_of_forall_ne _ (by simp [Pair.bytes, Pair.high, Pair.low])]
    exact hh _
  · obtain ⟨-, ht⟩ := hnext (.movToMemory .a) rfl (hm _ (by decide)).head
    have hdeposit : (m 2 [0x77, 0xFF]).deposits (.movToMemory .a) = [(.cell 2, 0x5A)] := by
      simp [deposits, m, Storage.load, Gpr.register]
    have hb := overwrite_concat_self (m 2 [0x77, 0xFF]).peek [] (.cell 2) 0x5A
    rw [List.nil_append, ← hdeposit] at hb
    have hd := congrArg Instruction.decode? hb
    exact (ht.known (.mov .e (.reg .d)) hd).1
  · obtain ⟨⟨f, hf, -⟩, -⟩ := hown .sta rfl (hm _ (by decide)).head
    have ho : (m 0 [0x32, 0x02, 0x00]).operand = 2 := operand_of_holds (hm 0 (by decide))
    rw [hf.bytes, overwrite_append_of_forall_ne _ _ (by simp), deposits, ho, ha]
    exact overwrite_concat_self _ _ _ _

end Micro8080.Machine
