import Micro8080.Proofs.Accumulator
import Micro8080.Proofs.Increment
import Micro8080.Proofs.PairArithmetic
import Micro8080.Proofs.Succession

/-!
# Instructions that undo each other

An increment and a decrement of one operand, in either order, leave it as it was, at the ends of
its range too. So do the two rotations through the carry and a complement made twice, and nothing
but PC tells that they ran. The plain rotations leave the bit that wrapped around in the carry, and
byte increments and decrements leave F with the report on the operand. A cell that is counted up and
down must not be the one of the second opcode.
-/

namespace Micro8080

namespace Accumulator

section Rotations

variable {w : Nat} (hw : 1 < w) (x : BitVec w)

include hw

theorem rotateRight_rotateLeft_one : (x.rotateLeft 1).rotateRight 1 = x := by
  have hone : 1 % w = 1 := Nat.mod_eq_of_lt hw
  apply BitVec.eq_of_getLsbD_eq
  intro k hk
  simp only [BitVec.getLsbD_rotateRight, BitVec.getLsbD_rotateLeft, hone]
  by_cases h : k < w - 1
  · have hlt : 1 + k < w := by omega
    simp [h, hlt]
  · have hlast : k = w - 1 := by omega
    have hpos : 0 < w := by omega
    have hlt : w - 1 < w := by omega
    simp [hlast, hpos, hlt]

theorem rotateLeft_rotateRight_one : (x.rotateRight 1).rotateLeft 1 = x := by
  have hone : 1 % w = 1 := Nat.mod_eq_of_lt hw
  apply BitVec.eq_of_getLsbD_eq
  intro k hk
  simp only [BitVec.getLsbD_rotateRight, BitVec.getLsbD_rotateLeft, hone]
  by_cases h : k = 0
  · have hpos : 0 < w := by omega
    have hlt : w - 1 < w := by omega
    simp [h, hpos, hlt]
  · have hge : ¬k < 1 := by omega
    have hlt : k - 1 < w - 1 := by omega
    have hsucc : 1 + (k - 1) = k := by omega
    simp [hge, hlt, hsucc, hk]

end Rotations

variable (s : Accumulator)

theorem performAll_ral_rar : s.performAll [.ral, .rar] = s := by
  simp only [performAll_cons, performAll_nil, perform, ring_ofRing]
  rw [rotateRight_rotateLeft_one (by decide), ofRing_ring]

theorem performAll_rar_ral : s.performAll [.rar, .ral] = s := by
  simp only [performAll_cons, performAll_nil, perform, ring_ofRing]
  rw [rotateLeft_rotateRight_one (by decide), ofRing_ring]

theorem performAll_cma_cma : s.performAll [.cma, .cma] = s := by
  simp [perform]

theorem performAll_cmc_cmc : s.performAll [.cmc, .cmc] = s := by
  simp [perform]

theorem performAll_rlc_rrc : s.performAll [.rlc, .rrc] = { s with carry := s.a.getLsbD 7 } := by
  simp only [performAll_cons, performAll_nil, perform]
  rw [rotateRight_rotateLeft_one (by decide)]

theorem performAll_rrc_rlc : s.performAll [.rrc, .rlc] = { s with carry := s.a.getLsbD 0 } := by
  simp only [performAll_cons, performAll_nil, perform]
  rw [rotateLeft_rotateRight_one (by decide)]

end Accumulator

theorem Reports.trans {old v u f g : Byte} {half other : Prop} (h : Reports old u half f)
    (hg : Reports f v other g) : Reports old v other g :=
  { hg with
    carry := hg.carry.trans h.carry
    unused := fun k hk => (hg.unused k hk).trans (h.unused k hk) }

theorem Operand.place_ne (x : Operand) (r : Registers) {p : Place}
    (hp : p ∈ [Place.register .f, .pcHigh, .pcLow]) : x.place r ≠ p := by
  rintro rfl
  cases x with
  | reg y => cases y <;> simp [Operand.place, Gpr.register] at hp
  | memory => simp [Operand.place] at hp

namespace Machine

variable {m n : Machine}

/-- What operations on the accumulator do, as bytes by place. -/
theorem Operated.peek_eq {ops : List Accumulator.Op} (h : m.Operated ops n) :
    let s := m.registers.accumulator.performAll ops
    n.peek = overwrite m.peek (Pair.pc.bytes (m.registers.pc + UInt16.ofNat ops.length) ++
      [(Place.register .a, ⟨s.a⟩), (.register .f, Flag.carry.write m.registers.f s.carry)]) := by
  intro s
  have ha : n.registers.a = ⟨s.a⟩ :=
    congrArg (fun t => UInt8.ofBitVec t.a) h.accumulator
  have hcarry : Flag.carry.read n.registers.f = s.carry :=
    congrArg Accumulator.carry h.accumulator
  have hf : n.registers.f = Flag.carry.write m.registers.f s.carry := by
    apply Byte.ext_bit
    intro k _
    rw [Flag.bit_write]
    by_cases hk : k = Flag.carry.position
    · rw [if_pos hk, hk]
      exact hcarry
    · rw [if_neg hk]
      exact h.flags k hk
  have hn : n.toStorage = ((m.toStorage.setPair .pc
      (m.registers.pc + UInt16.ofNat ops.length)).set .a ⟨s.a⟩).set .f
        (Flag.carry.write m.registers.f s.carry) := by
    rw [← ha, ← hf]
    exact congrArg₂ Storage.mk h.registers h.memory
  rw [hn, Storage.peek_set, Storage.peek_set, Storage.peek_setPair, overwrite_append]
  rfl

section

variable (hp : m.phase = .idle)

include hp

theorem performsAll_operations (ops : List Accumulator.Op)
    (hm : m.memory.Holds m.registers.pc (ops.map fun o => o.instruction.opcode))
    (hc : m.ticks.toNat + 4 * ops.length < UInt64.size) :
    let s := m.registers.accumulator.performAll ops
    m.PerformsAll (List.replicate ops.length 4)
      (Pair.pc.bytes (m.registers.pc + UInt16.ofNat ops.length) ++
        [(Place.register .a, ⟨s.a⟩), (.register .f, Flag.carry.write m.registers.f s.carry)]) := by
  intro s
  obtain ⟨ha, hn⟩ := steps_of_operations hp hm hc
  constructor
  · rw [List.length_replicate, List.map_replicate]
    exact ha
  · rw [List.length_replicate]
    exact hn.phase
  · rw [List.length_replicate, hn.ticks, List.sum_replicate_nat, Nat.mul_comm]
  · rw [List.length_replicate]
    exact hn.peek_eq

/-- Two operations that bring the accumulator back. -/
theorem performsAll_of_restoring {x y : Accumulator.Op} {carry : Bool}
    (hm : m.memory.Holds m.registers.pc [x.instruction.opcode, y.instruction.opcode])
    (hc : m.ticks.toNat + 8 < UInt64.size)
    (h : m.registers.accumulator.performAll [x, y] =
      { m.registers.accumulator with carry := carry }) :
    m.PerformsAll [4, 4] (Pair.pc.bytes (m.registers.pc + 2) ++
      [(Place.register .f, Flag.carry.write m.registers.f carry)]) := by
  have hall := performsAll_operations hp [x, y] hm hc
  rw [h] at hall
  refine hall.congr ?_
  have ha : overwrite m.peek (Pair.pc.bytes (m.registers.pc + 2)) (.register .a) =
      m.registers.a := rfl
  change overwrite m.peek ((Pair.pc.bytes (m.registers.pc + 2) ++
    [(Place.register .a, m.registers.a)]) ++
      [(Place.register .f, Flag.carry.write m.registers.f carry)]) = _
  rw [overwrite_append, overwrite_concat_of_eq m.peek ha, ← overwrite_append]

theorem performsAll_of_inverse {x y : Accumulator.Op}
    (hm : m.memory.Holds m.registers.pc [x.instruction.opcode, y.instruction.opcode])
    (hc : m.ticks.toNat + 8 < UInt64.size)
    (h : ∀ s : Accumulator, s.performAll [x, y] = s) :
    m.PerformsAll [4, 4] (Pair.pc.bytes (m.registers.pc + 2)) := by
  refine (performsAll_of_restoring hp hm hc (h _)).congr (overwrite_concat_of_eq _ ?_)
  exact (Flag.carry.write_read m.registers.f).symm

end

section Words

/-- Wherever `i` is executed, it applies `f` to the word in `rp`. -/
def Counts (i : Instruction) (rp : Wide) (f : Word → Word) : Prop :=
  ∀ m : Machine, m.phase = .idle → m.ticks.toNat + 16 < UInt64.size → m.nextOpcode = i.opcode →
    m.Performs 5 (m.staging i ++ rp.pair.bytes (f (m.registers.pair rp.pair)))

theorem counts_inx (rp : Wide) : Counts (.inx rp) rp (· + 1) :=
  fun _ hp hc ho => performs_inx hp hc rp ho

theorem counts_dcx (rp : Wide) : Counts (.dcx rp) rp (· - 1) :=
  fun _ hp hc ho => performs_dcx hp hc rp ho

theorem ne_of_mem_wide_bytes {rp : Wide} {v : Word} {w : Place × Byte} (hw : w ∈ rp.pair.bytes v) :
    (w.1 ≠ .pcHigh ∧ w.1 ≠ .pcLow) ∧ ∀ a, w.1 ≠ .cell a := by
  rcases List.mem_pair.mp hw with rfl | rfl <;> cases rp <;>
    simp [Wide.pair, Pair.high, Pair.low]

theorem performsAll_of_counts {i j : Instruction} {rp : Wide} {f g : Word → Word}
    (hi : Counts i rp f) (hj : Counts j rp g) (hni : i.immediate = .none)
    (hnj : j.immediate = .none) (hgf : ∀ w, g (f w) = w) (hp : m.phase = .idle)
    (hc : m.ticks.toNat + 32 < UInt64.size)
    (hm : m.memory.Holds m.registers.pc [i.opcode, j.opcode]) :
    m.PerformsAll [5, 5] (Pair.pc.bytes (m.registers.pc + 2)) := by
  have hfirst := hi m hp (by omega) hm.head
  have hlen : i.length = 1 := by rw [Instruction.length, hni]; rfl
  have hpc := hfirst.pc_eq fun w hw => (ne_of_mem_wide_bytes hw).1
  have ho := hfirst.nextOpcode_eq (fun w hw => (ne_of_mem_wide_bytes hw).1)
    fun w hw => (ne_of_mem_wide_bytes hw).2 _
  rw [hlen] at hpc ho
  have hlast := hj _ hfirst.phase (by rw [hfirst.ticks]; omega) (ho.trans (hm 1 (by simp)))
  rw [hfirst.pair_eq, hgf, staging_of_none hnj, hpc, UInt16.add_assoc] at hlast
  rw [staging_of_none hni] at hfirst
  refine (hfirst.andThen_of_subset hlast (List.Subset.refl _)).congr ?_
  -- the pair has its old word, and it is none of the bytes of PC
  apply overwrite_append_of_forall_eq
  intro w hw
  obtain ⟨hhigh, hlow⟩ := (ne_of_mem_wide_bytes hw).1
  rw [overwrite_of_forall_ne _ (by simp [Pair.bytes, Pair.high, Pair.low, hhigh.symm, hlow.symm])]
  rcases List.mem_pair.mp hw with rfl | rfl
  · exact m.peek_high rp.pair
  · exact m.peek_low rp.pair

end Words

section Bytes

/-- Wherever `i` is executed, it applies `f` to the operand `x` and lets F report on the result,
with `half` for the half carry. -/
def Marks (i : Instruction) (x : Operand) (f : Byte → Byte) (half : Byte → Prop) : Prop :=
  ∀ m : Machine, m.phase = .idle → m.ticks.toNat + 16 < UInt64.size → m.nextOpcode = i.opcode →
    let v := f (m.load x)
    ∃ b, m.Performs (if x = .memory then 10 else 5)
        (m.staging i ++ [(x.place m.registers, v), (.register .f, b)]) ∧
      Reports m.registers.f v (half v) b

theorem marks_inr (x : Operand) : Marks (.inr x) x (· + 1) (fun v => v.toNat % 16 = 15) :=
  fun _ hp hc ho => performs_inr hp hc x ho

theorem marks_dcr (x : Operand) : Marks (.dcr x) x (· - 1) (fun v => v.toNat % 16 = 0) :=
  fun _ hp hc ho => performs_dcr hp hc x ho

section

variable {i : Instruction} {x : Operand} {v b : Byte} {c : Nat}
  (h : m.Performs c (m.staging i ++ [(x.place m.registers, v), (.register .f, b)]))

include h

/-- Only the cell at HL depends on registers, and on HL alone. -/
theorem Performs.place_eq_of_mark : x.place m.step.machine.registers = x.place m.registers := by
  cases x with
  | reg r => rfl
  | memory =>
    have hhl : m.step.machine.registers.hl = m.registers.hl := by
      apply h.pair_eq_of_apart (p := .hl) (by decide)
      simp [Pair.high, Pair.low, Operand.place]
    exact congrArg Place.cell hhl

theorem Performs.load_eq_of_mark : m.step.machine.load x = v := by
  have hf : x.place m.registers ≠ .register .f := x.place_ne m.registers (by simp)
  rw [Storage.load_eq_peek, h.place_eq_of_mark, h.bytes, overwrite_append, overwrite_cons,
    overwrite_cons, overwrite_nil, Function.update_of_ne hf]
  exact Function.update_self _ _ _

theorem Performs.f_eq_of_mark : m.step.machine.registers.f = b := by
  change m.step.machine.peek (.register .f) = b
  rw [h.bytes, overwrite_append, overwrite_cons, overwrite_cons, overwrite_nil,
    Function.update_self]

end

theorem performsAll_of_marks {i j : Instruction} {x : Operand} {f g : Byte → Byte}
    {half other : Byte → Prop} (hi : Marks i x f half) (hj : Marks j x g other)
    (hni : i.immediate = .none) (hnj : j.immediate = .none) (hgf : ∀ v, g (f v) = v)
    (hp : m.phase = .idle) (hc : m.ticks.toNat + 32 < UInt64.size)
    (hm : m.memory.Holds m.registers.pc [i.opcode, j.opcode])
    (hx : x = .memory → m.registers.hl ≠ m.registers.pc + 1) :
    let t := if x = .memory then 10 else 5
    ∃ b, m.PerformsAll [t, t] (Pair.pc.bytes (m.registers.pc + 2) ++ [(Place.register .f, b)]) ∧
      Reports m.registers.f (m.load x) (other (m.load x)) b := by
  intro t
  let p := x.place m.registers
  have hppc : p ≠ .pcHigh ∧ p ≠ .pcLow :=
    ⟨x.place_ne m.registers (by simp), x.place_ne m.registers (by simp)⟩
  have hpcell : p ≠ .cell (m.registers.pc + 1) := by
    cases x with
    | reg r => nofun
    | memory => exact fun he => hx rfl (Place.cell.inj he)
  obtain ⟨b, hfirst, hreports⟩ := hi m hp (by omega) hm.head
  have hlen : i.length = 1 := by rw [Instruction.length, hni]; rfl
  have hne : ∀ w ∈ [(p, f (m.load x)), (.register .f, b)], w.1 ≠ .pcHigh ∧ w.1 ≠ .pcLow := by
    simp [hppc]
  have hpc := hfirst.pc_eq hne
  have ho := hfirst.nextOpcode_eq hne (by rw [hlen]; simpa using hpcell)
  rw [hlen] at hpc ho
  obtain ⟨d, hlast, hagain⟩ :=
    hj _ hfirst.phase (by rw [hfirst.ticks]; split <;> omega) (ho.trans (hm 1 (by simp)))
  rw [hfirst.load_eq_of_mark, hgf, hfirst.place_eq_of_mark, staging_of_none hnj, hpc,
    UInt16.add_assoc] at hlast
  rw [hfirst.load_eq_of_mark, hgf, hfirst.f_eq_of_mark] at hagain
  rw [staging_of_none hni] at hfirst
  refine ⟨d, (hfirst.andThen_of_subset hlast (List.Subset.refl _)).congr ?_, hreports.trans hagain⟩
  have hown : overwrite m.peek (Pair.pc.bytes (m.registers.pc + 2)) p = m.load x := by
    rw [Storage.load_eq_peek]
    apply overwrite_of_forall_ne
    simp [Pair.bytes, Pair.high, Pair.low, hppc.1.symm, hppc.2.symm]
  calc overwrite m.peek
        (Pair.pc.bytes (m.registers.pc + 2) ++ [(p, m.load x), (.register .f, d)])
      = overwrite (overwrite m.peek
        (Pair.pc.bytes (m.registers.pc + 2) ++ [(p, m.load x)])) [(Place.register .f, d)] := rfl
    _ = overwrite m.peek (Pair.pc.bytes (m.registers.pc + 2) ++ [(Place.register .f, d)]) := by
        rw [overwrite_concat_of_eq _ hown, overwrite_append]

end Bytes

/-- Two steps through instructions that undo each other: all bytes are listed that differ
afterwards. -/
theorem inverse_steps {m : Machine} (hp : m.phase = .idle)
    (hc : m.ticks.toNat + 32 < UInt64.size) :
    let r := m.registers
    let code := m.memory.Holds r.pc
    let pc := Pair.pc.bytes (r.pc + 2)
    (∀ rp : Wide,
      let inx := UInt8.ofNat (0x03 + 16 * rp.code)
      let dcx := UInt8.ofNat (0x0B + 16 * rp.code)
      code [inx, dcx] ∨ code [dcx, inx] → m.PerformsAll [5, 5] pc) ∧
    (code [0x17, 0x1F] ∨ code [0x1F, 0x17] ∨ code [0x2F, 0x2F] ∨ code [0x3F, 0x3F] →
      m.PerformsAll [4, 4] pc) ∧
    (code [0x07, 0x0F] →
      m.PerformsAll [4, 4] (pc ++ [(Place.register .f, Flag.carry.write r.f (Byte.bit r.a 7))])) ∧
    (code [0x0F, 0x07] →
      m.PerformsAll [4, 4] (pc ++ [(Place.register .f, Flag.carry.write r.f (Byte.bit r.a 0))])) ∧
    ∀ x : Operand, (x = .memory → r.hl ≠ r.pc + 1) →
      let v := m.peek (x.place r)
      let t := if x = .memory then 10 else 5
      let inr := UInt8.ofNat (0x04 + 8 * x.code)
      let dcr := UInt8.ofNat (0x05 + 8 * x.code)
      (code [inr, dcr] → ∃ f, m.PerformsAll [t, t] (pc ++ [(Place.register .f, f)]) ∧
        Reports r.f v (v.toNat % 16 = 0) f) ∧
      (code [dcr, inr] → ∃ f, m.PerformsAll [t, t] (pc ++ [(Place.register .f, f)]) ∧
        Reports r.f v (v.toNat % 16 = 15) f) := by
  intro r code pc
  have hc8 : m.ticks.toNat + 8 < UInt64.size := by omega
  refine ⟨?_, ?_, ?_, ?_, ?_⟩
  · intro rp inx dcx h
    have hinx : inx = (Instruction.inx rp).opcode := by cases rp <;> rfl
    have hdcx : dcx = (Instruction.dcx rp).opcode := by cases rp <;> rfl
    rw [hinx, hdcx] at h
    rcases h with h | h
    · exact performsAll_of_counts (counts_inx rp) (counts_dcx rp) rfl rfl
        (fun w => UInt16.add_sub_cancel w 1) hp hc h
    · exact performsAll_of_counts (counts_dcx rp) (counts_inx rp) rfl rfl
        (fun w => UInt16.sub_add_cancel w 1) hp hc h
  · rintro (h | h | h | h)
    · exact performsAll_of_inverse (x := .ral) (y := .rar) hp h hc8
        Accumulator.performAll_ral_rar
    · exact performsAll_of_inverse (x := .rar) (y := .ral) hp h hc8
        Accumulator.performAll_rar_ral
    · exact performsAll_of_inverse (x := .cma) (y := .cma) hp h hc8
        Accumulator.performAll_cma_cma
    · exact performsAll_of_inverse (x := .cmc) (y := .cmc) hp h hc8
        Accumulator.performAll_cmc_cmc
  · intro h
    exact performsAll_of_restoring (x := .rlc) (y := .rrc) hp h hc8
      (Accumulator.performAll_rlc_rrc _)
  · intro h
    exact performsAll_of_restoring (x := .rrc) (y := .rlc) hp h hc8
      (Accumulator.performAll_rrc_rlc _)
  · intro x hx v t inr dcr
    have hinr : inr = (Instruction.inr x).opcode := (Instruction.pack_zero _ _).symm
    have hdcr : dcr = (Instruction.dcr x).opcode := (Instruction.pack_zero _ _).symm
    have hv : m.load x = v := m.load_eq_peek x
    rw [hinr, hdcr, ← hv]
    constructor
    · intro h
      exact performsAll_of_marks (marks_inr x) (marks_dcr x) rfl rfl
        (fun b => UInt8.add_sub_cancel b 1) hp hc h hx
    · intro h
      exact performsAll_of_marks (marks_dcr x) (marks_inr x) rfl rfl
        (fun b => UInt8.sub_add_cancel b 1) hp hc h hx

/-- Code around the last address: SP wraps around and back, the carry is what a plain rotation left
there, and an increment of its own opcode is undone by the opcode behind it. -/
theorem undone_around_last_address :
    let m (b c : Byte) : Machine :=
      { new ((Memory.zero.write 0xFFFF b).write 0 c) with
        registers := (((Registers.zero.set .a 0x80).setPair .hl 0xFFFF).setPair .sp 0xFFFF).setPc
          0xFFFF }
    ((m 0x33 0x3B).after [.step, .step]).peek .spHigh = 0xFF ∧
      ((m 0x1F 0x17).after [.step, .step]).peek (.register .a) = 0x80 ∧
      Flag.carry.read (((m 0x07 0x0F).after [.step, .step]).peek (.register .f)) = true ∧
      Flag.carry.read (((m 0x0F 0x07).after [.step, .step]).peek (.register .f)) = false ∧
      ((m 0x34 0x35).after [.step, .step]).peek (.cell 0xFFFF) = 0x34 := by
  intro m
  have hpc (b c : Byte) : (m b c).registers.pc = 0xFFFF := Registers.pc_setPc _ _
  have hhl (b c : Byte) : (m b c).registers.hl = 0xFFFF := by simp [m]
  have hsp (b c : Byte) : (m b c).registers.sp = 0xFFFF := by simp [m]
  have ha (b c : Byte) : (m b c).registers.a = 0x80 := by simp [m]
  have hf (b c : Byte) : (m b c).registers.f = 0 := by simp [m]
  have hcells : ∀ k < 2, k = 0 ∨ k = 1 := by omega
  have hm (b c : Byte) : (m b c).memory.Holds (m b c).registers.pc [b, c] := by
    intro k hk
    rw [hpc]
    rcases hcells k hk with rfl | rfl <;> simp [m, new]
  have h (b c : Byte) := inverse_steps (m := m b c) rfl (by change 0 + 32 < UInt64.size; decide)
  obtain ⟨hwords, -⟩ := h 0x33 0x3B
  obtain ⟨-, hrotate, -⟩ := h 0x1F 0x17
  obtain ⟨-, -, hrlc, -⟩ := h 0x07 0x0F
  obtain ⟨-, -, -, hrrc, -⟩ := h 0x0F 0x07
  obtain ⟨-, -, -, -, hbytes⟩ := h 0x34 0x35
  have hfar : (m 0x34 0x35).registers.hl ≠ (m 0x34 0x35).registers.pc + 1 := by
    rw [hhl, hpc]
    decide
  obtain ⟨f, hcell, -⟩ := (hbytes .memory fun _ => hfar).1 (hm _ _)
  have hold (b c : Byte) {p : Place} (hp : p ∉ [Place.pcHigh, .pcLow]) :
      overwrite (m b c).peek (Pair.pc.bytes ((m b c).registers.pc + 2)) p = (m b c).peek p := by
    apply overwrite_of_forall_ne
    intro w hw he
    rcases List.mem_pair.mp hw with rfl | rfl <;> simp [← he, Pair.high, Pair.low] at hp
  refine ⟨?_, ?_, ?_, ?_, ?_⟩
  · rw [(hwords .sp (.inl (hm _ _))).peek_after_two, hold _ _ (by simp), Storage.peek, hsp]
    decide
  · rw [(hrotate (.inr (.inl (hm _ _)))).peek_after_two, hold _ _ (by simp)]
    exact ha _ _
  · rw [(hrlc (hm _ _)).peek_after_two, overwrite_concat_self, ha, hf]
    decide
  · rw [(hrrc (hm _ _)).peek_after_two, overwrite_concat_self, ha, hf]
    decide
  · rw [hcell.peek_after_two, overwrite_append_of_forall_ne _ _ (by simp), hold _ _ (by simp)]
    change (m 0x34 0x35).memory.read 0xFFFF = 0x34
    simp [m, new]

end Machine

end Micro8080
