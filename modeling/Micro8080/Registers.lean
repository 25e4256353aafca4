import Micro8080.Flag
import Micro8080.Numeral
import Micro8080.Word

/-!
# The register file

All registers are in one buffer of fourteen bytes. A register is the byte at its index, and a
pair is the byte at its index and the one behind it, high byte first. Names of registers and of
pairs overlap, so the laws here tell for each write which of the names still read the same. `w`
and `z` are the latches that keep the operand bytes of an instruction until it executes.
-/

namespace Micro8080

inductive Register where
  | b
  | c
  | d
  | e
  | h
  | l
  | a
  | f
  | w
  | z
deriving DecidableEq

def Register.index : Register → Fin 14
  | .b => 0
  | .c => 1
  | .d => 2
  | .e => 3
  | .h => 4
  | .l => 5
  | .a => 6
  | .f => 7
  | .w => 12
  | .z => 13

inductive Pair where
  | bc
  | de
  | hl
  | sp
  | pc
  | wz
deriving DecidableEq

namespace Pair

/-- The index of the high byte. -/
def index : Pair → Fin 13
  | .bc => 0
  | .de => 2
  | .hl => 4
  | .sp => 8
  | .pc => 10
  | .wz => 12

variable (p : Pair)

def highIndex : Fin 14 := p.index.castSucc

def lowIndex : Fin 14 := p.index.succ

/-- The registers that hold the high and the low byte; the two pointers have none. -/
def halves? : Pair → Option (Register × Register)
  | .bc => some (.b, .c)
  | .de => some (.d, .e)
  | .hl => some (.h, .l)
  | .wz => some (.w, .z)
  | .sp | .pc => none

/-- The register is a half of the pair. -/
def Holds (x : Register) : Prop := x.index = p.highIndex ∨ x.index = p.lowIndex

instance : DecidableRel Holds :=
  fun p x => inferInstanceAs (Decidable (x.index = p.highIndex ∨ x.index = p.lowIndex))

theorem index_halves {p : Pair} {hi lo : Register} (hp : p.halves? = some (hi, lo)) :
    hi.index = p.highIndex ∧ lo.index = p.lowIndex := by
  cases p <;> cases hp <;> decide

theorem not_holds_of_pointer {p : Pair} (hp : p.halves? = none) (x : Register) : ¬p.Holds x := by
  cases p <;> cases hp <;> cases x <;> decide

theorem highIndex_inj {p q : Pair} : p.highIndex = q.highIndex ↔ p = q := by
  cases p <;> cases q <;> decide

theorem lowIndex_inj {p q : Pair} : p.lowIndex = q.lowIndex ↔ p = q := by
  cases p <;> cases q <;> decide

theorem highIndex_ne_lowIndex (p q : Pair) : p.highIndex ≠ q.lowIndex := by
  cases p <;> cases q <;> decide

end Pair

theorem Register.index_inj {x y : Register} : x.index = y.index ↔ x = y := by
  cases x <;> cases y <;> decide

structure Registers where
  data : Vector Byte 14
deriving DecidableEq

namespace Registers

def zero : Registers := ⟨Vector.replicate 14 0⟩

instance : Inhabited Registers := ⟨zero⟩

variable (r : Registers)

section Buffer

def cell (i : Fin 14) : Byte := r.data[i]

def setCell (i : Fin 14) (v : Byte) : Registers := ⟨r.data.set i v⟩

@[simp] theorem cell_setCell (i j : Fin 14) (v : Byte) :
    (r.setCell i v).cell j = if j = i then v else r.cell j := by
  simp [cell, setCell, Vector.getElem_set, Fin.ext_iff, eq_comm]

theorem ext_cell {r s : Registers} (h : ∀ i, r.cell i = s.cell i) : r = s := by
  obtain ⟨data⟩ := r
  obtain ⟨others⟩ := s
  exact congrArg mk (Vector.ext fun i hi => h ⟨i, hi⟩)

end Buffer

def get (x : Register) : Byte := r.cell x.index

def set (x : Register) (v : Byte) : Registers := r.setCell x.index v

def pair (p : Pair) : Word := Word.ofBytes (r.cell p.highIndex) (r.cell p.lowIndex)

def setPair (p : Pair) (v : Word) : Registers :=
  (r.setCell p.highIndex (Word.high v)).setCell p.lowIndex (Word.low v)

abbrev a : Byte := r.get .a

abbrev f : Byte := r.get .f

abbrev bc : Word := r.pair .bc

abbrev de : Word := r.pair .de

abbrev hl : Word := r.pair .hl

abbrev sp : Word := r.pair .sp

abbrev pc : Word := r.pair .pc

abbrev wz : Word := r.pair .wz

abbrev setPc (v : Word) : Registers := r.setPair .pc v

def flag (x : Flag) : Bool := x.read r.f

def setFlag (x : Flag) (on : Bool) : Registers := r.set .f (x.write r.f on)

section Reading

variable (x y : Register) (p q : Pair) (g : Flag) (v : Byte) (w : Word) (on : Bool)

@[simp] theorem get_set : (r.set x v).get y = if y = x then v else r.get y := by
  simp only [get, set, cell_setCell, Register.index_inj]

@[simp] theorem get_zero : zero.get x = 0 := by
  simp [get, cell, zero]

@[simp] theorem pair_zero : zero.pair p = 0 := by
  simp [pair, cell, zero, Word.ofBytes]

theorem set_comm {x y : Register} (h : x ≠ y) (u : Byte) :
    (r.set x v).set y u = (r.set y u).set x v := by
  refine ext_cell fun i => ?_
  simp only [set, cell_setCell]
  by_cases hx : i = x.index
  · simp [hx, Register.index_inj, h]
  · simp [hx]

@[simp] theorem pair_setPair : (r.setPair p w).pair q = if q = p then w else r.pair q := by
  simp only [pair, setPair, cell_setCell, Pair.highIndex_inj, Pair.lowIndex_inj,
    if_neg (q.highIndex_ne_lowIndex p), if_neg (p.highIndex_ne_lowIndex q).symm]
  split
  · exact Word.ofBytes_high_low w
  · rfl

@[simp] theorem setPair_pair : r.setPair p (r.pair p) = r := by
  refine ext_cell fun i => ?_
  simp only [setPair, pair, cell_setCell, Word.high_ofBytes, Word.low_ofBytes]
  split
  · next h => rw [h]
  · split
    · next h => rw [h]
    · rfl

@[simp] theorem setPair_setPair (u : Word) : (r.setPair p w).setPair p u = r.setPair p u := by
  refine ext_cell fun i => ?_
  simp only [setPair, cell_setCell]
  repeat' split
  all_goals rfl

theorem get_setPair_of_not_holds {p : Pair} {x : Register} (h : ¬p.Holds x) :
    (r.setPair p w).get x = r.get x := by
  obtain ⟨hhi, hlo⟩ := not_or.mp h
  simp only [get, setPair, cell_setCell, if_neg hhi, if_neg hlo]

theorem pair_set_of_not_holds {p : Pair} {x : Register} (h : ¬p.Holds x) :
    (r.set x v).pair p = r.pair p := by
  obtain ⟨hhi, hlo⟩ := not_or.mp h
  simp only [pair, set, cell_setCell, if_neg (Ne.symm hhi), if_neg (Ne.symm hlo)]

theorem set_setPair {p : Pair} {x : Register} (h : ¬p.Holds x) :
    (r.setPair p w).set x v = (r.set x v).setPair p w := by
  obtain ⟨hhi, hlo⟩ := not_or.mp h
  refine ext_cell fun i => ?_
  simp only [set, setPair, cell_setCell]
  grind

theorem setPair_comm {p q : Pair} (h : p ≠ q) (u : Word) :
    (r.setPair p u).setPair q w = (r.setPair q w).setPair p u := by
  have hhigh : p.highIndex ≠ q.highIndex := mt Pair.highIndex_inj.mp h
  have hlow : p.lowIndex ≠ q.lowIndex := mt Pair.lowIndex_inj.mp h
  have hpq := p.highIndex_ne_lowIndex q
  have hqp := q.highIndex_ne_lowIndex p
  refine ext_cell fun i => ?_
  simp only [setPair, cell_setCell]
  grind

theorem pc_setPc : (r.setPc w).pc = w := by
  simp

theorem setPc_pc : r.setPc r.pc = r := by
  simp

@[simp] theorem get_setPc : (r.setPc w).get x = r.get x :=
  r.get_setPair_of_not_holds w (Pair.not_holds_of_pointer rfl x)

@[simp] theorem get_setSp : (r.setPair .sp w).get x = r.get x :=
  r.get_setPair_of_not_holds w (Pair.not_holds_of_pointer rfl x)

@[simp] theorem pc_set : (r.set x v).pc = r.pc :=
  r.pair_set_of_not_holds v (Pair.not_holds_of_pointer rfl x)

@[simp] theorem sp_set : (r.set x v).sp = r.sp :=
  r.pair_set_of_not_holds v (Pair.not_holds_of_pointer rfl x)

@[simp] theorem f_setPair : (r.setPair p w).f = r.f :=
  r.get_setPair_of_not_holds w (by cases p <;> decide)

@[simp] theorem a_setPair : (r.setPair p w).a = r.a :=
  r.get_setPair_of_not_holds w (by cases p <;> decide)

@[simp] theorem pair_set_f : (r.set .f v).pair p = r.pair p :=
  r.pair_set_of_not_holds v (by cases p <;> decide)

@[simp] theorem flag_setFlag (g k : Flag) :
    (r.setFlag g on).flag k = if k = g then on else r.flag k := by
  simp [flag, setFlag]

@[simp] theorem pair_setFlag : (r.setFlag g on).pair p = r.pair p := r.pair_set_f p _

theorem f_setFlag : (r.setFlag g on).f = g.write r.f on := by
  simp [setFlag]

theorem bit_setFlag (k : Nat) :
    Byte.bit (r.setFlag g on).f k = if k = g.position then on else Byte.bit r.f k := by
  rw [f_setFlag, Flag.bit_write]

end Reading

section Halves

variable {p : Pair} {hi lo : Register} (hp : p.halves? = some (hi, lo))

include hp

theorem pair_eq_ofBytes : r.pair p = Word.ofBytes (r.get hi) (r.get lo) := by
  obtain ⟨hhi, hlo⟩ := Pair.index_halves hp
  simp only [pair, get, hhi, hlo]

theorem pair_eq_iff (s : Registers) :
    r.pair p = s.pair p ↔ r.get hi = s.get hi ∧ r.get lo = s.get lo := by
  rw [r.pair_eq_ofBytes hp, s.pair_eq_ofBytes hp, Word.eq_iff_high_low]
  simp only [Word.high_ofBytes, Word.low_ofBytes]

theorem setPair_eq_set (v : Word) :
    r.setPair p v = (r.set hi (Word.high v)).set lo (Word.low v) := by
  obtain ⟨hhi, hlo⟩ := Pair.index_halves hp
  simp only [setPair, set, hhi, hlo]

end Halves

/-- Every byte of the buffer is a register or belongs to a pointer. -/
theorem ext_get {r s : Registers} (hg : ∀ x, r.get x = s.get x) (hsp : r.sp = s.sp)
    (hpc : r.pc = s.pc) : r = s := by
  have halves {p : Pair} (h : r.pair p = s.pair p) :
      r.cell p.highIndex = s.cell p.highIndex ∧ r.cell p.lowIndex = s.cell p.lowIndex := by
    simpa [pair] using (Word.eq_iff_high_low _ _).mp h
  refine ext_cell fun i => ?_
  match i with
  | 0 => exact hg .b
  | 1 => exact hg .c
  | 2 => exact hg .d
  | 3 => exact hg .e
  | 4 => exact hg .h
  | 5 => exact hg .l
  | 6 => exact hg .a
  | 7 => exact hg .f
  | 8 => exact (halves hsp).1
  | 9 => exact (halves hsp).2
  | 10 => exact (halves hpc).1
  | 11 => exact (halves hpc).2
  | 12 => exact hg .w
  | 13 => exact hg .z

/-- The named accessors reach every byte of the buffer. -/
theorem ext_named {r s : Registers} (ha : r.a = s.a) (hf : r.f = s.f) (hbc : r.bc = s.bc)
    (hde : r.de = s.de) (hhl : r.hl = s.hl) (hsp : r.sp = s.sp) (hpc : r.pc = s.pc)
    (hwz : r.wz = s.wz) : r = s := by
  obtain ⟨hb, hc⟩ := (r.pair_eq_iff rfl s).mp hbc
  obtain ⟨hd, he⟩ := (r.pair_eq_iff rfl s).mp hde
  obtain ⟨hh, hl⟩ := (r.pair_eq_iff rfl s).mp hhl
  obtain ⟨hw, hz⟩ := (r.pair_eq_iff rfl s).mp hwz
  exact ext_get (fun x => by cases x <;> assumption) hsp hpc

section Writing

/-- One write from outside, through any of the views of the register file. -/
inductive Write where
  | register (x : Register) (v : Byte)
  | pair (p : Pair) (v : Word)
  | flag (x : Flag) (on : Bool)
  | pc (v : Word)
deriving DecidableEq

def Write.perform : Write → Registers → Registers
  | .register x v, r => r.set x v
  | .pair p v, r => r.setPair p v
  | .flag x on, r => r.setFlag x on
  | .pc v, r => r.setPc v

def performAll (ws : List Write) (r : Registers) : Registers := ws.foldl (fun s w => w.perform s) r

@[simp] theorem performAll_nil (r : Registers) : performAll [] r = r := rfl

@[simp] theorem performAll_cons (w : Write) (ws : List Write) (r : Registers) :
    performAll (w :: ws) r = performAll ws (w.perform r) := rfl

end Writing

section Dump

def byteField (label : List Char) (v : Byte) : List Char :=
  label ++ '=' :: Numeral.padded 16 2 v.toNat

def wordField (label : List Char) (v : Word) : List Char :=
  label ++ '=' :: Numeral.padded 16 4 v.toNat

def fields : List (List Char) :=
  [byteField ['A'] r.a, byteField ['F'] r.f, wordField ['B', 'C'] r.bc, wordField ['D', 'E'] r.de,
    wordField ['H', 'L'] r.hl, wordField ['S', 'P'] r.sp, wordField ['P', 'C'] r.pc,
    wordField ['W', 'Z'] r.wz]

/-- The register file in one line: labelled fields in hexadecimal, with blanks between them. -/
def dump : String := String.ofList ([' '].intercalate r.fields)

end Dump

end Registers

end Micro8080
