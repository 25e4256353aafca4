import Micro8080.Numeral
import Micro8080.Word

/-!
# Memory

Memory has one byte for every address. A word lies at two successive addresses, low byte
first, and wraps from the last address to the first. An image is stored as a block that has to
end within the address space; it does not wrap. Writes from outside are data here, and two
summaries tell how many cells are in use and where two memories differ.
-/

namespace Micro8080

abbrev Memory.size : Nat := 65536

structure Memory where
  cells : Vector Byte Memory.size
deriving DecidableEq

namespace Memory

def zero : Memory := ⟨Vector.replicate size 0⟩

instance : Inhabited Memory := ⟨zero⟩

variable (m : Memory) (a x : Word)

def read : Byte := m.cells[(⟨a.toNat, a.toNat_lt⟩ : Fin size)]

def write (v : Byte) : Memory := ⟨m.cells.set a.toNat v a.toNat_lt⟩

def readWord : Word := Word.ofBytes (m.read (a + 1)) (m.read a)

def writeWord (v : Word) : Memory := (m.write a (Word.low v)).write (a + 1) (Word.high v)

/-- Stores bytes at successive addresses. -/
def fill (m : Memory) (a : Word) : List Byte → Memory
  | [] => m
  | v :: vs => (m.write a v).fill (a + 1) vs

/-- Stores an image at `origin`, or nothing at all if it runs past the last address. -/
def load? (origin : Word) (image : List Byte) : Option Memory :=
  if origin.toNat + image.length ≤ size then some (m.fill origin image) else none

def withImage? (origin : Word) (image : List Byte) : Option Memory := zero.load? origin image

/-- The `n` cells from number `start` on. The range has to end within the address space; the
empty range behind the last cell does. -/
def slice? (start n : Nat) : Option (List Byte) :=
  if start + n ≤ size then some (m.cells.extract start (start + n)).toList else none

@[ext] theorem ext {m n : Memory} (h : ∀ x, m.read x = n.read x) : m = n := by
  obtain ⟨cells⟩ := m
  obtain ⟨others⟩ := n
  congr 1
  apply Vector.ext
  intro i hi
  have hn : (UInt16.ofNat i).toNat = i := UInt16.toNat_ofNat_of_lt hi
  simpa only [read, Fin.getElem_fin, hn] using h (UInt16.ofNat i)

@[simp] theorem read_zero : zero.read x = 0 := by
  simp [read, zero]

@[simp] theorem read_write (v : Byte) : (m.write a v).read x = if x = a then v else m.read x := by
  simp only [read, write, Fin.getElem_fin, Vector.getElem_set]
  by_cases h : x = a
  · rw [if_pos h, if_pos (by rw [h])]
  · rw [if_neg h, if_neg (fun he => h (UInt16.toNat_inj.mp he.symm))]

theorem read_write_self (v : Byte) : (m.write a v).read a = v := by
  simp

theorem read_write_of_ne {a x : Word} (h : x ≠ a) (v : Byte) : (m.write a v).read x = m.read x := by
  simp [h]

theorem read_writeWord (v : Word) :
    (m.writeWord a v).read x =
      if x = a + 1 then Word.high v else if x = a then Word.low v else m.read x := by
  simp [writeWord]

@[simp] theorem readWord_writeWord (v : Word) : (m.writeWord a v).readWord a = v := by
  simp [readWord, read_writeWord]

theorem write_write (v w : Byte) : (m.write a v).write a w = m.write a w := by
  ext y
  simp only [read_write]
  split <;> rfl

theorem write_read : m.write a (m.read a) = m := by
  ext y
  rw [read_write]
  split
  · next h => rw [h]
  · rfl

theorem load?_eq_some_iff (origin : Word) (image : List Byte) (n : Memory) :
    m.load? origin image = some n ↔
      origin.toNat + image.length ≤ size ∧ n = m.fill origin image := by
  simp [load?, eq_comm]

theorem load?_eq_none_iff (origin : Word) (image : List Byte) :
    m.load? origin image = none ↔ size < origin.toNat + image.length := by
  simp [load?]

theorem slice?_eq_some_iff (start n : Nat) (bs : List Byte) :
    m.slice? start n = some bs ↔
      start + n ≤ size ∧ bs = (List.range n).map fun i => m.read (UInt16.ofNat (start + i)) := by
  by_cases h : start + n ≤ size
  · have hs : (m.cells.extract start (start + n)).toList =
        (List.range n).map fun i => m.read (UInt16.ofNat (start + i)) := by
      apply List.ext_getElem
      · simp only [Vector.length_toList, List.length_map, List.length_range]
        omega
      · intro i hi hj
        have hn : (UInt16.ofNat (start + i)).toNat = start + i := by
          apply UInt16.toNat_ofNat_of_lt
          simp only [List.length_map, List.length_range] at hj
          exact Nat.lt_of_lt_of_le (Nat.add_lt_add_left hj start) h
        simp only [Vector.getElem_toList, Vector.getElem_extract, List.getElem_map,
          List.getElem_range, read, Fin.getElem_fin, hn]
    rw [slice?, if_pos h, Option.some.injEq, hs, eq_comm]
    exact ⟨fun he => ⟨h, he⟩, fun he => he.2⟩
  · simp [slice?, h]

theorem read_fill (image : List Byte) (h : a.toNat + image.length ≤ size) :
    (m.fill a image).read x =
      if a.toNat ≤ x.toNat then (image[x.toNat - a.toNat]?).getD (m.read x) else m.read x := by
  induction image generalizing m a with
  | nil => simp [fill]
  | cons v vs ih =>
    have hl : a.toNat + vs.length + 1 ≤ 65536 := h
    rw [fill]
    by_cases hv : vs = []
    · subst hv
      rw [fill, read_write]
      by_cases hx : x = a
      · simp [hx]
      · have hne : x.toNat ≠ a.toNat := fun he => hx (UInt16.toNat_inj.mp he)
        rw [if_neg hx]
        split
        · rw [List.getElem?_eq_none (by simp; omega), Option.getD_none]
        · rfl
    · have hpos : 0 < vs.length := List.length_pos_iff.mpr hv
      have hs : (a + 1).toNat = a.toNat + 1 := by simp; omega
      rw [ih _ _ (by rw [hs, size]; omega), hs, read_write]
      by_cases hx : x = a
      · subst hx
        rw [if_neg (by omega), if_pos rfl, if_pos (Nat.le_refl _), Nat.sub_self]
        rfl
      · have hne : x.toNat ≠ a.toNat := fun he => hx (UInt16.toNat_inj.mp he)
        rw [if_neg hx]
        by_cases hle : a.toNat ≤ x.toNat
        · rw [if_pos hle, if_pos (by omega),
            show x.toNat - a.toNat = (x.toNat - (a.toNat + 1)) + 1 by omega,
            List.getElem?_cons_succ]
        · rw [if_neg hle, if_neg (by omega)]

section Writing

/-- One write from outside; an image that runs past the last address is refused as a whole. -/
inductive Write where
  | byte (a : Word) (v : Byte)
  | word (a : Word) (v : Word)
  | load (origin : Word) (image : List Byte)
deriving DecidableEq

def Write.perform? : Write → Memory → Option Memory
  | .byte a v, m => some (m.write a v)
  | .word a v, m => some (m.writeWord a v)
  | .load origin image, m => m.load? origin image

/-- Performs writes in order; `none` if one of them is refused. -/
def performAll? (ws : List Write) (m : Memory) : Option Memory :=
  ws.foldlM (fun n w => w.perform? n) m

@[simp] theorem performAll?_cons (w : Write) (ws : List Write) (m : Memory) :
    performAll? (w :: ws) m = (w.perform? m).bind (performAll? ws) := by
  cases h : w.perform? m <;> simp [performAll?, h]

end Writing

section Summary

def nonZero (m : Memory) : Nat := m.cells.countP (· ≠ 0)

/-- The size and the number of cells in use. -/
def describe (m : Memory) : String :=
  "Memory \x7b size: " ++ String.ofList (Numeral.digits size) ++ ", non_zero: " ++
    String.ofList (Numeral.digits m.nonZero) ++ " \x7d"

/-- The cells below address `n` that differ, with their new bytes, in front of `tail`. -/
def changesBelow (before after : Memory) : Nat → List (Word × Byte) → List (Word × Byte)
  | 0, tail => tail
  | n + 1, tail =>
    let a := UInt16.ofNat n
    let v := after.read a
    changesBelow before after n (if before.read a = v then tail else (a, v) :: tail)

/-- The cells that differ, with their new bytes, by ascending address. -/
def changes (before after : Memory) : List (Word × Byte) := changesBelow before after size []

theorem nonZero_pos {m : Memory} {a : Word} (h : m.read a ≠ 0) : 0 < m.nonZero := by
  refine Nat.pos_of_ne_zero fun h0 => h ?_
  simpa using Vector.countP_eq_zero.mp h0 (m.read a) (Vector.getElem_mem a.toNat_lt)

theorem nonZero_zero : zero.nonZero = 0 := by
  simp [nonZero, zero, Vector.countP_replicate]

theorem mem_changesBelow {before after : Memory} {n : Nat} {tail : List (Word × Byte)}
    (hn : n ≤ size) {p : Word × Byte} :
    p ∈ changesBelow before after n tail ↔
      (p.1.toNat < n ∧ after.read p.1 = p.2 ∧ before.read p.1 ≠ p.2) ∨ p ∈ tail := by
  induction n generalizing tail with
  | zero => simp [changesBelow]
  | succ n ih =>
    have ha : (UInt16.ofNat n).toNat = n := UInt16.toNat_ofNat_of_lt hn
    have hlt : p.1.toNat < n + 1 ↔ p.1.toNat < n ∨ p.1 = UInt16.ofNat n := by
      rw [← UInt16.toNat_inj, ha]
      omega
    rw [changesBelow, ih (Nat.le_of_succ_le hn), hlt]
    obtain ⟨a, v⟩ := p
    dsimp only
    split
    · next h => grind
    · next h => grind

theorem mem_changes {before after : Memory} {a : Word} {v : Byte} :
    (a, v) ∈ changes before after ↔ after.read a = v ∧ before.read a ≠ v := by
  have := a.toNat_lt
  simp [changes, mem_changesBelow, a.toNat_lt]

end Summary

end Memory

end Micro8080
