import Micro8080.Proofs.Listing

/-!
# Code in memory

Code is a list of instructions with their operand bytes. Memory holds it from an address on if
the bytes of all of them lie there in successive cells; the cell behind the last address is the
first one. A sweep over such cells finds the instructions again.
-/

namespace Micro8080

namespace Memory

/-- The bytes `bs` lie in successive cells from `a` on. -/
def Holds (memory : Memory) (a : Word) (bs : List Byte) : Prop :=
  ∀ k (hk : k < bs.length), memory.read (a + UInt16.ofNat k) = bs[k]

variable {memory : Memory} {a : Word} {bs cs : List Byte}

theorem Holds.head {b : Byte} (h : memory.Holds a (b :: bs)) : memory.read a = b := by
  have h0 := h 0 (Nat.zero_lt_succ _)
  rwa [show UInt16.ofNat 0 = 0 from rfl, UInt16.add_zero] at h0

theorem Holds.drop (h : memory.Holds a bs) (n : Nat) :
    memory.Holds (a + UInt16.ofNat n) (bs.drop n) := by
  intro k hk
  have hb := h (n + k) (by rw [List.length_drop] at hk; omega)
  rw [UInt16.ofNat_add, ← UInt16.add_assoc] at hb
  rw [hb, List.getElem_drop]

theorem holds_append :
    memory.Holds a (bs ++ cs) ↔
      memory.Holds a bs ∧ memory.Holds (a + UInt16.ofNat bs.length) cs := by
  constructor
  · intro h
    refine ⟨fun k hk => ?_, ?_⟩
    · rw [h k (by rw [List.length_append]; omega), List.getElem_append_left hk]
    · have hdrop := h.drop bs.length
      rwa [List.drop_left] at hdrop
  · rintro ⟨hb, hc⟩ k hk
    rw [List.getElem_append]
    split
    · next hlt => exact hb k hlt
    · next hge =>
      rw [List.length_append] at hk
      have hk' := hc (k - bs.length) (by omega)
      rwa [UInt16.add_assoc, ← UInt16.ofNat_add, Nat.add_sub_cancel' (by omega)] at hk'

/-- An image lies where it was stored. -/
theorem holds_fill (h : a.toNat + bs.length ≤ size) : (memory.fill a bs).Holds a bs := by
  intro k hk
  have hlt : a.toNat + k < 65536 := by
    rw [size] at h
    omega
  have hk16 : (UInt16.ofNat k).toNat = k :=
    UInt16.toNat_ofNat_of_lt' (show k < 65536 by omega)
  have hs : (a + UInt16.ofNat k).toNat = a.toNat + k := by
    rw [UInt16.toNat_add, hk16, Nat.mod_eq_of_lt hlt]
  rw [read_fill _ _ _ _ h, hs, if_pos (Nat.le_add_right _ _), Nat.add_sub_cancel_left,
    List.getElem?_eq_getElem hk]
  rfl

end Memory

/-- An instruction with its operand bytes. -/
structure Encoding where
  instruction : Instruction
  operand : List Byte
  length_operand : operand.length = instruction.immediate.size

namespace Encoding

variable (e : Encoding) (es : List Encoding)

def bytes : List Byte := e.instruction.opcode :: e.operand

def code : List Byte := es.flatMap bytes

def cycles : Nat := (es.map (·.instruction.cycles)).sum

@[simp] theorem length_bytes : e.bytes.length = e.instruction.length := by
  rw [bytes, List.length_cons, e.length_operand, Nat.add_comm]
  rfl

@[simp] theorem code_cons : code (e :: es) = e.bytes ++ code es := List.flatMap_cons

theorem code_append (fs : List Encoding) : code (es ++ fs) = code es ++ code fs :=
  List.flatMap_append

theorem cycles_cons : cycles (e :: es) = e.instruction.cycles + cycles es := List.sum_cons

theorem cycles_append (fs : List Encoding) : cycles (es ++ fs) = cycles es + cycles fs := by
  simp [cycles]

variable {e es} {memory : Memory} {a : Word}

theorem decode?_of_holds (h : memory.Holds a e.bytes) :
    Instruction.decode? (memory.read a) = some e.instruction := by
  rw [h.head]
  exact e.instruction.decode?_opcode

/-- A sweep over code finds the instructions that it was made from. -/
theorem listing_of_holds (h : memory.Holds a (code es)) :
    ∃ fs : List Fetch,
      memory.listing? es.length a = some ⟨fs, a + UInt16.ofNat (code es).length⟩ ∧
        fs.map Fetch.instruction = es.map Encoding.instruction := by
  induction es generalizing a with
  | nil =>
    refine ⟨[], ?_, rfl⟩
    rw [show a + UInt16.ofNat (code []).length = a from UInt16.add_zero a]
    rfl
  | cons e es ih =>
    rw [code_cons, Memory.holds_append, length_bytes] at h
    obtain ⟨fs, hl, hf⟩ := ih h.2
    refine ⟨⟨a, e.instruction⟩ :: fs, ?_, ?_⟩
    · refine Memory.listing?_succ_eq_some_iff.mpr ⟨_, _, decode?_of_holds h.1, hl, ?_⟩
      rw [code_cons, List.length_append, length_bytes, UInt16.ofNat_add, UInt16.add_assoc]
    · rw [List.map_cons, List.map_cons, hf]

end Encoding

end Micro8080
