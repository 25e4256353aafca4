import Mathlib.Data.List.Basic
import Micro8080.Proofs.CanonicalNumeral
import Micro8080.Proofs.RegisterBank

/-!
# The dump as text

The dump of a register file is enough to restore it: each field is read as a write of what stands
in it, and these writes together leave nothing of the file that they are performed on. So the dump
shows all that the file stores, down to single bits, and a write that changes a bit changes it.
-/

namespace Micro8080.Registers

section Reading

/-- Reads a field with a byte as a write of register `x`. -/
def byteOf? (label : List Char) (x : Register) (cs : List Char) : Option Write :=
  (((label ++ ['=']).isPrefixOf? cs).bind Numeral.byte?).map (.register x)

/-- Reads a field with a word as a write of pair `p`. -/
def wordOf? (label : List Char) (p : Pair) (cs : List Char) : Option Write :=
  (((label ++ ['=']).isPrefixOf? cs).bind Numeral.word?).map (.pair p)

/-- Reads each field with its own reader. -/
def readAll? : List (List Char → Option Write) → List (List Char) → Option (List Write)
  | [], [] => some []
  | f :: fs, cs :: css => (f cs).bind fun w => (readAll? fs css).map (w :: ·)
  | _, _ => none

/-- Reads a dump as writes of registers and pairs. -/
def readDump? (text : String) : Option (List Write) :=
  readAll?
    [byteOf? ['A'] .a, byteOf? ['F'] .f, wordOf? ['B', 'C'] .bc, wordOf? ['D', 'E'] .de,
      wordOf? ['H', 'L'] .hl, wordOf? ['S', 'P'] .sp, wordOf? ['P', 'C'] .pc,
      wordOf? ['W', 'Z'] .wz]
    (text.toList.splitOn ' ')

/-- What the fields of the dump say, as writes. -/
def writes (r : Registers) : List Write :=
  [.register .a r.a, .register .f r.f, .pair .bc r.bc, .pair .de r.de, .pair .hl r.hl,
    .pair .sp r.sp, .pair .pc r.pc, .pair .wz r.wz]

theorem isPrefixOf?_field (label ds : List Char) :
    (label ++ ['=']).isPrefixOf? (label ++ '=' :: ds) = some ds :=
  List.isPrefixOf?_eq_some_iff_append_eq.mpr (List.append_assoc label ['='] ds)

theorem byteOf?_byteField (label : List Char) (x : Register) (v : Byte) :
    byteOf? label x (byteField label v) = some (.register x v) := by
  rw [byteOf?, byteField, isPrefixOf?_field, Option.bind_some,
    Numeral.byte?_eq_some_iff.mpr rfl, Option.map_some]

theorem wordOf?_wordField (label : List Char) (p : Pair) (v : Word) :
    wordOf? label p (wordField label v) = some (.pair p v) := by
  rw [wordOf?, wordField, isPrefixOf?_field, Option.bind_some,
    Numeral.word?_eq_some_iff.mpr rfl, Option.map_some]

/-- No digit is the blank that divides the fields. -/
theorem blank_not_mem_padded (w n : Nat) : ' ' ∉ Numeral.padded 16 w n := by
  have hall : ∀ k < 16, ' ' ≠ Numeral.digit k := by decide
  intro h
  obtain ⟨k, hk, he⟩ := Numeral.mem_padded (by decide) h
  exact hall k hk he

theorem blank_not_mem_fields (r : Registers) : ∀ cs ∈ r.fields, ' ' ∉ cs := by
  simp [fields, byteField, wordField, blank_not_mem_padded]

theorem readDump?_dump (r : Registers) : readDump? r.dump = some r.writes := by
  have hs : r.dump.toList.splitOn ' ' = r.fields := by
    rw [dump, String.toList_ofList]
    exact List.splitOn_intercalate ' ' r.blank_not_mem_fields (List.cons_ne_nil _ _)
  rw [readDump?, hs]
  simp only [fields, readAll?, byteOf?_byteField, wordOf?_wordField, Option.bind_some,
    Option.map_some, writes]

/-- The named registers and pairs reach every byte of the file that is written to. -/
theorem performAll_writes (r s : Registers) : performAll r.writes s = r := by
  apply ext_named <;> simp [writes, Write.perform]

end Reading

theorem dump_inj {r s : Registers} : r.dump = s.dump ↔ r = s := by
  constructor
  · intro h
    have hr := r.readDump?_dump
    rw [h, s.readDump?_dump, Option.some.injEq] at hr
    rw [← r.performAll_writes .zero, ← hr, performAll_writes]
  · rintro rfl
    rfl

theorem eq_iff_lanes {r s : Registers} : r = s ↔ ∀ l, r.bank.lane l = s.bank.lane l := by
  rw [← bank_inj]
  exact ⟨fun h l => congrArg (Bank.lane · l) h, Bank.ext_lane⟩

/-- A dump is read back as writes that restore the registers, whatever was in them. Register files
with one dump are equal, and a write changes the dump if it changes any bit. -/
theorem dump_is_complete (r : Registers) :
    (∃ ws, readDump? r.dump = some ws ∧
      (∀ w ∈ ws, (∃ x v, w = .register x v) ∨ ∃ p v, w = .pair p v) ∧
      ∀ s, performAll ws s = r) ∧
    (∀ s : Registers, r.dump = s.dump ↔ r = s) ∧
    ∀ w : Write, (w.perform r).dump ≠ r.dump ↔
      ∃ l, (w.perform r).bank.lane l ≠ r.bank.lane l := by
  refine ⟨⟨r.writes, r.readDump?_dump, ?_, r.performAll_writes⟩, fun s => dump_inj, ?_⟩
  · simp [writes]
  · intro w
    rw [ne_eq, dump_inj, eq_iff_lanes, not_forall]

/-- An F with none of its flags set, and what becomes of its dump when the carry is set. -/
theorem dump_shows_carry :
    let r := (zero.set .f 0x2A).setPair .wz 0xBEEF
    r.dump = "A=00 F=2A BC=0000 DE=0000 HL=0000 SP=0000 PC=0000 WZ=BEEF" ∧
      (∃ ws, readDump? r.dump = some ws ∧ performAll ws (zero.setPair .bc 1) = r) ∧
      (r.setFlag .carry true).dump ≠ r.dump := by
  intro r
  obtain ⟨⟨ws, hws, -, hrestores⟩, -, hchange⟩ := dump_is_complete r
  refine ⟨by decide, ⟨ws, hws, hrestores _⟩, ?_⟩
  exact (hchange (.flag .carry true)).mpr ⟨.register .f 0, by decide⟩

end Micro8080.Registers
