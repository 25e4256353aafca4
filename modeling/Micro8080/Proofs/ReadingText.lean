import Micro8080.Proofs.CanonicalNumeral

/-!
# Readings as text

The text of a reading gives the reading back, the kind as well as the content. Bits are words of
letters, bytes and words of memory have a mark and differ in the number of their digits, and no
count begins with a mark. The reader takes the texts of readings and no others.
-/

namespace Micro8080.Reading

/-- How each kind is written. -/
inductive Written : Reading → List Char → Prop
  | yes : Written (.bit true) ['t', 'r', 'u', 'e']
  | no : Written (.bit false) ['f', 'a', 'l', 's', 'e']
  | byte {b : Byte} {ds : List Char} (h : Numeral.Capitals 2 ds b.toNat) :
      Written (.byte b) ('0' :: 'x' :: ds)
  | word {w : Word} {ds : List Char} (h : Numeral.Capitals 4 ds w.toNat) :
      Written (.word w) ('0' :: 'x' :: ds)
  | count (n : UInt64) : Written (.count n) (Nat.toDigits 10 n.toNat)

/-- Reads what stands behind a mark: two hexadecimal digits are a byte and four are a word. -/
def marked? (ds : List Char) : Option Reading :=
  ((Numeral.byte? ds).map .byte).or ((Numeral.word? ds).map .word)

/-- A number without a mark is a count, if it has no more than 64 bits. -/
def count? (ds : List Char) : Option Reading :=
  ((Numeral.decimal? ds).filter (· < UInt64.size)).map fun n => .count (UInt64.ofNat n)

def parse? : List Char → Option Reading
  | ['t', 'r', 'u', 'e'] => some (.bit true)
  | ['f', 'a', 'l', 's', 'e'] => some (.bit false)
  | '0' :: 'x' :: ds => marked? ds
  | ds => count? ds

theorem marked?_eq_some_iff {ds : List Char} {r : Reading} :
    marked? ds = some r ↔
      (∃ b : Byte, r = .byte b ∧ ds = Numeral.padded 16 2 b.toNat) ∨
        ∃ w : Word, r = .word w ∧ ds = Numeral.padded 16 4 w.toNat := by
  constructor
  · intro h
    rw [marked?, Option.or_eq_some_iff] at h
    rcases h with h | ⟨-, h⟩
    · obtain ⟨b, hb, rfl⟩ := Option.map_eq_some_iff.mp h
      exact .inl ⟨b, rfl, Numeral.byte?_eq_some_iff.mp hb⟩
    · obtain ⟨w, hw, rfl⟩ := Option.map_eq_some_iff.mp h
      exact .inr ⟨w, rfl, Numeral.word?_eq_some_iff.mp hw⟩
  · rintro (⟨b, rfl, rfl⟩ | ⟨w, rfl, rfl⟩)
    · rw [marked?, Numeral.byte?_eq_some_iff.mpr rfl]
      rfl
    · have hlong : Numeral.byte? (Numeral.padded 16 4 w.toNat) = none := by
        simp [Numeral.byte?, Numeral.fixed?]
      rw [marked?, hlong, Numeral.word?_eq_some_iff.mpr rfl]
      rfl

theorem count?_eq_some_iff {ds : List Char} {r : Reading} :
    count? ds = some r ↔ ∃ n : UInt64, r = .count n ∧ ds = Numeral.digits n.toNat := by
  rw [count?, Option.map_eq_some_iff]
  constructor
  · rintro ⟨n, hn, rfl⟩
    rw [Option.filter_eq_some_iff, decide_eq_true_iff, Numeral.decimal?_eq_some_iff] at hn
    obtain ⟨rfl, hlt⟩ := hn
    exact ⟨_, rfl, by rw [UInt64.toNat_ofNat_of_lt' hlt]⟩
  · rintro ⟨n, rfl, rfl⟩
    refine ⟨n.toNat, ?_, by rw [UInt64.ofNat_toNat]⟩
    rw [Numeral.decimal?_eq_some_iff.mpr rfl, Option.filter_some, decide_eq_true n.toNat_lt,
      if_pos rfl]

theorem parse?_eq_some_iff {cs : List Char} {r : Reading} :
    parse? cs = some r ↔ cs = r.spell := by
  constructor
  · intro h
    unfold parse? at h
    split at h
    · cases h
      rfl
    · cases h
      rfl
    · rcases marked?_eq_some_iff.mp h with ⟨b, rfl, rfl⟩ | ⟨w, rfl, rfl⟩ <;> rfl
    · obtain ⟨n, rfl, rfl⟩ := count?_eq_some_iff.mp h
      rfl
  · rintro rfl
    cases r with
    | bit b => cases b <;> rfl
    | byte b => exact marked?_eq_some_iff.mpr (.inl ⟨b, rfl, rfl⟩)
    | word w => exact marked?_eq_some_iff.mpr (.inr ⟨w, rfl, rfl⟩)
    | count n =>
      have hn := count?_eq_some_iff.mpr ⟨n, rfl, rfl⟩
      change parse? (Numeral.digits n.toNat) = some (.count n)
      unfold parse?
      split
      · next h =>
        rw [h] at hn
        cases hn
      · next h =>
        rw [h] at hn
        cases hn
      · next ds h => exact absurd h (Numeral.digits_ne_zero_cons n.toNat 'x' ds)
      · exact hn

theorem written_iff {r : Reading} {cs : List Char} : Written r cs ↔ cs = r.spell := by
  constructor
  · intro h
    cases h with
    | yes => rfl
    | no => rfl
    | byte h => rw [((Numeral.capitals_iff (by decide)).mp h).2, spell]
    | word h => rw [((Numeral.capitals_iff (by decide)).mp h).2, spell]
    | count n => rfl
  · rintro rfl
    cases r with
    | bit b => cases b <;> constructor
    | byte b => exact .byte ((Numeral.capitals_iff (by decide)).mpr ⟨b.toNat_lt, rfl⟩)
    | word w => exact .word ((Numeral.capitals_iff (by decide)).mpr ⟨w.toNat_lt, rfl⟩)
    | count n => exact .count n

theorem toList_eq_spell_iff {text : String} {r : Reading} :
    text.toList = r.spell ↔ text = r.display := by
  rw [← String.toList_inj, display, String.toList_ofList]

/-- The text of a reading tells its kind and its content: there is a reader that finds both, each
kind is written in its own way, and no two readings have one text. -/
theorem text_of_reading (r s : Reading) :
    (r.display = s.display ↔ r = s) ∧
    (∀ text : String, parse? text.toList = some r ↔ text = r.display) ∧
    ∀ text : String, Written r text.toList ↔ text = r.display := by
  have hparse {t : Reading} (text : String) : parse? text.toList = some t ↔ text = t.display :=
    parse?_eq_some_iff.trans toList_eq_spell_iff
  refine ⟨⟨fun h => ?_, fun h => congrArg display h⟩, hparse,
    fun text => written_iff.trans toList_eq_spell_iff⟩
  have hs := (hparse s.display).mpr rfl
  rw [(hparse s.display).mpr h.symm] at hs
  exact Option.some.inj hs

end Micro8080.Reading
