import Micro8080.Proofs.PathLanguage

/-!
# Numerals of one spelling

A reader that takes a numeral in one spelling only: exactly so many hexadecimal digits in capitals,
or decimal digits without leading zeros. What it takes is what is written for the number that it
finds, and nothing else is written for it.
-/

namespace Micro8080.Numeral

variable {base c d n v w : Nat} {cs ds : List Char}

/-- The text `cs` is the number `n` in `w` hexadecimal digits, in capitals. -/
structure Capitals (w : Nat) (cs : List Char) (n : Nat) : Prop where
  length : cs.length = w
  capital : ∀ c ∈ cs, c.isLower = false
  spells : Spells cs n

/-- Reads `w` hexadecimal digits in capitals, no more and no fewer. -/
def fixed? (w : Nat) (cs : List Char) : Option Nat :=
  if cs.length = w ∧ cs.all (fun c => !c.isLower) = true then value? 16 cs else none

/-- A byte in two digits. -/
def byte? (cs : List Char) : Option Byte := (fixed? 2 cs).map UInt8.ofNat

/-- A word in four digits. -/
def word? (cs : List Char) : Option Word := (fixed? 4 cs).map UInt16.ofNat

/-- Reads decimal digits without leading zeros. -/
def decimal? : List Char → Option Nat
  | '0' :: _ :: _ => none
  | cs => value? 10 cs

theorem digitValue?_eq_some_iff {c : Char} (hb : base ≤ 16) :
    digitValue? base c = some d ↔ d < base ∧ digitValue? 16 c = some d := by
  simp only [digitValue?, Option.filter_eq_some_iff, decide_eq_true_iff]
  constructor
  · rintro ⟨h, hd⟩
    exact ⟨hd, h, Nat.lt_of_lt_of_le hd hb⟩
  · rintro ⟨hd, h, -⟩
    exact ⟨h, hd⟩

theorem eq_digit_of_digitValue? {c : Char} (h : digitValue? 16 c = some d)
    (hc : d < 10 ∨ c.isLower = false) : c = digit d := by
  have hlower : ∀ k < 16, k < 10 ∨ (Nat.digitChar k).isLower = false →
      Nat.digitChar k = digit k := by decide
  have hupper : ∀ k < 16, (Nat.digitChar k).toUpper = digit k := by decide
  obtain ⟨hd, rfl | rfl⟩ := isDigit_of_digitValue? h
  · exact hlower d hd hc
  · exact hupper d hd

theorem isLower_digit (hd : d < 16) : (digit d).isLower = false := by
  have hall : ∀ k < 16, (digit k).isLower = false := by decide
  exact hall d hd

theorem padded_mul_add (hd : d < 16) (w n : Nat) :
    padded 16 (w + 1) (16 * n + d) = padded 16 w n ++ [digit d] := by
  rw [padded, Nat.mul_add_mod, Nat.mod_eq_of_lt hd, Nat.mul_add_div (by decide),
    Nat.div_eq_of_lt hd, Nat.add_zero]

theorem digits_mul_add (hn : 0 < n) (hd : d < 10) :
    digits (10 * n + d) = digits n ++ [digit d] := by
  rw [digits_of_le (by omega), Nat.mul_add_mod, Nat.mod_eq_of_lt hd, Nat.mul_add_div (by decide),
    Nat.div_eq_of_lt hd, Nat.add_zero]

theorem padded_append_of_valueFrom? (h : valueFrom? 16 n ds = some v)
    (hc : ∀ c ∈ ds, c.isLower = false) (w : Nat) :
    padded 16 (w + ds.length) v = padded 16 w n ++ ds := by
  induction ds generalizing n w with
  | nil =>
    cases h
    exact (List.append_nil _).symm
  | cons c ds ih =>
    obtain ⟨hfirst, hrest⟩ := List.forall_mem_cons.mp hc
    obtain ⟨d, hd, hv⟩ := Option.bind_eq_some_iff.mp h
    have hlast : padded 16 (w + 1) (16 * n + d) = padded 16 w n ++ [c] := by
      rw [padded_mul_add (isDigit_of_digitValue? hd).1, eq_digit_of_digitValue? hd (.inr hfirst)]
    rw [List.length_cons, Nat.add_comm ds.length, ← Nat.add_assoc, ih hv hrest (w + 1), hlast,
      List.append_assoc, List.singleton_append]

theorem valueFrom?_lt (h : valueFrom? 16 n ds = some v) :
    v < (n + 1) * Nat.pow 16 ds.length := by
  induction ds generalizing n with
  | nil =>
    cases h
    exact Nat.lt_of_lt_of_eq (Nat.lt_succ_self _) (Nat.mul_one _).symm
  | cons c ds ih =>
    obtain ⟨d, hd, hv⟩ := Option.bind_eq_some_iff.mp h
    have hlt := (isDigit_of_digitValue? hd).1
    calc v < (16 * n + d + 1) * Nat.pow 16 ds.length := ih hv
      _ ≤ (n + 1) * 16 * Nat.pow 16 ds.length := Nat.mul_le_mul_right _ (by omega)
      _ = (n + 1) * Nat.pow 16 (ds.length + 1) := by
        rw [Nat.mul_assoc, Nat.mul_comm 16]
        rfl

theorem digits_append_of_valueFrom? (hn : 0 < n) (h : valueFrom? 10 n ds = some v) :
    digits v = digits n ++ ds := by
  induction ds generalizing n with
  | nil =>
    cases h
    exact (List.append_nil _).symm
  | cons c ds ih =>
    obtain ⟨d, hd, hv⟩ := Option.bind_eq_some_iff.mp h
    obtain ⟨hlt, hd16⟩ := (digitValue?_eq_some_iff (by decide)).mp hd
    have hlast : digits (10 * n + d) = digits n ++ [c] := by
      rw [digits_mul_add hn hlt, eq_digit_of_digitValue? hd16 (.inl hlt)]
    rw [ih (by omega) hv, hlast, List.append_assoc, List.singleton_append]

theorem fixed?_eq_some_iff_capitals : fixed? w cs = some n ↔ Capitals w cs n := by
  rw [fixed?]
  constructor
  · intro h
    split at h
    · next hform =>
      exact ⟨hform.1, by simpa using hform.2, value?_eq_some_iff.mp h⟩
    · cases h
  · intro h
    rw [if_pos ⟨h.length, by simpa using h.capital⟩]
    exact value?_eq_some_iff.mpr h.spells

/-- There is one way to write a number in so many digits. -/
theorem capitals_iff (hw : 0 < w) : Capitals w cs n ↔ n < Nat.pow 16 w ∧ cs = padded 16 w n := by
  constructor
  · rintro ⟨rfl, hc, hs⟩
    have hv := valueFrom?_of_spells hs
    have hlt := valueFrom?_lt hv
    have hp := padded_append_of_valueFrom? hv hc 0
    rw [Nat.zero_add, Nat.one_mul] at hlt
    rw [Nat.zero_add, padded, List.nil_append] at hp
    exact ⟨hlt, hp.symm⟩
  · rintro ⟨hn, rfl⟩
    refine ⟨length_padded 16 w n, ?_, value?_eq_some_iff.mp (value?_padded (by decide) hw hn)⟩
    intro c hc
    obtain ⟨k, hk, rfl⟩ := mem_padded (by decide) hc
    exact isLower_digit hk

theorem fixed?_eq_some_iff (hw : 0 < w) :
    fixed? w cs = some n ↔ n < Nat.pow 16 w ∧ cs = padded 16 w n :=
  fixed?_eq_some_iff_capitals.trans (capitals_iff hw)

theorem byte?_eq_some_iff {b : Byte} : byte? cs = some b ↔ cs = padded 16 2 b.toNat := by
  rw [byte?, Option.map_eq_some_iff]
  constructor
  · rintro ⟨n, hn, rfl⟩
    obtain ⟨hlt, rfl⟩ := (fixed?_eq_some_iff (by decide)).mp hn
    rw [UInt8.toNat_ofNat_of_lt' hlt]
  · rintro rfl
    exact ⟨b.toNat, (fixed?_eq_some_iff (by decide)).mpr ⟨b.toNat_lt, rfl⟩, UInt8.ofNat_toNat⟩

theorem word?_eq_some_iff {a : Word} : word? cs = some a ↔ cs = padded 16 4 a.toNat := by
  rw [word?, Option.map_eq_some_iff]
  constructor
  · rintro ⟨n, hn, rfl⟩
    obtain ⟨hlt, rfl⟩ := (fixed?_eq_some_iff (by decide)).mp hn
    rw [UInt16.toNat_ofNat_of_lt' hlt]
  · rintro rfl
    exact ⟨a.toNat, (fixed?_eq_some_iff (by decide)).mpr ⟨a.toNat_lt, rfl⟩, UInt16.ofNat_toNat⟩

/-- Of all numbers only zero is written with a zero in front. -/
theorem digits_ne_zero_cons (n : Nat) (c : Char) (cs : List Char) : digits n ≠ '0' :: c :: cs := by
  induction n using Nat.strongRecOn generalizing c cs with
  | ind n ih =>
    intro h
    by_cases hn : n < 10
    · rw [digits_of_lt hn] at h
      simp at h
    · rw [digits_of_le (by omega)] at h
      cases hq : digits (n / 10) with
      | nil => exact digits_ne_nil _ hq
      | cons e es =>
        rw [hq, List.cons_append, List.cons.injEq] at h
        obtain ⟨rfl, h⟩ := h
        cases es with
        | nil =>
          have hz : digits 0 = ['0'] := digits_of_lt (by decide)
          have hzero : n / 10 = 0 := digits_inj.mp (hq.trans hz.symm)
          omega
        | cons e es => exact ih (n / 10) (by omega) e es hq

theorem decimal?_eq_some_iff : decimal? cs = some n ↔ cs = digits n := by
  constructor
  · intro h
    unfold decimal? at h
    split at h
    · cases h
    · next hform =>
      cases cs with
      | nil => cases h
      | cons c cs =>
        obtain ⟨d, hd, hv⟩ := Option.bind_eq_some_iff.mp h
        obtain ⟨hlt, hd16⟩ := (digitValue?_eq_some_iff (by decide)).mp hd
        obtain rfl := eq_digit_of_digitValue? hd16 (.inl hlt)
        rw [Nat.mul_zero, Nat.zero_add] at hv
        by_cases hzero : d = 0
        · subst hzero
          cases cs with
          | nil =>
            cases hv
            exact (digits_of_lt (by decide)).symm
          | cons e es => exact absurd rfl (hform e es)
        · rw [digits_append_of_valueFrom? (by omega) hv, digits_of_lt hlt, List.singleton_append]
  · rintro rfl
    unfold decimal?
    split
    · next c cs h => exact absurd h (digits_ne_zero_cons n c cs)
    · exact value?_digits n

end Micro8080.Numeral
