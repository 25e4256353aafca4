/-!
# Numerals

Positional numerals in a base up to sixteen. Digits above nine are written as upper-case
letters and read in either case. `padded` writes a fixed number of digits, `digits` as many
decimal ones as needed, and `value?` reads both back.
-/

namespace Micro8080.Numeral

def digit (n : Nat) : Char :=
  if n < 10 then Char.ofNat (48 + n) else Char.ofNat (55 + n)

/-- The digits are ASCII; no other character counts as one. -/
def digitValue? (base : Nat) (c : Char) : Option Nat :=
  Option.filter (· < base) <|
    if '0' ≤ c ∧ c ≤ '9' then some (c.toNat - 48)
    else if 'A' ≤ c ∧ c ≤ 'F' then some (c.toNat - 55)
    else if 'a' ≤ c ∧ c ≤ 'f' then some (c.toNat - 87)
    else none

theorem digitValue?_digit {base n : Nat} (hb : base ≤ 16) (hn : n < base) :
    digitValue? base (digit n) = some n := by
  have h : ∀ k : Fin 16, digitValue? 16 (digit k) = some k.val := by decide
  have hk := h ⟨n, by omega⟩
  simp only [digitValue?, Option.filter_eq_some_iff] at hk ⊢
  exact ⟨hk.1, decide_eq_true hn⟩

section Reading

variable (base : Nat)

/-- Reads on from the number `n` that the digits before spelled. -/
def valueFrom? (n : Nat) : List Char → Option Nat
  | [] => some n
  | c :: cs => (digitValue? base c).bind fun d => valueFrom? (base * n + d) cs

/-- No digits spell no number. -/
def value? : List Char → Option Nat
  | [] => none
  | c :: cs => valueFrom? base 0 (c :: cs)

theorem valueFrom?_append (n : Nat) (cs ds : List Char) :
    valueFrom? base n (cs ++ ds) = (valueFrom? base n cs).bind (valueFrom? base · ds) := by
  induction cs generalizing n with
  | nil => rfl
  | cons c cs ih =>
    cases hc : digitValue? base c with
    | none => simp [valueFrom?, hc]
    | some d => simp [valueFrom?, hc, ih]

theorem value?_of_ne_nil {cs : List Char} (hc : cs ≠ []) :
    value? base cs = valueFrom? base 0 cs := by
  cases cs with
  | nil => exact absurd rfl hc
  | cons c cs => rfl

end Reading

section Padded

variable (base : Nat)

def padded : Nat → Nat → List Char
  | 0, _ => []
  | w + 1, n => padded w (n / base) ++ [digit (n % base)]

@[simp] theorem length_padded (w n : Nat) : (padded base w n).length = w := by
  induction w generalizing n with
  | zero => rfl
  | succ w ih => simp [padded, ih]

theorem valueFrom?_padded {base w n : Nat} (hb : base ≤ 16) (hn : n < Nat.pow base w) :
    valueFrom? base 0 (padded base w n) = some n := by
  induction w generalizing n with
  | zero =>
    have : n = 0 := Nat.lt_one_iff.mp hn
    simp [padded, valueFrom?, this]
  | succ w ih =>
    have hs : n < base * Nat.pow base w := by rwa [Nat.mul_comm]
    have hpos : 0 < base := Nat.pos_of_mul_pos_right (Nat.zero_lt_of_lt hs)
    have hq : n / base < Nat.pow base w := Nat.div_lt_of_lt_mul hs
    rw [padded, valueFrom?_append, ih hq]
    simp only [Option.bind_some, valueFrom?, digitValue?_digit hb (Nat.mod_lt n hpos)]
    rw [Nat.div_add_mod]

theorem value?_padded {base w n : Nat} (hb : base ≤ 16) (hw : 0 < w) (hn : n < Nat.pow base w) :
    value? base (padded base w n) = some n := by
  rw [value?_of_ne_nil, valueFrom?_padded hb hn]
  intro he
  have := length_padded base w n
  simp [he] at this
  omega

end Padded

section Decimal

def digits (n : Nat) : List Char := Nat.toDigits 10 n

theorem digitChar_eq_digit {n : Nat} (hn : n < 10) : Nat.digitChar n = digit n := by
  have h : ∀ k : Fin 10, Nat.digitChar k = digit k := by decide
  exact h ⟨n, hn⟩

theorem digits_of_lt {n : Nat} (hn : n < 10) : digits n = [digit n] := by
  rw [digits, Nat.toDigits_of_lt_base hn, digitChar_eq_digit hn]

theorem digits_of_le {n : Nat} (hn : 10 ≤ n) :
    digits n = digits (n / 10) ++ [digit (n % 10)] := by
  rw [digits, Nat.toDigits_of_base_le (by decide) hn,
    digitChar_eq_digit (Nat.mod_lt n (by decide)), digits]

theorem digits_ne_nil (n : Nat) : digits n ≠ [] := by
  by_cases hn : n < 10
  · simp [digits_of_lt hn]
  · simp [digits_of_le (Nat.le_of_not_lt hn)]

theorem value?_digits (n : Nat) : value? 10 (digits n) = some n := by
  rw [value?_of_ne_nil 10 (digits_ne_nil n)]
  induction n using Nat.strongRecOn with
  | ind n ih =>
    by_cases hn : n < 10
    · simp [digits_of_lt hn, valueFrom?, digitValue?_digit (by decide : 10 ≤ 16) hn]
    · rw [digits_of_le (by omega), valueFrom?_append, ih (n / 10) (by omega)]
      have hm : n % 10 < 10 := Nat.mod_lt n (by decide)
      simp only [Option.bind_some, valueFrom?, digitValue?_digit (by decide) hm]
      rw [Nat.div_add_mod]

theorem digits_inj {m n : Nat} : digits m = digits n ↔ m = n := by
  constructor
  · intro he
    have hv := value?_digits m
    rw [he, value?_digits] at hv
    exact (Option.some.inj hv).symm
  · rintro rfl
    rfl

end Decimal

end Micro8080.Numeral
