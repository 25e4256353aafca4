import Micro8080.Numeral

/-!
# Clock ticks

A count of clock ticks is a 64-bit number. `add?` refuses a sum that does not fit, so a count
never wraps, and subtraction stops at zero.
-/

namespace Micro8080

structure Ticks where
  count : UInt64
deriving DecidableEq, Ord

namespace Ticks

variable (t u : Ticks)

def zero : Ticks := ⟨0⟩

instance : Inhabited Ticks := ⟨zero⟩

def toNat : Nat := t.count.toNat

def add? : Option Ticks :=
  if t.toNat + u.toNat < UInt64.size then some ⟨t.count + u.count⟩ else none

/-- The count after one more tick. -/
def next? : Option Ticks := t.add? ⟨1⟩

instance : Sub Ticks where
  sub t u := ⟨if u.count ≤ t.count then t.count - u.count else 0⟩

def display : String := String.ofList (Numeral.digits t.toNat) ++ " ticks"

def describe : String := "Ticks(" ++ String.ofList (Numeral.digits t.toNat) ++ ")"

theorem toNat_lt : t.toNat < UInt64.size := t.count.toNat_lt

theorem toNat_inj {t u : Ticks} : t.toNat = u.toNat ↔ t = u := by
  constructor
  · intro h
    cases t
    cases u
    simpa [toNat, UInt64.toNat_inj] using h
  · rintro rfl
    rfl

theorem add?_eq_none_iff : t.add? u = none ↔ UInt64.size ≤ t.toNat + u.toNat := by
  simp [add?]

theorem add?_eq_some_iff (s : Ticks) :
    t.add? u = some s ↔ s.toNat = t.toNat + u.toNat := by
  have hs := s.toNat_lt
  by_cases h : t.toNat + u.toNat < UInt64.size
  · have hv : (⟨t.count + u.count⟩ : Ticks).toNat = t.toNat + u.toNat := by
      simpa [toNat, Nat.mod_eq_of_lt] using h
    rw [add?, if_pos h, Option.some.injEq, ← toNat_inj, hv, eq_comm]
  · simp only [add?, if_neg h, reduceCtorEq, false_iff]
    omega

theorem next?_eq_some_iff (s : Ticks) : t.next? = some s ↔ s.toNat = t.toNat + 1 :=
  add?_eq_some_iff t ⟨1⟩ s

end Ticks

end Micro8080
