import Micro8080.Byte

/-!
# Words

Addresses and register pairs are words. `ofBytes` joins a high and a low byte, and `high`,
`low` take a word apart again. Arithmetic on words wraps around.
-/

namespace Micro8080

abbrev Word := UInt16

namespace Word

variable (w : Word) (h l : Byte)

def high : Byte := (w / 256).toUInt8

def low : Byte := w.toUInt8

def ofBytes : Word := h.toUInt16 * 256 + l.toUInt16

@[simp] theorem toNat_high : (high w).toNat = w.toNat / 256 := by
  have := w.toNat_lt
  simp [high]
  omega

@[simp] theorem toNat_low : (low w).toNat = w.toNat % 256 := by
  simp [low]

theorem high_eq_ofNat : high w = UInt8.ofNat (w.toNat / 256) := by
  apply UInt8.toNat_inj.mp
  rw [toNat_high, UInt8.toNat_ofNat_of_lt']
  exact Nat.div_lt_of_lt_mul w.toNat_lt

theorem low_eq_ofNat : low w = UInt8.ofNat (w.toNat % 256) := by
  apply UInt8.toNat_inj.mp
  rw [toNat_low, UInt8.toNat_ofNat_of_lt']
  exact Nat.mod_lt _ (by decide)

@[simp] theorem toNat_ofBytes : (ofBytes h l).toNat = h.toNat * 256 + l.toNat := by
  have := h.toNat_lt
  have := l.toNat_lt
  simp [ofBytes]
  omega

@[simp] theorem high_ofBytes : high (ofBytes h l) = h := by
  have := h.toNat_lt
  have := l.toNat_lt
  apply UInt8.toNat_inj.mp
  rw [toNat_high, toNat_ofBytes]
  omega

@[simp] theorem low_ofBytes : low (ofBytes h l) = l := by
  have := l.toNat_lt
  apply UInt8.toNat_inj.mp
  rw [toNat_low, toNat_ofBytes]
  omega

@[simp] theorem ofBytes_high_low : ofBytes (high w) (low w) = w := by
  apply UInt16.toNat_inj.mp
  rw [toNat_ofBytes, toNat_high, toNat_low]
  omega

theorem eq_iff_high_low (v w : Word) : v = w ↔ high v = high w ∧ low v = low w := by
  constructor
  · rintro rfl
    exact ⟨rfl, rfl⟩
  · rintro ⟨hh, hl⟩
    rw [← ofBytes_high_low v, ← ofBytes_high_low w, hh, hl]

/-- Even the last address and the one behind it, where addresses wrap, are two. -/
theorem ne_add_one : w ≠ w + 1 := by
  intro h
  have := w.toNat_lt
  have hn := congrArg UInt16.toNat h
  simp only [UInt16.toNat_add, UInt16.reduceToNat] at hn
  omega

end Word

end Micro8080
