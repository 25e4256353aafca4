import Mathlib.Algebra.BigOperators.Ring.Finset
import Mathlib.Data.FinEnum
import Micro8080.Proofs.CanonicalNumeral
import Micro8080.Proofs.History

/-!
# The number of cells in use

A cell is in use if it is not zero, and the summary of memory says how many cells are. Between two
memories that number differs by what the cells gain or lose in which they differ. So a write
changes it by the gain of the cells that it covers, whatever the others hold, and a history of
writes by the sum of these gains.
-/

namespace Micro8080.Memory

/-- The addresses in `s` of cells in use. -/
def inUse (m : Memory) (s : Finset Word) : Finset Word := s.filter (m.read · ≠ 0)

/-- The `k` addresses from number `start` on. There is none behind the last address. -/
def block (start k : Nat) : Finset Word :=
  Finset.univ.filter fun x => start ≤ x.toNat ∧ x.toNat < start + k

/-- By how much the number of cells in use changes when `new` takes the place of `old`. -/
def gain (old new : Byte) : Int := (if new ≠ 0 then 1 else 0) - if old ≠ 0 then 1 else 0

namespace Write

/-- The addresses that are written to. -/
def cover : Write → Finset Word
  | .byte a _ => {a}
  | .word a _ => {a, a + 1}
  | .load origin image => block origin.toNat image.length

/-- By how much a write to `m` changes the number of cells in use. -/
def gain (w : Write) (m : Memory) : Int :=
  match w with
  | .byte a v => Memory.gain (m.read a) v
  | .word a v =>
    Memory.gain (m.read a) (Word.low v) + Memory.gain (m.read (a + 1)) (Word.high v)
  | .load origin image =>
    image.countP (· ≠ 0) - (m.inUse (block origin.toNat image.length)).card

end Write

/-- What writes gain together, each of them in the memory that those before it leave. -/
def gains : List Write → Memory → Int
  | [], _ => 0
  | w :: ws, m => w.gain m + (w.perform? m).elim 0 (gains ws)

variable {m n : Memory} {s : Finset Word} {start k : Nat}

section Counting

theorem mem_block {x : Word} : x ∈ block start k ↔ start ≤ x.toNat ∧ x.toNat < start + k := by
  simp [block]

theorem block_zero : block start 0 = ∅ := by
  ext x
  simp [mem_block]

theorem block_succ (h : start + k < size) :
    block start (k + 1) = insert (UInt16.ofNat (start + k)) (block start k) := by
  have hn : (UInt16.ofNat (start + k)).toNat = start + k := UInt16.toNat_ofNat_of_lt h
  ext x
  rw [Finset.mem_insert, mem_block, mem_block, ← UInt16.toNat_inj, hn]
  omega

theorem block_size : block 0 size = Finset.univ := by
  ext x
  simpa [mem_block] using x.toNat_lt

theorem inUse_zero (s : Finset Word) : zero.inUse s = ∅ := by
  simp [inUse]

theorem card_inUse_insert {a : Word} (h : a ∉ s) (m : Memory) :
    (m.inUse (insert a s)).card = (m.inUse s).card + if m.read a ≠ 0 then 1 else 0 := by
  rw [inUse, Finset.card_filter, Finset.sum_insert h, ← Finset.card_filter, Nat.add_comm]
  rfl

theorem card_inUse_block (m : Memory) (h : start + k ≤ size) :
    (m.inUse (block start k)).card =
      (List.range k).countP fun i => m.read (UInt16.ofNat (start + i)) ≠ 0 := by
  induction k with
  | zero =>
    rw [block_zero]
    rfl
  | succ k ih =>
    have hn : (UInt16.ofNat (start + k)).toNat = start + k := UInt16.toNat_ofNat_of_lt h
    have hnew : UInt16.ofNat (start + k) ∉ block start k := by
      rw [mem_block, hn]
      omega
    rw [block_succ h, card_inUse_insert hnew, ih (Nat.le_of_succ_le h), List.range_succ,
      List.countP_append, List.countP_singleton]
    simp only [decide_eq_true_eq]

/-- Addresses of a block are counted as the bytes in it. -/
theorem card_inUse_of_slice? {bs : List Byte} (h : m.slice? start k = some bs) :
    (m.inUse (block start k)).card = bs.countP (· ≠ 0) := by
  obtain ⟨hle, rfl⟩ := (m.slice?_eq_some_iff start k bs).mp h
  rw [card_inUse_block m hle, List.countP_map]
  rfl

theorem nonZero_eq_card (m : Memory) : m.nonZero = (m.inUse Finset.univ).card := by
  have hs : m.slice? 0 size = some m.cells.toList := by simp [slice?, ← Vector.toList_toArray]
  rw [← block_size, card_inUse_of_slice? hs, nonZero, Vector.countP_toList]

theorem nonZero_eq_zero_iff : m.nonZero = 0 ↔ m = zero := by
  constructor
  · intro h
    refine Memory.ext fun x => ?_
    rw [read_zero]
    by_contra hx
    exact (nonZero_pos hx).ne' h
  · rintro rfl
    exact nonZero_zero

end Counting

section Changes

variable {w : Write} {ws : List Write}

theorem sum_gain (m n : Memory) (s : Finset Word) :
    ∑ x ∈ s, gain (m.read x) (n.read x) = ((n.inUse s).card : Int) - (m.inUse s).card := by
  simp [gain, inUse, Finset.card_filter]

/-- Cells that keep their bytes do not count, even if they are in `s`. -/
theorem nonZero_sub (h : ∀ x, x ∉ s → n.read x = m.read x) :
    (n.nonZero : Int) - m.nonZero = ∑ x ∈ s, gain (m.read x) (n.read x) := by
  rw [nonZero_eq_card, nonZero_eq_card, ← sum_gain]
  refine (Finset.sum_subset (Finset.subset_univ s) ?_).symm
  intro x _ hx
  rw [h x hx, gain, sub_self]

theorem given?_eq_none_iff {x : Word} : w.given? x = none ↔ x ∉ w.cover := by
  cases w with
  | byte a v => simp [Write.given?, Write.cover]
  | word a v =>
    rw [Write.given?, Write.cover, Finset.mem_insert, Finset.mem_singleton, not_or]
    split
    · next ha => simp [ha]
    · next ha => simp [ha]
  | load origin image =>
    rw [Write.given?, Write.cover, mem_block]
    split
    · next hle =>
      rw [List.getElem?_eq_none_iff]
      omega
    · next hlt => simp [hlt]

theorem slice?_of_load? {origin : Word} {image : List Byte} (h : m.load? origin image = some n) :
    n.slice? origin.toNat image.length = some image := by
  obtain ⟨hle, rfl⟩ := (m.load?_eq_some_iff origin image n).mp h
  refine (slice?_eq_some_iff _ _ _ _).mpr ⟨hle, List.ext_getElem (by simp) ?_⟩
  intro i hi _
  have hn : (UInt16.ofNat (origin.toNat + i)).toNat = origin.toNat + i :=
    UInt16.toNat_ofNat_of_lt (Nat.lt_of_lt_of_le (Nat.add_lt_add_left hi _) hle)
  rw [List.getElem_map, List.getElem_range, read_fill _ _ _ _ hle, hn,
    if_pos (Nat.le_add_right _ _), Nat.add_sub_cancel_left, List.getElem?_eq_getElem hi,
    Option.getD_some]

theorem sum_gain_of_perform? (h : w.perform? m = some n) :
    ∑ x ∈ w.cover, gain (m.read x) (n.read x) = w.gain m := by
  cases w with
  | byte a v =>
    obtain rfl : m.write a v = n := Option.some.inj h
    rw [Write.cover, Finset.sum_singleton, read_write_self, Write.gain]
  | word a v =>
    obtain rfl : m.writeWord a v = n := Option.some.inj h
    -- The two cells of a word are never one, so each of them gains on its own.
    rw [Write.cover, Finset.sum_pair (Word.ne_add_one a), read_writeWord, read_writeWord,
      if_neg (Word.ne_add_one a), if_pos rfl, if_pos rfl, Write.gain]
  | load origin image =>
    rw [Write.cover, sum_gain, card_inUse_of_slice? (slice?_of_load? h), Write.gain]

theorem nonZero_of_perform? (h : w.perform? m = some n) :
    (n.nonZero : Int) - m.nonZero = w.gain m := by
  have hkept : ∀ x, x ∉ w.cover → n.read x = m.read x := by
    intro x hx
    rw [Write.read_of_perform? h, given?_eq_none_iff.mpr hx, Option.getD_none]
  rw [nonZero_sub hkept, sum_gain_of_perform? h]

theorem gains_cons (h : w.perform? m = some n) (ws : List Write) :
    gains (w :: ws) m = w.gain m + gains ws n := by
  rw [gains, h, Option.elim_some]

theorem nonZero_of_performAll? (h : performAll? ws m = some n) :
    (n.nonZero : Int) - m.nonZero = gains ws m := by
  induction ws generalizing m with
  | nil =>
    obtain rfl : m = n := Option.some.inj h
    exact sub_self _
  | cons w ws ih =>
    rw [performAll?_cons, Option.bind_eq_some_iff] at h
    obtain ⟨k, hk, hn⟩ := h
    calc (n.nonZero : Int) - m.nonZero
        = ((k.nonZero : Int) - m.nonZero) + ((n.nonZero : Int) - k.nonZero) := by omega
      _ = w.gain m + gains ws k := by rw [nonZero_of_perform? hk, ih hn]
      _ = gains (w :: ws) m := (gains_cons hk ws).symm

end Changes

section Text

theorem describe_eq (m : Memory) :
    m.describe =
      "Memory \x7b size: 65536, non_zero: " ++ toString m.nonZero ++ " \x7d" := by
  have hsize : "Memory \x7b size: " ++ toString size ++ ", non_zero: " =
      "Memory \x7b size: 65536, non_zero: " := by decide +kernel
  unfold describe
  rw [Numeral.digits, Numeral.digits, ← Nat.repr_eq_ofList_toDigits,
    ← Nat.repr_eq_ofList_toDigits, ← hsize, Nat.toString_eq_repr, Nat.toString_eq_repr]

theorem describe_inj : m.describe = n.describe ↔ m.nonZero = n.nonZero := by
  unfold describe
  rw [String.append_left_inj, String.append_right_inj, String.ofList_inj, Numeral.digits_inj]

end Text

/-- The summary says at how many addresses there is a byte other than zero. Writes that fit change
that number by what they gain, one by one and as a history. It is zero for zero memory only. -/
theorem cells_in_use_after_writes {m : Memory} {ws : List Write} (hw : ∀ w ∈ ws, w.Fits) :
    ∃ n, performAll? ws m = some n ∧
      n.describe = "Memory \x7b size: 65536, non_zero: " ++ toString n.nonZero ++ " \x7d" ∧
      n.nonZero = (Finset.univ.filter fun x : Word => n.read x ≠ 0).card ∧
      (n.nonZero : Int) - m.nonZero = gains ws m ∧
      (∀ w : Write, w.Fits →
        ∃ k, w.perform? n = some k ∧ (k.nonZero : Int) - n.nonZero = w.gain n) ∧
      (∀ a : Word, a ≠ a + 1) ∧
      (n.nonZero = 0 ↔ n = zero) ∧
      (n.describe = zero.describe ↔ n = zero) ∧
      n.nonZero ≤ 65536 := by
  obtain ⟨n, hn⟩ := exists_performAll? hw m
  refine ⟨n, hn, n.describe_eq, n.nonZero_eq_card, nonZero_of_performAll? hn, ?_, Word.ne_add_one,
    nonZero_eq_zero_iff, ?_, Vector.countP_le_size⟩
  · intro w hfits
    obtain ⟨k, hk⟩ := Write.exists_perform? hfits n
    exact ⟨k, hk, nonZero_of_perform? hk⟩
  · rw [describe_inj, nonZero_zero, nonZero_eq_zero_iff]

/-- An image with a zero in it, a word over the last address of which one byte is zero, and the
zero that takes the image's other byte away. -/
theorem cells_in_use_around_last_address :
    ∃ n, performAll? [.load 0xFFFE [1, 0], .word 0xFFFF 0x1200, .byte 0xFFFE 0] zero = some n ∧
      n.describe = "Memory \x7b size: 65536, non_zero: 1 \x7d" ∧ n ≠ zero := by
  have hw : ∀ w ∈ [Write.load 0xFFFE [1, 0], .word 0xFFFF 0x1200, .byte 0xFFFE 0], w.Fits := by
    simp [Write.Fits]
  obtain ⟨n, hn, htext, -, hgains, -, -, hzero, -⟩ := cells_in_use_after_writes (m := zero) hw
  have hgain : gains [.load 0xFFFE [1, 0], .word 0xFFFF 0x1200, .byte 0xFFFE 0] zero = 1 := by
    let k := zero.fill 0xFFFE [1, 0]
    have hload : (Write.load 0xFFFE [1, 0]).perform? zero = some k :=
      (load?_eq_some_iff _ _ _ _).mpr ⟨by decide, rfl⟩
    have hlast : k.read 0xFFFF = 0 := by simp [k, fill]
    have hfirst : k.read (0xFFFF + 1) = 0 := by simp [k, fill]
    have hkept : (k.writeWord 0xFFFF 0x1200).read 0xFFFE = 1 := by
      rw [read_writeWord, if_neg (by decide), if_neg (by decide)]
      simp [k, fill]
    rw [gains_cons hload, gains_cons rfl, gains_cons rfl]
    simp only [Write.gain, inUse_zero, hlast, hfirst, hkept, gains]
    decide
  have hcount : n.nonZero = 1 := by
    rw [hgain, nonZero_zero] at hgains
    omega
  refine ⟨n, hn, ?_, ?_⟩
  · rw [htext, hcount]
    decide +kernel
  · rw [ne_eq, ← hzero, hcount]
    decide

end Micro8080.Memory
