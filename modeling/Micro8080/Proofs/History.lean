import Micro8080.Memory

/-!
# Histories of writes

A history is a list of things done one after the other, and each of them gives a value or leaves
things as they are. What counts in the end is the value that the latest giver gave; without one
it is what was there at the start. So a cell of memory holds the byte that the latest write over it
put there. A word is read from two cells, so the write of a word changes half of each of the two
words that overlap with it, around the last address too, and no word beyond them.
-/

namespace Micro8080

section Latest

variable {α β σ : Type} {given? : α → Option β}

/-- What the latest element of `ws` that gives anything gives. -/
def latest? (given? : α → Option β) (ws : List α) : Option β := ws.reverse.findSome? given?

theorem latest?_append (ws vs : List α) :
    latest? given? (ws ++ vs) = (latest? given? vs).or (latest? given? ws) := by
  rw [latest?, List.reverse_append, List.findSome?_append]
  rfl

theorem latest?_cons (w : α) (ws : List α) :
    latest? given? (w :: ws) = (latest? given? ws).or (given? w) := by
  have hw : latest? given? [w] = given? w := by simp [latest?]
  rw [← hw, ← latest?_append, List.singleton_append]

theorem latest?_eq_none_iff {ws : List α} :
    latest? given? ws = none ↔ ∀ w ∈ ws, given? w = none := by
  simp [latest?]

/-- A run of steps that each set a view of the state to what they give, if they give anything. -/
theorem view_foldl {step : σ → α → σ} (view : σ → β)
    (h : ∀ s w, view (step s w) = (given? w).getD (view s)) (s : σ) (ws : List α) :
    view (ws.foldl step s) = (latest? given? ws).getD (view s) := by
  induction ws generalizing s with
  | nil => rfl
  | cons w ws ih => rw [List.foldl_cons, ih, h, latest?_cons, Option.getD_or]

end Latest

namespace Memory

namespace Write

/-- An image that runs past the last address does not fit. -/
def Fits : Write → Prop
  | .byte _ _ | .word _ _ => True
  | .load origin image => origin.toNat + image.length ≤ size

/-- The byte that a write puts into cell `x`, if it covers the cell. -/
def given? (w : Write) (x : Word) : Option Byte :=
  match w with
  | .byte a v => if x = a then some v else none
  | .word a v =>
    if x = a then some (UInt8.ofNat (v.toNat % 256))
    else if x = a + 1 then some (UInt8.ofNat (v.toNat / 256))
    else none
  | .load origin image =>
    if origin.toNat ≤ x.toNat then image[x.toNat - origin.toNat]? else none

variable {w : Write} {m n : Memory}

theorem exists_perform? (hw : w.Fits) (m : Memory) : ∃ n, w.perform? m = some n := by
  cases w with
  | byte a v => exact ⟨_, rfl⟩
  | word a v => exact ⟨_, rfl⟩
  | load origin image => exact ⟨_, (load?_eq_some_iff m origin image _).mpr ⟨hw, rfl⟩⟩

theorem read_of_perform? (h : w.perform? m = some n) (x : Word) :
    n.read x = (w.given? x).getD (m.read x) := by
  cases w with
  | byte a v =>
    obtain rfl : m.write a v = n := Option.some.inj h
    rw [read_write, given?, apply_ite (Option.getD · (m.read x))]
    rfl
  | word a v =>
    obtain rfl : m.writeWord a v = n := Option.some.inj h
    rw [read_writeWord, Word.high_eq_ofNat, Word.low_eq_ofNat, given?]
    by_cases hx : x = a
    · rw [if_neg (hx ▸ Word.ne_add_one a), if_pos hx, if_pos hx]
      rfl
    · rw [if_neg hx, if_neg hx]
      split <;> rfl
  | load origin image =>
    obtain ⟨hf, rfl⟩ := (load?_eq_some_iff m origin image n).mp h
    rw [read_fill _ _ _ _ hf, given?]
    split <;> rfl

end Write

variable {m n : Memory} {ws : List Write}

theorem exists_performAll? (hw : ∀ w ∈ ws, w.Fits) (m : Memory) :
    ∃ n, performAll? ws m = some n := by
  induction ws generalizing m with
  | nil => exact ⟨m, rfl⟩
  | cons w ws ih =>
    obtain ⟨hfirst, hrest⟩ := List.forall_mem_cons.mp hw
    obtain ⟨k, hk⟩ := Write.exists_perform? hfirst m
    rw [performAll?_cons, hk]
    exact ih hrest k

theorem read_of_performAll? (h : performAll? ws m = some n) (x : Word) :
    n.read x = (latest? (Write.given? · x) ws).getD (m.read x) := by
  induction ws generalizing m with
  | nil =>
    obtain rfl : m = n := Option.some.inj h
    rfl
  | cons w ws ih =>
    rw [performAll?_cons, Option.bind_eq_some_iff] at h
    obtain ⟨k, hk, hn⟩ := h
    rw [ih hn, Write.read_of_perform? hk, latest?_cons, Option.getD_or]

theorem toNat_readWord (m : Memory) (x : Word) :
    (m.readWord x).toNat = (m.read x).toNat + 256 * (m.read (x + 1)).toNat := by
  rw [readWord, Word.toNat_ofBytes]
  omega

/-- The cells of the two words overlap in the low one of `a`. -/
theorem readWord_below_writeWord (m : Memory) (a v : Word) :
    (m.writeWord a v).readWord (a - 1) =
      Word.ofBytes (Word.low v) (Word.low (m.readWord (a - 1))) := by
  have hlow : a - 1 ≠ a := by grind
  have hhigh : a - 1 ≠ a + 1 := by grind
  rw [readWord, readWord, Word.low_ofBytes, UInt16.sub_add_cancel, read_writeWord, read_writeWord,
    if_neg (Word.ne_add_one a), if_pos rfl, if_neg hhigh, if_neg hlow]

theorem readWord_above_writeWord (m : Memory) (a v : Word) :
    (m.writeWord a v).readWord (a + 1) =
      Word.ofBytes (Word.high (m.readWord (a + 1))) (Word.high v) := by
  have hlow : a + 1 + 1 ≠ a := by grind
  have hhigh : a + 1 + 1 ≠ a + 1 := by grind
  rw [readWord, readWord, Word.high_ofBytes, read_writeWord, read_writeWord, if_neg hhigh,
    if_neg hlow, if_pos rfl]

theorem readWord_writeWord_of_ne (m : Memory) {a x : Word} (v : Word) (h : x ≠ a)
    (hbelow : x ≠ a - 1) (habove : x ≠ a + 1) :
    (m.writeWord a v).readWord x = m.readWord x := by
  have hlow : x + 1 ≠ a := by grind
  have hhigh : x + 1 ≠ a + 1 := by grind
  rw [readWord, readWord, read_writeWord, read_writeWord, if_neg hhigh, if_neg hlow,
    if_neg habove, if_neg h]

/-- Writes that all fit are performed, and each cell holds what the latest one over it put there.
The write of a word is read back whole, and of the words around it only the halves that it covers
are replaced. -/
theorem read_after_writes {m : Memory} {ws : List Write} (hw : ∀ w ∈ ws, w.Fits) :
    ∃ n, performAll? ws m = some n ∧
      (∀ x, n.read x = (latest? (Write.given? · x) ws).getD (m.read x)) ∧
      (∀ x, (n.readWord x).toNat = (n.read x).toNat + 256 * (n.read (x + 1)).toNat) ∧
      ∀ a v : Word, let k := n.writeWord a v
        k.readWord a = v ∧
        k.readWord (a - 1) =
          Word.ofBytes (UInt8.ofNat (v.toNat % 256)) (Word.low (n.readWord (a - 1))) ∧
        k.readWord (a + 1) =
          Word.ofBytes (Word.high (n.readWord (a + 1))) (UInt8.ofNat (v.toNat / 256)) ∧
        ∀ x, x ≠ a → x ≠ a - 1 → x ≠ a + 1 → k.readWord x = n.readWord x := by
  obtain ⟨n, hn⟩ := exists_performAll? hw m
  refine ⟨n, hn, read_of_performAll? hn, toNat_readWord n, ?_⟩
  intro a v k
  refine ⟨readWord_writeWord n a v, ?_, ?_, ?_⟩
  · rw [← Word.low_eq_ofNat]
    exact readWord_below_writeWord n a v
  · rw [← Word.high_eq_ofNat]
    exact readWord_above_writeWord n a v
  · intro x h hbelow habove
    exact readWord_writeWord_of_ne n v h hbelow habove

/-- A word over the last address, in cells that an image and a byte are written to as well. -/
theorem writes_around_last_address :
    ∃ n, performAll? [.load 0xFFFE [1, 2], .word 0xFFFF 0x1234, .byte 0 0xAA] zero = some n ∧
      n.read 0xFFFE = 1 ∧ n.read 0xFFFF = 0x34 ∧ n.read 0 = 0xAA ∧
      (n.writeWord 0 0xBEEF).readWord 0xFFFF =
        Word.ofBytes 0xEF (Word.low (n.readWord 0xFFFF)) := by
  have hw : ∀ w ∈ [Write.load 0xFFFE [1, 2], .word 0xFFFF 0x1234, .byte 0 0xAA], w.Fits := by
    simp [Write.Fits]
  obtain ⟨n, hn, hread, -, hword⟩ := read_after_writes (m := zero) hw
  obtain ⟨-, hbelow, -⟩ := hword 0 0xBEEF
  exact ⟨n, hn, hread _, hread _, hread _, hbelow⟩

end Memory

end Micro8080
