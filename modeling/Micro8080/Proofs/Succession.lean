import Micro8080.Proofs.Code
import Micro8080.Proofs.Place

/-!
# Steps in succession

Two steps put their bytes one after the other, so together they perform the two lists in a row.
What the first step left of the code behind it is what the second one executes: all of it, unless
the first one stored there.
-/

namespace Micro8080

theorem overwrite_append_of_forall_ne (f : Place → Byte) (ws : List (Place × Byte))
    {vs : List (Place × Byte)} {p : Place} (h : ∀ w ∈ vs, w.1 ≠ p) :
    overwrite f (ws ++ vs) p = overwrite f ws p := by
  rw [overwrite_append]
  exact overwrite_of_forall_ne _ h

/-- Bytes that are there already change nothing. -/
theorem overwrite_append_of_forall_eq (f : Place → Byte) {ws vs : List (Place × Byte)}
    (h : ∀ v ∈ vs, overwrite f ws v.1 = v.2) : overwrite f (ws ++ vs) = overwrite f ws := by
  rw [overwrite_append]
  induction vs with
  | nil => rfl
  | cons v vs ih =>
    obtain ⟨hv, hvs⟩ := List.forall_mem_cons.mp h
    rw [overwrite_cons, ← hv, Function.update_eq_self]
    exact ih hvs

theorem overwrite_concat_of_eq (f : Place → Byte) {ws : List (Place × Byte)} {p : Place} {v : Byte}
    (h : overwrite f ws p = v) : overwrite f (ws ++ [(p, v)]) = overwrite f ws :=
  overwrite_append_of_forall_eq f (List.forall_mem_singleton.mpr h)

/-- What lies below does not matter where a byte is put. -/
theorem overwrite_congr {f g : Place → Byte} {ws : List (Place × Byte)} {p : Place}
    (h : p ∉ ws.map Prod.fst → f p = g p) : overwrite f ws p = overwrite g ws p := by
  induction ws generalizing f g with
  | nil => exact h List.not_mem_nil
  | cons w ws ih =>
    obtain ⟨q, v⟩ := w
    rw [overwrite_cons, overwrite_cons]
    apply ih
    intro hp
    by_cases he : p = q
    · rw [he, Function.update_self, Function.update_self]
    · rw [Function.update_of_ne he, Function.update_of_ne he]
      exact h (by simp [he, hp])

/-- A list of bytes is lost when all its places are given bytes again. -/
theorem overwrite_append_of_subset (f : Place → Byte) {ws vs : List (Place × Byte)}
    (h : ws.map Prod.fst ⊆ vs.map Prod.fst) : overwrite f (ws ++ vs) = overwrite f vs := by
  funext p
  rw [overwrite_append]
  apply overwrite_congr
  intro hp
  apply overwrite_of_forall_ne
  exact fun w hw he => hp (h (List.mem_map.mpr ⟨w, hw, he⟩))

theorem Storage.pair_eq_peek (s : Storage) (p : Pair) :
    s.registers.pair p = Word.ofBytes (s.peek p.high) (s.peek p.low) := by
  cases p with
  | bc | de | hl | wz => exact s.registers.pair_eq_ofBytes rfl
  | sp | pc => exact (Word.ofBytes_high_low _).symm

theorem Storage.peek_high (s : Storage) (p : Pair) :
    s.peek p.high = Word.high (s.registers.pair p) := by
  rw [s.pair_eq_peek, Word.high_ofBytes]

theorem Storage.peek_low (s : Storage) (p : Pair) :
    s.peek p.low = Word.low (s.registers.pair p) := by
  rw [s.pair_eq_peek, Word.low_ofBytes]

namespace Machine

variable {m : Machine} {i : Instruction} {c d : Nat} {ws vs : List (Place × Byte)}

/-- The next steps of `m` take the ticks `cycles`, each its own number, and put the bytes `ws`
where they belong, all else that registers and memory hold is left alone. -/
structure PerformsAll (m : Machine) (cycles : List Nat) (ws : List (Place × Byte)) : Prop where
  answers : m.answers (List.replicate cycles.length .step) = cycles.map .ticks
  phase : (m.after (List.replicate cycles.length .step)).phase = .idle
  ticks : (m.after (List.replicate cycles.length .step)).ticks.toNat =
    m.ticks.toNat + cycles.sum
  bytes : (m.after (List.replicate cycles.length .step)).peek = overwrite m.peek ws

theorem performsAll_nil (hp : m.phase = .idle) : m.PerformsAll [] [] where
  answers := rfl
  phase := hp
  ticks := rfl
  bytes := rfl

theorem Performs.cons {cs : List Nat} (h : m.Performs c ws)
    (hn : m.step.machine.PerformsAll cs vs) : m.PerformsAll (c :: cs) (ws ++ vs) where
  answers := by
    have ha : (m.obey .step).answer = .ticks c := by rw [obey, Run.respond, h.result]
    rw [List.length_cons, List.replicate_succ, Machine.answers, ha]
    exact congrArg (_ :: ·) hn.answers
  phase := hn.phase
  ticks := by
    rw [List.sum_cons, ← Nat.add_assoc, ← h.ticks]
    exact hn.ticks
  bytes := by
    rw [overwrite_append, ← h.bytes]
    exact hn.bytes

theorem Performs.andThen (h : m.Performs c ws) (hn : m.step.machine.Performs d vs) :
    m.PerformsAll [c, d] (ws ++ vs) := by
  have hlast := hn.cons (performsAll_nil hn.phase)
  rw [List.append_nil] at hlast
  exact h.cons hlast

theorem PerformsAll.congr {cs : List Nat} (h : m.PerformsAll cs ws)
    (he : overwrite m.peek ws = overwrite m.peek vs) : m.PerformsAll cs vs :=
  { h with bytes := h.bytes.trans he }

/-- The second step puts bytes wherever the first one did. -/
theorem Performs.andThen_of_subset (h : m.Performs c ws) (hn : m.step.machine.Performs d vs)
    (hs : ws.map Prod.fst ⊆ vs.map Prod.fst) : m.PerformsAll [c, d] vs :=
  (h.andThen hn).congr (overwrite_append_of_subset _ hs)

theorem PerformsAll.peek_after_two (h : m.PerformsAll [c, d] ws) :
    (m.after [.step, .step]).peek = overwrite m.peek ws := h.bytes

theorem Performs.pair_eq {p : Pair} {v : Word} (h : m.Performs c (ws ++ p.bytes v)) :
    m.step.machine.registers.pair p = v := by
  have hne : p.high ≠ p.low := by cases p <;> nofun
  rw [Storage.pair_eq_peek, h.bytes, overwrite_append, Pair.bytes, overwrite_cons, overwrite_cons,
    overwrite_nil, Function.update_self, Function.update_of_ne hne, Function.update_self,
    Word.ofBytes_high_low]

theorem Performs.pair_of_forall_ne {p : Pair} (h : m.Performs c ws)
    (hhigh : ∀ w ∈ ws, w.1 ≠ p.high) (hlow : ∀ w ∈ ws, w.1 ≠ p.low) :
    m.step.machine.registers.pair p = m.registers.pair p := by
  rw [Storage.pair_eq_peek, h.peek_of_forall_ne hhigh, h.peek_of_forall_ne hlow,
    ← Storage.pair_eq_peek]

/-- A fetch writes to the latches and to PC only. -/
theorem place_of_mem_staging {w : Place × Byte} (hw : w ∈ m.staging i) :
    w.1 ∈ [Place.register .w, .register .z, .pcHigh, .pcLow] := by
  rcases List.mem_append.mp hw with hlatch | hpc
  · cases hi : i.immediate with
    | none => simp [hi] at hlatch
    | byte =>
      rw [hi] at hlatch
      obtain rfl := List.mem_singleton.mp hlatch
      simp
    | word =>
      rw [hi] at hlatch
      rcases List.mem_pair.mp hlatch with rfl | rfl <;> simp [Pair.high, Pair.low]
  · rcases List.mem_pair.mp hpc with rfl | rfl <;> simp [Pair.high, Pair.low]

theorem ne_of_mem_staging {w : Place × Byte} (hw : w ∈ m.staging i) {p : Place}
    (hp : p ∉ [Place.register .w, .register .z, .pcHigh, .pcLow]) : w.1 ≠ p := by
  rintro rfl
  exact hp (place_of_mem_staging hw)

theorem staging_of_none (hi : i.immediate = .none) :
    m.staging i = Pair.pc.bytes (m.registers.pc + 1) := by
  rw [staging, Instruction.length, hi]
  rfl

section

variable (h : m.Performs c (m.staging i ++ ws))

include h

theorem Performs.pc_eq (hpc : ∀ w ∈ ws, w.1 ≠ .pcHigh ∧ w.1 ≠ .pcLow) :
    m.step.machine.registers.pc = m.registers.pc + UInt16.ofNat i.length := by
  have hhigh : m.step.machine.peek .pcHigh =
      Word.high (m.registers.pc + UInt16.ofNat i.length) := by
    rw [h.bytes, overwrite_append_of_forall_ne _ _ fun w hw => (hpc w hw).1, staging,
      overwrite_append]
    rfl
  have hlow : m.step.machine.peek .pcLow =
      Word.low (m.registers.pc + UInt16.ofNat i.length) := by
    rw [h.bytes, overwrite_append_of_forall_ne _ _ fun w hw => (hpc w hw).2, staging,
      overwrite_append]
    rfl
  exact (Word.eq_iff_high_low _ _).mpr ⟨hhigh, hlow⟩

/-- A pair that no fetch writes to keeps its word when nothing else is put there either. -/
theorem Performs.pair_eq_of_apart {p : Pair} (hp : p ∉ [.wz, .pc])
    (hws : ∀ w ∈ ws, w.1 ≠ p.high ∧ w.1 ≠ p.low) :
    m.step.machine.registers.pair p = m.registers.pair p := by
  have hne : ∀ w ∈ m.staging i ++ ws, w.1 ≠ p.high ∧ w.1 ≠ p.low := by
    intro w hw
    rcases List.mem_append.mp hw with hstaging | hws'
    · constructor <;> apply ne_of_mem_staging hstaging <;> cases p <;>
        simp [Pair.high, Pair.low] at hp ⊢
    · exact hws w hws'
  exact h.pair_of_forall_ne (fun w hw => (hne w hw).1) fun w hw => (hne w hw).2

theorem Performs.read_eq_overwrite (a : Word) :
    m.step.machine.memory.read a = overwrite m.peek ws (.cell a) := by
  change m.step.machine.peek (.cell a) = _
  rw [h.bytes, overwrite_append]
  apply overwrite_congr
  intro _
  apply overwrite_of_forall_ne
  exact fun w hw => ne_of_mem_staging hw (by simp)

theorem Performs.read_eq {a : Word} (ha : ∀ w ∈ ws, w.1 ≠ .cell a) :
    m.step.machine.memory.read a = m.memory.read a := by
  rw [h.read_eq_overwrite a]
  exact overwrite_of_forall_ne _ ha

theorem Performs.nextOpcode_eq (hpc : ∀ w ∈ ws, w.1 ≠ .pcHigh ∧ w.1 ≠ .pcLow)
    (hfar : ∀ w ∈ ws, w.1 ≠ .cell (m.registers.pc + UInt16.ofNat i.length)) :
    m.step.machine.nextOpcode = m.memory.read (m.registers.pc + UInt16.ofNat i.length) := by
  rw [nextOpcode, h.pc_eq hpc, h.read_eq hfar]

/-- The code behind an instruction that does not store there is the code of the next step. -/
theorem Performs.holds {bs : List Byte} (hpc : ∀ w ∈ ws, w.1 ≠ .pcHigh ∧ w.1 ≠ .pcLow)
    (hm : m.memory.Holds (m.registers.pc + UInt16.ofNat i.length) bs)
    (hfar : ∀ k < bs.length, ∀ w ∈ ws,
      w.1 ≠ .cell (m.registers.pc + UInt16.ofNat i.length + UInt16.ofNat k)) :
    m.step.machine.memory.Holds m.step.machine.registers.pc bs := by
  rw [h.pc_eq hpc]
  intro k hk
  rw [h.read_eq (hfar k hk), hm k hk]

end

end Machine

end Micro8080
