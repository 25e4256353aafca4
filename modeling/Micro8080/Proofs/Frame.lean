import Mathlib.Data.List.Perm.Subperm
import Micro8080.Proofs.Effect
import Micro8080.Proofs.InFlight

/-!
# Which tick changes what

Flags, the stack pointer and memory change on the last tick of an instruction only, and only if
the instruction is one that sets them; the latches change on a fetch, and PC on a fetch or at
the end of a jump. A place that no tick of a run may change is the same after the run.
-/

namespace Micro8080

namespace Memory

variable {before after : Memory}

theorem nodup_changesBelow {n : Nat} {tail : List (Word × Byte)} (hn : n ≤ size)
    (hd : (tail.map Prod.fst).Nodup) (ht : ∀ p ∈ tail, n ≤ p.1.toNat) :
    ((changesBelow before after n tail).map Prod.fst).Nodup := by
  induction n generalizing tail with
  | zero => exact hd
  | succ n ih =>
    have ha : (UInt16.ofNat n).toNat = n := UInt16.toNat_ofNat_of_lt hn
    have hle : ∀ p ∈ tail, n ≤ p.1.toNat := fun p hp => Nat.le_of_succ_le (ht p hp)
    rw [changesBelow]
    apply ih (Nat.le_of_succ_le hn)
    · split
      · exact hd
      · rw [List.map_cons, List.nodup_cons]
        refine ⟨fun hm => ?_, hd⟩
        obtain ⟨p, hp, he⟩ := List.mem_map.mp hm
        have := ht p hp
        rw [he, ha] at this
        omega
    · split
      · exact hle
      · exact List.forall_mem_cons.mpr ⟨Nat.le_of_eq ha.symm, hle⟩

/-- No more cells differ than are listed, if every cell that differs is listed. -/
theorem length_changes_le {cells : List Word}
    (h : ∀ a, after.read a ≠ before.read a → a ∈ cells) :
    (changes before after).length ≤ cells.length := by
  have hd : ((changes before after).map Prod.fst).Nodup :=
    nodup_changesBelow (Nat.le_refl _) List.nodup_nil (by simp)
  rw [← List.length_map (f := Prod.fst)]
  refine (hd.subperm fun a ha => ?_).length_le
  obtain ⟨⟨b, v⟩, hm, rfl⟩ := List.mem_map.mp ha
  obtain ⟨hv, hne⟩ := mem_changes.mp hm
  exact h b fun he => hne (he.symm.trans hv)

end Memory

namespace Instruction

theorem length_stores_le (i : Instruction) (r : Registers) (operand : Word) :
    (i.stores r operand).length ≤ if i = .shld then 2 else 1 := by
  cases i with
  | mvi x | inr x | dcr x => cases x <;> simp [stores]
  | _ => simp [stores]

end Instruction

namespace Machine

variable {α : Type} {m : Machine}

/-- The next tick fetches `i`. -/
def Fetches (m : Machine) (i : Instruction) : Prop :=
  m.phase = .idle ∧ ∃ e, m.tick.machine.phase = .executing i e

/-- The next tick is the last one of `i`. -/
def Completes (m : Machine) (i : Instruction) : Prop :=
  (∃ e, m.phase = .executing i e) ∧ m.tick.machine.phase = .idle

/-- The ticks on which an observation `g` of the storage can change. -/
inductive Change (m : Machine) (g : Storage → α) : Prop
  | unknown (phase : m.phase = .idle)
      (changed : g { m with registers := m.registers.setPc (m.registers.pc + 1) } ≠ g m.toStorage)
  | fetch (i : Instruction) (fetches : m.Fetches i)
      (changed : g { m with registers := i.stage m.memory m.registers } ≠ g m.toStorage)
  | effect (i : Instruction) (completes : m.Completes i)
      (changed : g (i.exec m.toStorage) ≠ g m.toStorage)

section Latched

variable (hm : m.Latched)

include hm

theorem change_of_tick {g : Storage → α} (h : g m.tick.machine.toStorage ≠ g m.toStorage) :
    m.Change g := by
  cases m.tickCase with
  | halted f phase tick =>
    rw [tick] at h
    exact absurd rfl h
  | spent fault clock tick =>
    rw [tick] at h
    exact absurd rfl h
  | unknown phase clock opcode tick =>
    rw [tick] at h
    exact .unknown phase h
  | fetch i phase clock opcode tick =>
    rw [tick] at h
    exact .fetch i ⟨phase, 1, by rw [tick]; rfl⟩ h
  | count i e phase clock elapsed tick =>
    rw [tick] at h
    exact absurd rfl h
  | effect i e phase clock elapsed tick =>
    rw [tick] at h
    refine .effect i ⟨⟨e, phase⟩, by rw [tick]; rfl⟩ ?_
    rwa [← m.toStorage_afterEffect (hm i e phase) 1]

/-- What a fetch leaves alone changes at the end of an instruction only. -/
theorem completes_of_change {g : Storage → α}
    (hu : ∀ s : Storage, g { s with registers := s.registers.setPc (s.registers.pc + 1) } = g s)
    (hf : ∀ (i : Instruction) (s : Storage),
      g { s with registers := i.stage s.memory s.registers } = g s)
    (h : g m.tick.machine.toStorage ≠ g m.toStorage) :
    ∃ i, m.Completes i ∧ g (i.exec m.toStorage) ≠ g m.toStorage := by
  cases change_of_tick hm h with
  | unknown phase changed => exact absurd (hu m.toStorage) changed
  | fetch i fetches changed => exact absurd (hf i m.toStorage) changed
  | effect i completes changed => exact ⟨i, completes, changed⟩

/-- What the next tick can change, place by place. -/
structure Frame (m : Machine) : Prop where
  flag : ∀ x, m.tick.machine.registers.flag x ≠ m.registers.flag x →
    ∃ i, m.Completes i ∧ x ∈ i.flags
  unused : ∀ k ∈ [5, 3, 1], Byte.bit m.tick.machine.registers.f k = Byte.bit m.registers.f k
  sp : m.tick.machine.registers.sp ≠ m.registers.sp →
    ∃ i ∈ [Instruction.lxi .sp, .inx .sp, .dcx .sp], m.Completes i
  z : m.tick.machine.registers.get .z ≠ m.registers.get .z → ∃ i, m.Fetches i ∧ 2 ≤ i.length
  w : m.tick.machine.registers.get .w ≠ m.registers.get .w → ∃ i, m.Fetches i ∧ i.length = 3
  pc : m.tick.machine.registers.pc ≠ m.registers.pc → m.phase = .idle ∨ m.Completes .jmp
  cell : ∀ a, m.tick.machine.memory.read a ≠ m.memory.read a →
    ∃ i, m.Completes i ∧ a ∈ i.stores m.registers m.registers.wz
  count : (Memory.changes m.memory m.tick.machine.memory).length ≤ 2
  single : 1 < (Memory.changes m.memory m.tick.machine.memory).length → m.Completes .shld

theorem flag_change {x : Flag} (h : m.tick.machine.registers.flag x ≠ m.registers.flag x) :
    ∃ i, m.Completes i ∧ x ∈ i.flags := by
  have hf (i : Instruction) (s : Storage) :
      (i.stage s.memory s.registers).flag x = s.registers.flag x := by
    rw [Registers.flag, Instruction.f_stage, Registers.flag]
  obtain ⟨i, hc, hne⟩ := completes_of_change hm (g := fun s => s.registers.flag x)
    (fun _ => by simp [Registers.flag]) hf h
  refine ⟨i, hc, ?_⟩
  by_contra hx
  exact hne (i.flag_exec m.toStorage hx)

/-- Every bit of F that an instruction sets is a flag. -/
theorem unused_kept {k : Nat} (hk : ∀ x : Flag, k ≠ x.position) :
    Byte.bit m.tick.machine.registers.f k = Byte.bit m.registers.f k := by
  by_contra h
  have hf (i : Instruction) (s : Storage) :
      Byte.bit (i.stage s.memory s.registers).f k = Byte.bit s.registers.f k := by
    rw [Instruction.f_stage]
  obtain ⟨i, _, hne⟩ :=
    completes_of_change hm (g := fun s => Byte.bit s.registers.f k) (fun _ => by simp) hf h
  exact hne (i.bit_f_exec m.toStorage fun x _ => hk x)

theorem sp_change (h : m.tick.machine.registers.sp ≠ m.registers.sp) :
    ∃ i ∈ [Instruction.lxi .sp, .inx .sp, .dcx .sp], m.Completes i := by
  obtain ⟨i, hc, hne⟩ := completes_of_change hm (g := fun s => s.registers.sp) (fun _ => by simp)
    (fun i s => i.sp_stage s.memory s.registers) h
  refine ⟨i, i.target?_eq_sp_iff.mp ?_, hc⟩
  by_contra ht
  exact hne (i.pair_exec m.toStorage (p := .sp) rfl ht)

theorem latch_change {x : Register} (hx : x = .w ∨ x = .z)
    (h : m.tick.machine.registers.get x ≠ m.registers.get x) :
    ∃ i, m.Fetches i ∧ (i.latch m.memory m.registers).get x ≠ m.registers.get x := by
  cases change_of_tick hm (g := fun s => s.registers.get x) h with
  | unknown phase changed => exact absurd (Registers.get_setPc _ _ _) changed
  | fetch i fetches changed =>
    rw [Instruction.get_stage] at changed
    exact ⟨i, fetches, changed⟩
  | effect i completes changed =>
    exact absurd (i.get_exec_of_latch m.toStorage hx) changed

theorem pc_change (h : m.tick.machine.registers.pc ≠ m.registers.pc) :
    m.phase = .idle ∨ m.Completes .jmp := by
  cases change_of_tick hm (g := fun s => s.registers.pc) h with
  | unknown phase changed => exact .inl phase
  | fetch i fetches changed => exact .inl fetches.1
  | effect i completes changed =>
    have hj : i = .jmp := by
      by_contra hj
      exact changed (Instruction.pc_exec m.toStorage hj)
    exact .inr (hj ▸ completes)

theorem cell_change {a : Word} (h : m.tick.machine.memory.read a ≠ m.memory.read a) :
    ∃ i, m.Completes i ∧ a ∈ i.stores m.registers m.registers.wz := by
  obtain ⟨i, hc, hne⟩ := completes_of_change hm (g := fun s => s.memory.read a) (fun _ => rfl)
    (fun _ _ => rfl) h
  refine ⟨i, hc, ?_⟩
  by_contra ha
  exact hne (i.read_exec m.toStorage ha)

omit hm in
theorem Completes.unique {i j : Instruction} (hi : m.Completes i) (hj : m.Completes j) : i = j := by
  obtain ⟨⟨e, he⟩, _⟩ := hi
  obtain ⟨⟨d, hd⟩, _⟩ := hj
  rw [he] at hd
  cases hd
  rfl

theorem length_changes_tick :
    (Memory.changes m.memory m.tick.machine.memory).length ≤ 2 ∧
      (1 < (Memory.changes m.memory m.tick.machine.memory).length → m.Completes .shld) := by
  by_cases h : ∃ a, m.tick.machine.memory.read a ≠ m.memory.read a
  · obtain ⟨a, ha⟩ := h
    obtain ⟨i, hc, _⟩ := cell_change hm ha
    have hl : (Memory.changes m.memory m.tick.machine.memory).length ≤
        (i.stores m.registers m.registers.wz).length := by
      refine Memory.length_changes_le fun b hb => ?_
      obtain ⟨j, hj, hmem⟩ := cell_change hm hb
      rwa [hj.unique hc] at hmem
    have hs := i.length_stores_le m.registers m.registers.wz
    split at hs
    · next hi => exact ⟨Nat.le_trans hl hs, fun _ => hi ▸ hc⟩
    · exact ⟨by omega, fun _ => by omega⟩
  · have hl : _ ≤ ([] : List Word).length :=
      Memory.length_changes_le fun a ha => absurd ⟨a, ha⟩ h
    rw [List.length_nil] at hl
    exact ⟨by omega, fun _ => by omega⟩

theorem frame : m.Frame where
  flag _ := flag_change hm
  unused k hk := by
    refine unused_kept hm fun x => ?_
    have hall : ∀ k ∈ [5, 3, 1], ∀ x ∈ Flag.all, k ≠ x.position := by decide
    exact hall k hk x x.mem_all
  sp := sp_change hm
  z h := by
    obtain ⟨i, hf, hne⟩ := latch_change hm (.inr rfl) h
    rw [Instruction.get_latch_z] at hne
    exact ⟨i, hf, by_contra fun hl => hne (if_neg hl)⟩
  w h := by
    obtain ⟨i, hf, hne⟩ := latch_change hm (.inl rfl) h
    rw [Instruction.get_latch_w] at hne
    exact ⟨i, hf, by_contra fun hl => hne (if_neg hl)⟩
  pc := pc_change hm
  cell _ := cell_change hm
  count := (length_changes_tick hm).1
  single := (length_changes_tick hm).2

end Latched

/-- What no tick of a run changes is the same after the run. -/
theorem tickN_kept {g : Machine → α} {k : Nat}
    (h : ∀ j < k, g (tickN j m).machine.tick.machine = g (tickN j m).machine) :
    g (tickN k m).machine = g m := by
  induction k with
  | zero => rfl
  | succ k ih =>
    rw [(tickN_succ_last k).1, h k (Nat.lt_succ_self k)]
    exact ih fun j hj => h j (Nat.lt_succ_of_lt hj)

/-- Each tick of a machine whose latch holds the opcode in flight keeps to the frame; so the bits of
F that are no flags outlast every run, and the stack pointer outlasts the runs in which no
instruction that sets it completes. -/
theorem tick_within_frame (m : Machine) (hm : m.Latched) :
    m.Frame ∧
      ∀ k,
        (∀ b ∈ [5, 3, 1], Byte.bit (tickN k m).machine.registers.f b = Byte.bit m.registers.f b) ∧
        ((∀ j < k, ∀ i ∈ [Instruction.lxi .sp, .inx .sp, .dcx .sp],
            ¬ (tickN j m).machine.Completes i) →
          (tickN k m).machine.registers.sp = m.registers.sp) := by
  have hrun (j : Nat) : (tickN j m).machine.Latched := tickN_keeps latched_tick j hm
  refine ⟨frame hm, fun k => ⟨fun b hb => ?_, fun hsp => ?_⟩⟩
  · exact tickN_kept (g := fun n => Byte.bit n.registers.f b) fun j _ =>
      (frame (hrun j)).unused b hb
  · refine tickN_kept (g := fun n => n.registers.sp) fun j hj => ?_
    by_contra hne
    obtain ⟨i, hi, hc⟩ := (frame (hrun j)).sp hne
    exact hsp j hj i hi hc

/-- The last three ticks of an instruction that sets the carry leave the stack pointer where it
was. -/
theorem stc_leaves_sp :
    let m : Machine :=
      { new (Memory.zero.write 0 0x37) with registers := Registers.zero.setPair .sp 0xBEEF }
    let n := m.tick.machine
    n.phase = .executing .stc 1 ∧ (tickN 3 n).machine.registers.sp = 0xBEEF := by
  intro m n
  have hd : Instruction.decode? m.nextOpcode = some .stc := by
    have ho : m.nextOpcode = (Memory.zero.write 0 0x37).read 0 := nextOpcode_of_pc (by simp [m])
    rw [ho, Memory.read_write_self]
    rfl
  have hn : n = m.afterFetch .stc := congrArg Run.machine (m.tick_fetch rfl (by decide) hd)
  have hp : n.phase = .executing .stc 1 := by
    rw [hn]
    rfl
  have hlatched : n.Latched := latched_tick (m := m) nofun
  have hsp : n.registers.sp = 0xBEEF := by
    rw [hn]
    exact (Instruction.sp_stage _ _ _).trans (Registers.pair_setPair _ _ _ _)
  refine ⟨hp, (((tick_within_frame n hlatched).2 3).2 fun j hj i hi hc => ?_).trans hsp⟩
  have ht : n.ticks.toNat + j < UInt64.size := by
    have hone : n.ticks.toNat = 1 := by
      rw [hn]
      rfl
    have hs : UInt64.size = 18446744073709551616 := rfl
    omega
  obtain ⟨⟨e, he⟩, _⟩ := hc
  rw [tickN_counting hp (by change 1 + j < 4; omega) ht] at he
  cases he
  simp at hi

end Machine

end Micro8080
