import Micro8080.Proofs.Tick

/-!
# Runs of ticks and of steps

Ticks given one by one or in batches make the same run. A step is a run of ticks as well: it
takes as many as it answers, and a host that stops in the middle of it and then steps gets the
rest. Only the first tick of a step can report an event or raise a fault.
-/

namespace Micro8080.Machine

variable {m n : Machine} {es : List Event}

theorem tickN_one : tickN 1 m = m.tick := m.tick.andThen_done

theorem tickN_add (a b : Nat) :
    tickN (a + b) m = (tickN a m).andThen fun _ => tickN b := by
  induction a generalizing m with
  | zero => rw [Nat.zero_add, tickN_zero, Run.done_andThen]
  | succ a ih =>
    rw [Nat.succ_add, tickN_succ, tickN_succ, Run.andThen_assoc]
    congr 1
    funext _ k
    exact ih

theorem tickN_add_of_ok {a : Nat} (h : tickN a m = ⟨n, es, .ok ()⟩) (b : Nat) :
    tickN (a + b) m = ⟨(tickN b n).machine, es ++ (tickN b n).events, (tickN b n).result⟩ := by
  rw [tickN_add, h]
  rfl

theorem tickN_succ_of_ok (h : m.tick = ⟨n, es, .ok ()⟩) (b : Nat) :
    tickN (b + 1) m = ⟨(tickN b n).machine, es ++ (tickN b n).events, (tickN b n).result⟩ := by
  rw [tickN_succ, h]
  rfl

theorem tickN_succ_of_error {s : Stop} (h : m.tick = ⟨n, es, .error s⟩) (b : Nat) :
    tickN (b + 1) m = ⟨n, es, .error s⟩ := by
  rw [tickN_succ, h]
  rfl

section Stops

variable {s : Stop}

/-- A machine that did not take one tick takes none after it. -/
theorem tick_of_tick_error (h : m.tick.result = .error s) :
    m.tick.machine.tick = .stopped m.tick.machine s := by
  cases m.tickCase with
  | halted f phase tick =>
    rw [tick] at h ⊢
    cases h
    exact tick
  | spent fault clock tick =>
    rw [tick] at h ⊢
    cases h
    exact tick
  | unknown phase clock opcode tick =>
    rw [tick] at h ⊢
    cases h
    exact m.afterUnknown.tick_of_halted rfl
  | fetch i phase clock opcode tick =>
    rw [tick] at h
    cases h
  | count i e phase clock elapsed tick =>
    rw [tick] at h
    cases h
  | effect i e phase clock elapsed tick =>
    rw [tick] at h
    cases h

theorem tick_of_tickN_error {k : Nat} (h : (tickN k m).result = .error s) :
    (tickN k m).machine.tick = .stopped (tickN k m).machine s := by
  induction k generalizing m with
  | zero => cases h
  | succ k ih =>
    rcases ht : m.tick with ⟨n, es, u | _⟩
    · rw [tickN_succ_of_error ht] at h ⊢
      have hs := tick_of_tick_error (m := m) (s := s) (by rw [ht]; exact h)
      rwa [ht] at hs
    · rw [tickN_succ_of_ok ht] at h ⊢
      exact ih h

/-- One more tick at the end, of a run that stopped as well. -/
theorem tickN_succ_last (k : Nat) :
    (tickN (k + 1) m).machine = (tickN k m).machine.tick.machine ∧
      (tickN (k + 1) m).events = (tickN k m).events ++ (tickN k m).machine.tick.events := by
  rw [tickN_add]
  cases hr : (tickN k m).result with
  | error s =>
    rw [Run.andThen_of_error hr, tick_of_tickN_error hr]
    exact ⟨rfl, (List.append_nil _).symm⟩
  | ok x =>
    rw [Run.andThen_of_ok hr, tickN_one]
    exact ⟨rfl, rfl⟩

/-- What every tick keeps is kept by a run of ticks, if it stopped as well. -/
theorem tickN_keeps {P : Machine → Prop} (h : ∀ {m : Machine}, P m → P m.tick.machine) (k : Nat)
    (hm : P m) : P (tickN k m).machine := by
  induction k with
  | zero => exact hm
  | succ k ih =>
    rw [(tickN_succ_last k).1]
    exact h ih

theorem tickN_append (a b : Nat) :
    (tickN (a + b) m).machine = (tickN b (tickN a m).machine).machine ∧
      (tickN (a + b) m).events = (tickN a m).events ++ (tickN b (tickN a m).machine).events := by
  induction b with
  | zero => exact ⟨rfl, (List.append_nil _).symm⟩
  | succ b ih =>
    obtain ⟨hm, he⟩ := ih
    obtain ⟨hml, hel⟩ := tickN_succ_last (m := m) (a + b)
    obtain ⟨hmr, her⟩ := tickN_succ_last (m := (tickN a m).machine) b
    rw [← Nat.add_assoc, hml, hel, hmr, her, hm, he, List.append_assoc]
    exact ⟨rfl, rfl⟩

end Stops

section Counting

variable {i : Instruction} {e k : Nat}

theorem tickN_counting (hp : m.phase = .executing i e) (hk : e + k < i.cycles)
    (hc : m.ticks.toNat + k < UInt64.size) :
    tickN k m = .done (m.afterCounting i (e + k) k) () := by
  induction k with
  | zero =>
    have hm : m.afterCounting i e 0 = m := by
      rw [afterCounting, ← hp, Ticks.later_zero]
    rw [tickN_zero, Nat.add_zero, hm]
  | succ k ih =>
    have hn : (m.ticks.later k).toNat = m.ticks.toNat + k := m.ticks.toNat_later (by omega)
    rw [tickN_add_of_ok (ih (by omega) (by omega)), tickN_one,
      tick_count (m.afterCounting i (e + k) k) rfl (by rw [afterCounting, hn]; omega) (by omega)]
    simp only [afterCounting, Ticks.later_later, Run.done, List.append_nil, Nat.add_assoc]

theorem step_of_executing (hp : m.phase = .executing i e) (hk : e + k + 1 = i.cycles)
    (hc : m.ticks.toNat + (k + 1) < UInt64.size) :
    m.step = ⟨m.afterEffect i (k + 1), [], .ok (k + 1)⟩ := by
  induction k generalizing m e with
  | zero => exact step_of_not_busy (m.tick_effect hp hc (by omega)) rfl
  | succ k ih =>
    have hn : (m.ticks.later 1).toNat = m.ticks.toNat + 1 := m.ticks.toNat_later (by omega)
    rw [step_of_busy (m.tick_count hp (by omega) (by omega)) rfl,
      ih (m := m.afterCounting i (e + 1) 1) rfl (by omega) (by rw [afterCounting, hn]; omega)]
    simp only [afterCounting, afterEffect, Ticks.later_later, Nat.add_comm 1 (k + 1)]
    rfl

theorem step_of_known (hp : m.phase = .idle) (hd : Instruction.decode? m.nextOpcode = some i)
    (hc : m.ticks.toNat + i.cycles < UInt64.size) :
    m.step = ⟨m.afterStep i, [.fetchOf m.registers.pc i], .ok i.cycles⟩ := by
  have hi := i.four_le_cycles
  obtain ⟨k, hk⟩ := Nat.exists_eq_add_of_le (show 2 ≤ i.cycles by omega)
  have hn : (m.ticks.later 1).toNat = m.ticks.toNat + 1 := m.ticks.toNat_later (by omega)
  rw [step_of_busy (m.tick_fetch hp (by omega) hd) rfl,
    step_of_executing (m := m.afterFetch i) (k := k) rfl (by omega) (by rw [afterFetch, hn]; omega),
    ← m.afterEffect_afterFetch hd]
  simp only [hk, Except.map, List.append_nil]
  rw [show 2 + k - 1 = k + 1 by omega, show 2 + k = k + 1 + 1 by omega]

theorem step_of_unknown (hp : m.phase = .idle) (hd : Instruction.decode? m.nextOpcode = none)
    (hc : m.ticks.toNat + 1 < UInt64.size) :
    m.step = ⟨m.afterUnknown, [.halted m.nextFault], .error (.fault m.nextFault)⟩ :=
  step_of_error (m.tick_unknown hp hc hd)

end Counting

theorem step_error_iff (h : m.tick = ⟨n, es, .ok ()⟩) (hb : n.busy = true) {s : Stop} :
    m.step.result = .error s ↔ n.step.result = .error s := by
  rw [step_of_busy h hb]
  cases n.step.result <;> simp [Except.map]

/-- An instruction in flight reports nothing and cannot fault. -/
theorem step_of_busy_quiet (hb : m.busy = true) :
    m.step.events = [] ∧ ∀ f, m.step.result ≠ .error (.fault f) := by
  -- by the cycles that are left, which go down with every tick that only counts
  induction hw : m.wait using Nat.strongRecOn generalizing m with
  | ind w ih =>
    cases m.tickCase with
    | halted f phase tick => simp [busy, phase] at hb
    | spent fault clock tick => simp [step_of_error tick]
    | unknown phase clock opcode tick => simp [busy, phase] at hb
    | fetch i phase clock opcode tick => simp [busy, phase] at hb
    | count i e phase clock elapsed tick =>
      obtain ⟨hq, hf⟩ := ih _ (hw ▸ wait_tick tick rfl) rfl rfl
      refine ⟨by rw [step_of_busy tick rfl, hq]; rfl, fun f he => ?_⟩
      exact hf f ((step_error_iff tick rfl).mp he)
    | effect i e phase clock elapsed tick => simp [step_of_not_busy tick rfl]

theorem step_ok_cases {t : Nat} (h : m.step = ⟨n, es, .ok t⟩) :
    (m.tick = ⟨n, es, .ok ()⟩ ∧ n.busy = false ∧ t = 1) ∨
      ∃ k u, m.tick = ⟨k, es, .ok ()⟩ ∧ k.busy = true ∧ k.step = ⟨n, [], .ok u⟩ ∧ t = u + 1 := by
  rcases ht : m.tick with ⟨k, fs, s | _⟩
  · rw [step_of_error ht] at h
    cases h
  · cases hb : k.busy with
    | false =>
      rw [step_of_not_busy ht hb] at h
      cases h
      exact .inl ⟨rfl, hb, rfl⟩
    | true =>
      rw [step_of_busy ht hb] at h
      rcases hs : k.step with ⟨l, gs, s | u⟩
      · rw [hs] at h
        cases h
      · have hq := (step_of_busy_quiet hb).1
        rw [hs] at h hq
        dsimp only at hq
        subst hq
        cases h
        exact .inr ⟨k, u, by rw [List.append_nil], hb, hs, rfl⟩

theorem step_fault {f : Fault} (h : m.step = ⟨n, es, .error (.fault f)⟩) :
    m.tick = ⟨n, es, .error (.fault f)⟩ := by
  rcases ht : m.tick with ⟨k, fs, s | _⟩
  · rw [step_of_error ht] at h
    cases h
    rfl
  · cases hb : k.busy with
    | false =>
      rw [step_of_not_busy ht hb] at h
      cases h
    | true =>
      have hr : m.step.result = .error (.fault f) := by rw [h]
      exact absurd ((step_error_iff ht hb).mp hr) ((step_of_busy_quiet hb).2 f)

theorem tickN_of_step {t : Nat} (h : m.step = ⟨n, es, .ok t⟩) :
    0 < t ∧ n.busy = false ∧ tickN t m = ⟨n, es, .ok ()⟩ := by
  induction t generalizing m es with
  | zero => rcases step_ok_cases h with ⟨_, _, hz⟩ | ⟨_, _, _, _, _, hz⟩ <;> omega
  | succ t ih =>
    rcases step_ok_cases h with ⟨ht, hb, hz⟩ | ⟨k, u, ht, hb, hs, hz⟩
    · obtain rfl : t = 0 := by omega
      exact ⟨Nat.one_pos, hb, tickN_one.trans ht⟩
    · obtain rfl : t = u := by omega
      obtain ⟨_, hn, hk⟩ := ih hs
      refine ⟨Nat.succ_pos _, hn, ?_⟩
      rw [tickN_succ_of_ok ht, hk, List.append_nil]

/-- A step is a run of ticks, if it stops as well. -/
theorem step_eq_tickN (m : Machine) :
    ∃ k, m.step.machine = (tickN k m).machine ∧ m.step.events = (tickN k m).events := by
  induction hw : m.wait using Nat.strongRecOn generalizing m with
  | ind w ih =>
    rcases ht : m.tick with ⟨n, es, s | _⟩
    · refine ⟨1, ?_⟩
      rw [step_of_error ht, tickN_one, ht]
      exact ⟨rfl, rfl⟩
    · cases hb : n.busy with
      | false =>
        refine ⟨1, ?_⟩
        rw [step_of_not_busy ht hb, tickN_one, ht]
        exact ⟨rfl, rfl⟩
      | true =>
        obtain ⟨k, hm, he⟩ := ih _ (hw ▸ wait_tick ht hb) n rfl
        refine ⟨k + 1, ?_⟩
        rw [step_of_busy ht hb, tickN_succ_of_ok ht, hm, he]
        exact ⟨rfl, rfl⟩

/-- Inside a step the rest of it is a step again. -/
theorem step_of_tickN {t e : Nat} (h : m.step = ⟨n, es, .ok t⟩) (he : 0 < e) (hlt : e < t) :
    ∃ k, tickN e m = ⟨k, es, .ok ()⟩ ∧ k.busy = true ∧ k.step = ⟨n, [], .ok (t - e)⟩ := by
  induction e generalizing m es t with
  | zero => omega
  | succ e ih =>
    rcases step_ok_cases h with ⟨_, _, rfl⟩ | ⟨k, u, ht, hb, hs, rfl⟩
    · omega
    · by_cases hz : e = 0
      · subst hz
        exact ⟨k, tickN_one.trans ht, hb, hs⟩
      · obtain ⟨l, hl, hlb, hls⟩ := ih hs (by omega) (by omega)
        refine ⟨l, ?_, hlb, ?_⟩
        · rw [tickN_succ_of_ok ht, hl, List.append_nil]
        · rw [hls, Nat.add_sub_add_right]

end Micro8080.Machine
