import Mathlib.Algebra.BigOperators.Ring.Finset
import Micro8080.Proofs.FaultLatch
import Micro8080.Proofs.Timing

/-!
# Batches of ticks

A batch of ticks is a run of its own, and one batch after the other is the batch of all of them,
up to the first stop. A fault arises on one certain tick: batches that end before it go through,
and all that reach it end there, with the same machine. So it makes no difference how a host cuts
a run into batches, nor whether it goes on behind a fault.
-/

namespace Micro8080.Machine

variable {m : Machine} {s : Stop} {f : Fault} {k n : Nat}

/-- How a tick ends, and what it counts. -/
inductive Outcome (m : Machine) : Prop
  | through (before : m.fault? = none) (result : m.tick.result = .ok ())
      (after : m.tick.machine.fault? = none)
      (ticks : m.tick.machine.ticks.toNat = m.ticks.toNat + 1)
  | broken (f : Fault) (before : m.fault? = none) (result : m.tick.result = .error (.fault f))
      (ticks : m.tick.machine.ticks.toNat = m.ticks.toNat + 1)
  | latched (f : Fault) (before : m.fault? = some f) (result : m.tick.result = .error (.fault f))
  | spent (clock : UInt64.size ≤ m.ticks.toNat + 1)
      (result : m.tick.result = .error .clockSpent)

theorem outcome (m : Machine) : m.Outcome := by
  cases m.tickCase with
  | halted f phase tick => exact .latched f ((m.fault?_eq_some_iff f).mpr phase) (by rw [tick]; rfl)
  | spent fault clock tick => exact .spent clock (by rw [tick]; rfl)
  | unknown phase clock opcode tick =>
    refine .broken m.nextFault (m.idle_iff.mp phase).2 ?_ ?_
    · rw [tick]
    · rw [tick]
      exact m.ticks.toNat_later clock
  | fetch i phase clock opcode tick =>
    refine .through (m.idle_iff.mp phase).2 ?_ ?_ ?_ <;> rw [tick]
    · rfl
    · exact m.ticks.toNat_later clock
  | count i e phase clock elapsed tick =>
    refine .through (by rw [fault?, phase]) ?_ ?_ ?_ <;> rw [tick]
    · rfl
    · rfl
    · exact m.ticks.toNat_later clock
  | effect i e phase clock elapsed tick =>
    refine .through (by rw [fault?, phase]) ?_ ?_ ?_ <;> rw [tick]
    · rfl
    · rfl
    · exact m.ticks.toNat_later clock

theorem tick_through (h : m.tick.result = .ok ()) :
    m.tick.machine.fault? = none ∧ m.tick.machine.ticks.toNat = m.ticks.toNat + 1 := by
  cases m.outcome with
  | through before result after ticks => exact ⟨after, ticks⟩
  | broken f before result ticks =>
    rw [result] at h
    cases h
  | latched f before result =>
    rw [result] at h
    cases h
  | spent clock result =>
    rw [result] at h
    cases h

/-- The tick that raises a fault is counted. -/
theorem ticks_of_tick_fault (hf : m.fault? = none) (h : m.tick.result = .error (.fault f)) :
    m.tick.machine.ticks.toNat = m.ticks.toNat + 1 := by
  cases m.outcome with
  | through before result after ticks => exact ticks
  | broken g before result ticks => exact ticks
  | latched g before result =>
    rw [hf] at before
    cases before
  | spent clock result =>
    rw [result] at h
    cases h

theorem tick_ne_spent (hc : m.ticks.toNat + 1 < UInt64.size) :
    m.tick.result ≠ .error .clockSpent := by
  cases m.outcome with
  | through before result after ticks =>
    rw [result]
    nofun
  | broken f before result ticks =>
    rw [result]
    nofun
  | latched f before result =>
    rw [result]
    nofun
  | spent clock result => omega

theorem tickN_of_error (h : (tickN k m).result = .error s) (hk : k ≤ n) :
    tickN n m = tickN k m := by
  obtain ⟨j, rfl⟩ := Nat.exists_eq_add_of_le hk
  rw [tickN_add, Run.andThen_of_error h, ← h]

/-- The last tick of a batch that went through before it. -/
theorem tickN_succ_of_through (h : (tickN n m).result = .ok ()) :
    (tickN (n + 1) m).result = (tickN n m).machine.tick.result := by
  rw [tickN_add, Run.andThen_of_ok h, tickN_one]

theorem tickN_through_of_succ (h : (tickN (n + 1) m).result = .ok ()) :
    (tickN n m).result = .ok () := by
  cases hr : (tickN n m).result with
  | ok x => rfl
  | error s =>
    rw [tickN_of_error hr (Nat.le_succ n), hr] at h
    cases h

theorem ticks_of_tickN (h : (tickN n m).result = .ok ()) :
    (tickN n m).machine.ticks.toNat = m.ticks.toNat + n := by
  induction n with
  | zero => rfl
  | succ n ih =>
    have hn := tickN_through_of_succ h
    rw [tickN_succ_of_through hn] at h
    rw [(tickN_succ_last n).1, (tick_through h).2, ih hn, Nat.add_assoc]

theorem fault?_of_tickN (hf : m.fault? = none) (h : (tickN n m).result = .ok ()) :
    (tickN n m).machine.fault? = none := by
  cases n with
  | zero => exact hf
  | succ n =>
    rw [tickN_succ_of_through (tickN_through_of_succ h)] at h
    rw [(tickN_succ_last n).1]
    exact (tick_through h).1

theorem tickN_ne_spent (hc : m.ticks.toNat + n < UInt64.size) :
    (tickN n m).result ≠ .error .clockSpent := by
  induction n with
  | zero => nofun
  | succ n ih =>
    cases hr : (tickN n m).result with
    | error s =>
      rw [tickN_of_error hr (Nat.le_succ n)]
      exact ih (by omega)
    | ok x =>
      rw [tickN_succ_of_through hr]
      exact tick_ne_spent (by rw [ticks_of_tickN hr]; omega)

/-- The fault `f` arises on tick `k`. -/
structure Breaks (m : Machine) (k : Nat) (f : Fault) : Prop where
  pos : 1 ≤ k
  before : (tickN (k - 1) m).result = .ok ()
  fault : (tickN k m).result = .error (.fault f)

theorem exists_breaks (h : (tickN n m).result = .error (.fault f)) : ∃ k ≤ n, m.Breaks k f := by
  induction n with
  | zero => cases h
  | succ n ih =>
    cases hr : (tickN n m).result with
    | ok x => exact ⟨n + 1, Nat.le_refl _, Nat.succ_pos n, hr, h⟩
    | error s =>
      rw [tickN_of_error hr (Nat.le_succ n)] at h
      obtain ⟨k, hk, hb⟩ := ih h
      exact ⟨k, Nat.le_succ_of_le hk, hb⟩

namespace Breaks

variable (h : m.Breaks k f)

include h

theorem tickN_of_le (hk : k ≤ n) : tickN n m = tickN k m := tickN_of_error h.fault hk

theorem not_lt {j : Nat} {g : Fault} (hj : m.Breaks j g) : ¬k < j := by
  intro hlt
  have hb := hj.before
  rw [h.tickN_of_le (by omega), h.fault] at hb
  cases hb

theorem unique {j : Nat} {g : Fault} (hj : m.Breaks j g) : j = k :=
  Nat.le_antisymm (Nat.not_lt.mp (h.not_lt hj)) (Nat.not_lt.mp (hj.not_lt h))

theorem ticks (hf : m.fault? = none) : (tickN k m).machine.ticks.toNat = m.ticks.toNat + k := by
  obtain ⟨j, rfl⟩ := Nat.exists_eq_add_of_le' h.pos
  have hj : (tickN j m).result = .ok () := h.before
  have hlast := h.fault
  rw [tickN_succ_of_through hj] at hlast
  rw [(tickN_succ_last j).1, ticks_of_tick_fault (fault?_of_tickN hf hj) hlast, ticks_of_tickN hj,
    Nat.add_assoc]

end Breaks

/-- Batches one after the other, up to the first that stops. -/
def batches : List Nat → Machine → Run Unit
  | [], m => .done m ()
  | n :: ns, m => (tickN n m).andThen fun _ => batches ns

theorem batches_eq_tickN (ns : List Nat) : batches ns m = tickN ns.sum m := by
  induction ns generalizing m with
  | nil => rfl
  | cons n ns ih =>
    rw [batches, List.sum_cons, tickN_add]
    congr 1
    funext _ l
    exact ih

/-- The batches of a host that does not mind their answers. -/
theorem session_of_batches (ns : List Nat) :
    m.after (ns.map .tickN) = (tickN ns.sum m).machine ∧
      m.log (ns.map .tickN) = (tickN ns.sum m).events := by
  induction ns generalizing m with
  | nil => exact ⟨rfl, rfl⟩
  | cons n ns ih =>
    obtain ⟨hm, he⟩ := tickN_append (m := m) n ns.sum
    obtain ⟨ihm, ihe⟩ := ih (m := (tickN n m).machine)
    rw [List.map_cons, List.sum_cons, after_cons, log, hm, he]
    exact ⟨ihm, congrArg _ ihe⟩

/-- Batches compose, they count what they tick, and a fault ends all of them that reach its tick
alike; so a run has one end, whatever the batches that it is cut into. -/
theorem batches_compose (m : Machine) :
    (∀ a b, tickN (a + b) m = (tickN a m).andThen fun _ => tickN b) ∧
    (∀ n, m.ticks.toNat + n < UInt64.size →
      (tickN n m).result = .ok () ∨ ∃ f, (tickN n m).result = .error (.fault f)) ∧
    (∀ n, (tickN n m).result = .ok () →
      (tickN n m).machine.ticks.toNat = m.ticks.toNat + n) ∧
    (∀ n f, m.fault? = none → (tickN n m).result = .error (.fault f) →
      ∃ k ≤ n, m.Breaks k f ∧ (∀ j g, m.Breaks j g → j = k) ∧
        (tickN k m).machine.ticks.toNat = m.ticks.toNat + k ∧
        ∀ l, k ≤ l → tickN l m = tickN k m) ∧
    (∀ n f, m.fault? = some f → 1 ≤ n → tickN n m = .stopped m (.fault f)) ∧
    ∀ ns : List Nat, batches ns m = tickN ns.sum m ∧
      m.after (ns.map .tickN) = (tickN ns.sum m).machine ∧
      m.log (ns.map .tickN) = (tickN ns.sum m).events := by
  refine ⟨fun a b => tickN_add a b, ?_, fun n => ticks_of_tickN, ?_, ?_, ?_⟩
  · intro n hc
    cases hr : (tickN n m).result with
    | ok x => exact .inl rfl
    | error s =>
      cases s with
      | fault f => exact .inr ⟨f, rfl⟩
      | clockSpent => exact absurd hr (tickN_ne_spent hc)
  · intro n f hf h
    obtain ⟨k, hk, hb⟩ := exists_breaks h
    exact ⟨k, hk, hb, fun j g => hb.unique, hb.ticks hf, fun l => hb.tickN_of_le⟩
  · intro n f hf hn
    obtain ⟨j, rfl⟩ := Nat.exists_eq_add_of_le' hn
    exact tickN_of_halted ((m.fault?_eq_some_iff f).mp hf) j
  · intro ns
    exact ⟨batches_eq_tickN ns, session_of_batches ns⟩

/-- A NOP in front of an unknown opcode: the fifth tick breaks, and batches of any size that reach
it end there. -/
theorem batches_end_on_fifth_tick :
    let m := new (Memory.zero.write 1 0xFF)
    (tickN 5 m).machine.ticks.toNat = 5 ∧ tickN 100 m = tickN 5 m ∧
      m.after [.tickN 2, .tickN 90, .tickN 8] = (tickN 5 m).machine := by
  intro m
  have hnop : m.nextOpcode = 0 := (nextOpcode_new _).trans <|
    (Memory.read_write_of_ne _ (by decide) _).trans (Memory.read_zero _)
  have hs := step_of_known (m := m) (i := .nop) rfl (by rw [hnop]; rfl) (by decide)
  let n := m.afterStep .nop
  have h4 : tickN 4 m = ⟨n, [.fetchOf m.registers.pc .nop], .ok ()⟩ := (tickN_of_step hs).2.2
  have hpc : (m.afterStep .nop).registers.pc = 1 := by
    rw [pc_afterStep (i := .nop) (by decide), pc_new]
    rfl
  have hunknown : n.nextOpcode = 0xFF :=
    (nextOpcode_of_pc hpc).trans (Memory.read_write_self _ _ _)
  have ht := n.tick_unknown rfl (by decide) (by rw [hunknown]; rfl)
  have h4' : (tickN 4 m).result = .ok () := by rw [h4]
  have h5 : (tickN 5 m).result = .error (.fault n.nextFault) := by
    rw [tickN_succ_of_through h4', h4, ht]
  obtain ⟨-, -, -, hbreak, -, hcut⟩ := batches_compose m
  obtain ⟨k, -, -, hunique, hticks, hend⟩ := hbreak 5 _ rfl h5
  obtain rfl := hunique 5 n.nextFault ⟨by decide, h4', h5⟩
  refine ⟨hticks, hend 100 (by decide), ?_⟩
  rw [← hend 100 (by decide)]
  exact (hcut [2, 90, 8]).2.1

end Micro8080.Machine
