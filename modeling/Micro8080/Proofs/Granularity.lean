import Mathlib.Algebra.BigOperators.Ring.Finset
import Micro8080.Proofs.Timing

/-!
# Steps against ticks

A host can drive the same machine by whole instructions or by ticks. Over any number of steps
both reach the same machine with the same events, wherever a tick-driven run pauses a single
step leads back to the step-driven one, and a fault that ends the steps ends the ticks in the
same place. Nothing is assumed about the program, so it may rewrite itself.
-/

namespace Micro8080.Machine

variable {m : Machine}

theorem tickN_sum {ts : List Nat}
    (h : m.answers (List.replicate ts.length .step) = ts.map .ticks) :
    tickN ts.sum m =
      ⟨m.after (List.replicate ts.length .step), m.log (List.replicate ts.length .step),
        .ok ()⟩ := by
  induction ts generalizing m with
  | nil => rfl
  | cons t ts ih =>
    obtain ⟨ht, hs⟩ := answers_steps_cons h
    obtain ⟨_, _, hn⟩ := tickN_of_step (step_of_answer ht)
    rw [List.sum_cons, tickN_add_of_ok hn, ih hs]
    rfl

/-- A tick count between two boundaries of instructions, and the step that completes it. -/
theorem tickN_between {ts : List Nat}
    (h : m.answers (List.replicate ts.length .step) = ts.map .ticks) {j n : Nat}
    (hlo : (ts.take j).sum < n) (hhi : n < (ts.take (j + 1)).sum) :
    ∃ k es, tickN n m = ⟨k, es, .ok ()⟩ ∧ k.busy = true ∧
      k.step =
        ⟨m.after (List.replicate (j + 1) .step), [], .ok ((ts.take (j + 1)).sum - n)⟩ := by
  induction ts generalizing m j n with
  | nil => simp at hhi
  | cons t ts ih =>
    obtain ⟨ht, hs⟩ := answers_steps_cons h
    have hstep := step_of_answer ht
    rw [List.take_succ_cons, List.sum_cons] at hhi ⊢
    cases j with
    | zero =>
      simp only [List.take_zero, List.sum_nil, Nat.add_zero] at hlo hhi ⊢
      obtain ⟨k, hk, hb, hks⟩ := step_of_tickN hstep hlo hhi
      exact ⟨k, _, hk, hb, hks⟩
    | succ j =>
      rw [List.take_succ_cons, List.sum_cons] at hlo
      obtain ⟨l, rfl⟩ := Nat.exists_eq_add_of_le (show t ≤ n by omega)
      obtain ⟨k, es, hk, hb, hks⟩ := ih hs (j := j) (n := l) (by omega) (by omega)
      refine ⟨k, (m.obey .step).events ++ es, ?_, hb, ?_⟩
      · rw [tickN_add_of_ok (tickN_of_step hstep).2.2, hk]
      · rw [hks, Nat.add_sub_add_left]
        rfl

/-- A run by steps and the run by as many ticks are one run: they meet after every instruction,
a step from any point between completes the instruction there, and both end in the same fault. -/
theorem steps_eq_ticks {ts : List Nat}
    (h : m.answers (List.replicate ts.length .step) = ts.map .ticks) :
    tickN ts.sum m =
        ⟨m.after (List.replicate ts.length .step), m.log (List.replicate ts.length .step),
          .ok ()⟩ ∧
      (∀ j n, (ts.take j).sum < n → n < (ts.take (j + 1)).sum →
        (tickN n m).result = .ok () ∧ (tickN n m).machine.busy = true ∧
        (tickN n m).machine.step =
          ⟨m.after (List.replicate (j + 1) .step), [], .ok ((ts.take (j + 1)).sum - n)⟩) ∧
      ∀ f, ((m.after (List.replicate ts.length .step)).obey .step).answer = .stopped (.fault f) →
        ∀ n, ts.sum < n → (tickN n m).result = .error (.fault f) ∧
          (tickN n m).machine = m.after (List.replicate (ts.length + 1) .step) := by
  refine ⟨tickN_sum h, ?_, ?_⟩
  · intro j n hlo hhi
    obtain ⟨k, es, hk, hb, hs⟩ := tickN_between h hlo hhi
    rw [hk]
    exact ⟨rfl, hb, hs⟩
  · intro f hf n hn
    obtain ⟨l, rfl⟩ := Nat.exists_eq_add_of_lt hn
    rw [Nat.add_assoc, tickN_add_of_ok (tickN_sum h),
      tickN_succ_of_error (step_fault (step_of_fault_answer hf)),
      List.replicate_succ', after_append]
    exact ⟨rfl, rfl⟩

/-- A NOP and then an opcode without an instruction: a step completes the NOP after its first
tick, and a hundred ticks end in the fault. -/
theorem nop_then_unknown_by_ticks :
    let m := new (Memory.zero.write 1 0xFF)
    (tickN 1 m).machine.step = ⟨m.after [.step], [], .ok 3⟩ ∧
      (tickN 100 m).result = .error (.fault ⟨0xFF, 1⟩) := by
  intro m
  have hd : Instruction.decode? m.nextOpcode = some .nop := by
    have ho : m.nextOpcode = 0 := (nextOpcode_new _).trans <|
      (Memory.read_write_of_ne _ (by decide) _).trans (Memory.read_zero _)
    rw [ho]
    rfl
  have hs := step_of_known (m := m) rfl hd (by decide)
  have ha : m.answers (List.replicate [4].length .step) = [4].map .ticks := by
    simp only [List.length_singleton, List.replicate_one, answers, obey, hs, Run.respond]
    rfl
  have hn : m.after (List.replicate [4].length .step) = m.afterStep .nop := by
    simp only [List.length_singleton, List.replicate_one, after_cons, after_nil, obey, hs,
      Run.respond]
  have hf : ((m.after (List.replicate [4].length .step)).obey .step).answer =
      .stopped (.fault ⟨0xFF, 1⟩) := by
    rw [hn]
    have hpc : (m.afterStep .nop).registers.pc = 1 := by
      rw [pc_afterStep (i := .nop) (by decide), pc_new]
      rfl
    have ho : (m.afterStep .nop).nextOpcode = 0xFF :=
      (nextOpcode_of_pc hpc).trans (Memory.read_write_self _ _ _)
    have hu := step_of_unknown (m := m.afterStep .nop) rfl (by rw [ho]; rfl) (by decide)
    simp only [obey, hu, Run.respond, nextFault, ho, hpc]
  obtain ⟨_, hmid, hend⟩ := steps_eq_ticks ha
  exact ⟨(hmid 0 1 (by decide) (by decide)).2.2, (hend _ hf 100 (by decide)).1⟩

end Micro8080.Machine
