import Micro8080.Proofs.Drive

/-!
# Sessions

A session is what a host does with a machine from one command to the next. `Stable` properties
are those that ticks and writes of the host keep; every command but a reset keeps them too, and
one that new machines have holds at the end of every session. A host that gives a tick or a step
as one command sees the run of it, which is how the runs of `tickN` become sessions.
-/

namespace Micro8080

/-- What a command writes itself, apart from what it makes the machine do. -/
def Command.write (c : Command) (s : Storage) : Storage :=
  match c with
  | .writeRegisters w => { s with registers := w.perform s.registers }
  | .writeMemory w => { s with memory := (w.perform? s.memory).getD s.memory }
  | .tick | .tickN _ | .step | .reset | .look _ => s

/-- The storage after the writes of a session, in their order. -/
def Storage.written (s : Storage) (cs : List Command) : Storage :=
  cs.foldl (fun s c => c.write s) s

/-- A write of the host to registers or memory. -/
def Command.writes : Command → Bool
  | .writeRegisters _ | .writeMemory _ => true
  | .tick | .tickN _ | .step | .reset | .look _ => false

/-- A command that only drives the clock. -/
def Command.drives : Command → Bool
  | .tick | .tickN _ | .step => true
  | .reset | .writeRegisters _ | .writeMemory _ | .look _ => false

theorem Command.write_of_not_writes {c : Command} (hc : c.writes = false) (s : Storage) :
    c.write s = s := by
  cases c with
  | writeRegisters w => cases hc
  | writeMemory w => cases hc
  | _ => rfl

@[simp] theorem Storage.written_nil (s : Storage) : s.written [] = s := rfl

@[simp] theorem Storage.written_cons (s : Storage) (c : Command) (cs : List Command) :
    s.written (c :: cs) = (c.write s).written cs := rfl

theorem Run.result_of_stopped {α : Type} {r : Run α} {answer : α → Answer} {s : Stop}
    (h : (r.respond answer).answer = .stopped s) (ha : ∀ x, answer x ≠ .stopped s) :
    r.result = .error s := by
  obtain ⟨n, es, t | x⟩ := r
  · exact congrArg Except.error (Answer.stopped.inj h)
  · exact absurd h (ha x)

namespace Machine

variable {m n : Machine} {es : List Event} {P : Machine → Prop}

theorem obey_of_writes {c : Command} (hc : c.writes = true) :
    (m.obey c).machine = { m with toStorage := c.write m.toStorage } := by
  cases c with
  | writeRegisters w => rfl
  | writeMemory w =>
    simp only [obey, Command.write]
    cases w.perform? m.memory <;> rfl
  | _ => cases hc

structure Stable (P : Machine → Prop) : Prop where
  tick : ∀ {m : Machine}, P m → P m.tick.machine
  registers : ∀ {m : Machine} (r : Registers), P m → P { m with registers := r }
  memory : ∀ {m : Machine} (memory : Memory), P m → P { m with memory }

namespace Stable

variable (h : Stable P)

include h

theorem tickN (k : Nat) (hm : P m) : P (tickN k m).machine := tickN_keeps h.tick k hm

theorem step (hm : P m) : P m.step.machine := by
  induction hw : m.wait using Nat.strongRecOn generalizing m with
  | ind w ih =>
    have hn := h.tick hm
    rcases ht : m.tick with ⟨n, es, s | _⟩ <;> rw [ht] at hn
    · rw [step_of_error ht]
      exact hn
    · cases hb : n.busy with
      | false =>
        rw [step_of_not_busy ht hb]
        exact hn
      | true =>
        rw [step_of_busy ht hb]
        exact ih _ (hw ▸ wait_tick ht hb) hn rfl

theorem obey {c : Command} (hc : c = .reset → P m.reset) (hm : P m) : P (m.obey c).machine := by
  cases c with
  | tick => exact h.tick hm
  | tickN k => exact h.tickN k hm
  | step => exact h.step hm
  | reset => exact hc rfl
  | writeRegisters w => exact h.registers _ hm
  | writeMemory w =>
    simp only [Machine.obey]
    cases w.perform? m.memory with
    | none => exact hm
    | some memory => exact h.memory memory hm
  | look q => exact hm

theorem after (hnew : ∀ memory, P (new memory)) (cs : List Command) (hm : P m) :
    P (m.after cs) := by
  induction cs generalizing m with
  | nil => exact hm
  | cons c cs ih => exact ih (h.obey (fun _ => hnew m.memory) hm)

end Stable

/-- A run of ticks without a stop is what a host sees that gives the ticks one by one. -/
theorem session_of_tickN {k : Nat} (h : tickN k m = ⟨n, es, .ok ()⟩) :
    m.answers (List.replicate k .tick) = List.replicate k .done ∧
      m.after (List.replicate k .tick) = n ∧ m.log (List.replicate k .tick) = es := by
  induction k generalizing m es with
  | zero =>
    cases h
    exact ⟨rfl, rfl, rfl⟩
  | succ k ih =>
    rcases ht : m.tick with ⟨l, fs, s | _⟩
    · rw [tickN_succ_of_error ht] at h
      cases h
    · rcases hl : tickN k l with ⟨j, gs, s | _⟩ <;> rw [tickN_succ_of_ok ht, hl] at h <;> cases h
      obtain ⟨ha, hm, he⟩ := ih hl
      have ho : m.obey .tick = ⟨l, fs, .done⟩ := by simp only [obey, ht, Run.respond]
      refine ⟨?_, ?_, ?_⟩
      · rw [List.replicate_succ, answers, ho, ha, List.replicate_succ]
      · rw [List.replicate_succ, after_cons, ho, hm]
      · rw [List.replicate_succ, log, ho, he]

theorem obey_eq_tickN {c : Command} (hc : c.drives = true) :
    ∃ k, (m.obey c).machine = (tickN k m).machine ∧ (m.obey c).events = (tickN k m).events := by
  cases c with
  | tick => exact ⟨1, by rw [tickN_one]; exact ⟨rfl, rfl⟩⟩
  | tickN k => exact ⟨k, rfl, rfl⟩
  | step => exact step_eq_tickN m
  | _ => cases hc

/-- However a host divides a run into commands, it is a run of single ticks. -/
theorem session_eq_tickN {cs : List Command} (hcs : ∀ c ∈ cs, c.drives = true) :
    ∃ k, m.after cs = (tickN k m).machine ∧ m.log cs = (tickN k m).events := by
  induction cs generalizing m with
  | nil => exact ⟨0, rfl, rfl⟩
  | cons c cs ih =>
    obtain ⟨hhead, htail⟩ := List.forall_mem_cons.mp hcs
    obtain ⟨a, hm, he⟩ := obey_eq_tickN (m := m) hhead
    obtain ⟨b, hn, hl⟩ := ih (m := (m.obey c).machine) htail
    obtain ⟨hab, heab⟩ := tickN_append (m := m) a b
    exact ⟨a + b, by rw [after_cons, hn, hm, hab], by rw [log, hl, he, hm, heab]⟩

theorem step_of_answer {t : Nat} (h : (m.obey .step).answer = .ticks t) :
    m.step = ⟨(m.obey .step).machine, (m.obey .step).events, .ok t⟩ := by
  rcases hs : m.step with ⟨n, es, s | u⟩ <;> simp only [obey, hs, Run.respond] at h ⊢ <;> cases h
  rfl

theorem step_of_fault_answer {f : Fault} (h : (m.obey .step).answer = .stopped (.fault f)) :
    m.step = ⟨(m.obey .step).machine, (m.obey .step).events, .error (.fault f)⟩ := by
  rcases hs : m.step with ⟨n, es, s | u⟩ <;> simp only [obey, hs, Run.respond] at h ⊢ <;> cases h
  rfl

/-- The first step of a session of steps, and the session that is left. -/
theorem answers_steps_cons {t : Nat} {ts : List Nat}
    (h : m.answers (List.replicate (t :: ts).length .step) = (t :: ts).map .ticks) :
    (m.obey .step).answer = .ticks t ∧
      (m.obey .step).machine.answers (List.replicate ts.length .step) = ts.map .ticks := by
  rw [List.length_cons, List.replicate_succ, answers, List.map_cons] at h
  exact List.cons.inj h

end Machine

end Micro8080
