import Micro8080.Instruction.Timing
import Micro8080.Machine

/-!
# Runs

A run is what becomes of a machine that its host drives: the machine afterwards, the events
that it reported on the way, and a result. A run that stops keeps the machine as the stop left
it. `andThen` puts runs one after the other up to the first stop.
-/

namespace Micro8080

/-- A fetch is reported with the length and the cycles of the instruction. -/
inductive Event where
  | fetched (opcode : Byte) (address : Word) (length cycles : Nat)
  | halted (f : Fault)
deriving DecidableEq

/-- The report of a fetch of `i`, with what the tables list for it. -/
def Event.fetchOf (address : Word) (i : Instruction) : Event :=
  .fetched i.opcode address i.length i.cycles

/-- The reason why a machine did not do what it was asked for. -/
inductive Stop where
  | fault (f : Fault)
  | clockSpent
deriving DecidableEq

structure Run (α : Type) where
  machine : Machine
  events : List Event
  result : Except Stop α

namespace Run

variable {α β γ : Type} (r : Run α) (m : Machine)

def done (x : α) : Run α := ⟨m, [], .ok x⟩

def stopped (s : Stop) : Run α := ⟨m, [], .error s⟩

def andThen (next : α → Machine → Run β) : Run β :=
  match r.result with
  | .error s => ⟨r.machine, r.events, .error s⟩
  | .ok x =>
    let t := next x r.machine
    ⟨t.machine, r.events ++ t.events, t.result⟩

theorem andThen_of_ok {r : Run α} {x : α} (h : r.result = .ok x) (next : α → Machine → Run β) :
    r.andThen next =
      ⟨(next x r.machine).machine, r.events ++ (next x r.machine).events,
        (next x r.machine).result⟩ := by
  rw [andThen, h]

theorem andThen_of_error {r : Run α} {s : Stop} (h : r.result = .error s)
    (next : α → Machine → Run β) : r.andThen next = ⟨r.machine, r.events, .error s⟩ := by
  rw [andThen, h]

@[simp] theorem done_andThen (x : α) (next : α → Machine → Run β) :
    (done m x).andThen next = next x m := rfl

@[simp] theorem andThen_done (r : Run Unit) : (r.andThen fun x n => done n x) = r := by
  obtain ⟨n, es, _ | x⟩ := r
  · rfl
  · simp [andThen, done]

theorem andThen_assoc (f : α → Machine → Run β) (g : β → Machine → Run γ) :
    (r.andThen f).andThen g = r.andThen fun x n => (f x n).andThen g := by
  obtain ⟨n, es, s | x⟩ := r
  · rfl
  · obtain ⟨k, fs, hr⟩ : ∃ k fs, f x n = ⟨k, fs, (f x n).result⟩ := ⟨_, _, rfl⟩
    cases hres : (f x n).result with
    | error s => simp [andThen, hres]
    | ok y => simp [andThen, hres, List.append_assoc]

end Run

end Micro8080
