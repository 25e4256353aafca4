import Micro8080.Machine.Drive
import Micro8080.Machine.Query

/-!
# Commands of the host

Everything that a host does with a machine, as data: it drives the clock, resets, writes
registers and memory, and looks. Every command gets an answer, and a list of commands is a
session with the list of its answers.
-/

namespace Micro8080

/-- Looks at the machine and leaves it as it is. -/
inductive Inquiry where
  | register (x : Register)
  | pair (p : Pair)
  | flag (x : Flag)
  | byte (a : Word)
  | word (a : Word)
  | bytes (start n : Nat)
  | path (path : String)
  | programCounter
  | fault
deriving DecidableEq

inductive Command where
  | tick
  | tickN (n : Nat)
  | step
  | reset
  | writeRegisters (w : Registers.Write)
  | writeMemory (w : Memory.Write)
  | look (q : Inquiry)
deriving DecidableEq

inductive Answer where
  | done
  | ticks (n : Nat)
  | stopped (s : Stop)
  | refused
  | reading (r : Option Reading)
  | bytes (bs : List Byte)
  | address (a : UInt32)
  | fault (f : Option Fault)
deriving DecidableEq

/-- The machine after a command, what it reported meanwhile, and the answer. -/
structure Response where
  machine : Machine
  events : List Event
  answer : Answer

def Run.respond {α : Type} (r : Run α) (answer : α → Answer) : Response :=
  ⟨r.machine, r.events, match r.result with
    | .ok x => answer x
    | .error s => .stopped s⟩

namespace Machine

variable (m : Machine)

def look : Inquiry → Answer
  | .register x => .reading (some (.byte (m.registers.get x)))
  | .pair p => .reading (some (.word (m.registers.pair p)))
  | .flag x => .reading (some (.bit (m.registers.flag x)))
  | .byte a => .reading (some (.byte (m.memory.read a)))
  | .word a => .reading (some (.word (m.memory.readWord a)))
  | .bytes start n =>
    match m.memory.slice? start n with
    | some bs => .bytes bs
    | none => .refused
  | .path path => .reading (m.query path)
  | .programCounter => .address m.programCounter
  | .fault => .fault m.fault?

def obey : Command → Response
  | .tick => m.tick.respond fun _ => .done
  | .tickN n => (tickN n m).respond fun _ => .done
  | .step => m.step.respond .ticks
  | .reset => ⟨m.reset, [], .done⟩
  | .writeRegisters w => ⟨{ m with registers := w.perform m.registers }, [], .done⟩
  | .writeMemory w =>
    match w.perform? m.memory with
    | some memory => ⟨{ m with memory }, [], .done⟩
    | none => ⟨m, [], .refused⟩
  | .look q => ⟨m, [], m.look q⟩

/-- The machine at the end of a session. -/
def after (cs : List Command) : Machine := cs.foldl (fun n c => (n.obey c).machine) m

def answers (m : Machine) : List Command → List Answer
  | [] => []
  | c :: cs => (m.obey c).answer :: (m.obey c).machine.answers cs

/-- All that the machine reported during a session. -/
def log (m : Machine) : List Command → List Event
  | [] => []
  | c :: cs => (m.obey c).events ++ (m.obey c).machine.log cs

@[simp] theorem after_nil : m.after [] = m := rfl

@[simp] theorem after_cons (c : Command) (cs : List Command) :
    m.after (c :: cs) = (m.obey c).machine.after cs := rfl

theorem after_append (cs ds : List Command) : m.after (cs ++ ds) = (m.after cs).after ds :=
  List.foldl_append

theorem answers_append (cs ds : List Command) :
    m.answers (cs ++ ds) = m.answers cs ++ (m.after cs).answers ds := by
  induction cs generalizing m with
  | nil => rfl
  | cons c cs ih => simp [answers, ih]

end Machine

end Micro8080
