import Micro8080.Machine

/-!
# Readings of a machine

Whoever looks at a machine gets a reading: a bit, a byte, a word or a counter. Gauges show the
registers, pairs and flags, and what the control part keeps, under fixed names. A path is such a
name, or `mem.` and the address of a cell in hexadecimal: any number of `0x` marks may stand
before the address, then one plus sign, and leading zeros and either case of the digits are
accepted. Other paths have no answer, and looking never changes the machine.
-/

namespace Micro8080

inductive Reading where
  | bit (b : Bool)
  | byte (b : Byte)
  | word (w : Word)
  | count (n : UInt64)
deriving DecidableEq

namespace Reading

def spell : Reading → List Char
  | .bit true => ['t', 'r', 'u', 'e']
  | .bit false => ['f', 'a', 'l', 's', 'e']
  | .byte b => '0' :: 'x' :: Numeral.padded 16 2 b.toNat
  | .word w => '0' :: 'x' :: Numeral.padded 16 4 w.toNat
  | .count n => Numeral.digits n.toNat

def display (r : Reading) : String := String.ofList r.spell

/-- The kind of a reading and its content, numbers in decimal. -/
def describe : Reading → String
  | .bit true => "Bool(true)"
  | .bit false => "Bool(false)"
  | .byte b => "U8(" ++ String.ofList (Numeral.digits b.toNat) ++ ")"
  | .word w => "U16(" ++ String.ofList (Numeral.digits w.toNat) ++ ")"
  | .count n => "U64(" ++ String.ofList (Numeral.digits n.toNat) ++ ")"

end Reading

inductive Gauge where
  | register (x : Register)
  | pair (p : Pair)
  | flag (x : Flag)
  | ticks
  | opcode
  | cycle
  | busy
  | faulted
deriving DecidableEq

namespace Gauge

def ofName? : String → Option Gauge
  | "a" => some (.register .a)
  | "f" => some (.register .f)
  | "b" => some (.register .b)
  | "c" => some (.register .c)
  | "d" => some (.register .d)
  | "e" => some (.register .e)
  | "h" => some (.register .h)
  | "l" => some (.register .l)
  | "w" => some (.register .w)
  | "z" => some (.register .z)
  | "bc" => some (.pair .bc)
  | "de" => some (.pair .de)
  | "hl" => some (.pair .hl)
  | "wz" => some (.pair .wz)
  | "sp" => some (.pair .sp)
  | "pc" => some (.pair .pc)
  | "flags.s" => some (.flag .sign)
  | "flags.z" => some (.flag .zero)
  | "flags.ac" => some (.flag .auxCarry)
  | "flags.p" => some (.flag .parity)
  | "flags.c" => some (.flag .carry)
  | "ticks" => some .ticks
  | "opcode" => some .opcode
  | "cycle" => some .cycle
  | "busy" => some .busy
  | "faulted" => some .faulted
  | _ => none

def name : Gauge → String
  | .register .a => "a"
  | .register .f => "f"
  | .register .b => "b"
  | .register .c => "c"
  | .register .d => "d"
  | .register .e => "e"
  | .register .h => "h"
  | .register .l => "l"
  | .register .w => "w"
  | .register .z => "z"
  | .pair .bc => "bc"
  | .pair .de => "de"
  | .pair .hl => "hl"
  | .pair .wz => "wz"
  | .pair .sp => "sp"
  | .pair .pc => "pc"
  | .flag .sign => "flags.s"
  | .flag .zero => "flags.z"
  | .flag .auxCarry => "flags.ac"
  | .flag .parity => "flags.p"
  | .flag .carry => "flags.c"
  | .ticks => "ticks"
  | .opcode => "opcode"
  | .cycle => "cycle"
  | .busy => "busy"
  | .faulted => "faulted"

def read (g : Gauge) (m : Machine) : Reading :=
  match g with
  | .register x => .byte (m.registers.get x)
  | .pair p => .word (m.registers.pair p)
  | .flag x => .bit (m.registers.flag x)
  | .ticks => .count m.ticks.count
  | .opcode => .byte m.opcode
  | .cycle => .byte (UInt8.ofNat m.cycle)
  | .busy => .bit m.busy
  | .faulted => .bit m.fault?.isSome

theorem ofName?_name (g : Gauge) : ofName? g.name = some g := by
  cases g with
  | register x => cases x <;> rfl
  | pair p => cases p <;> rfl
  | flag x => cases x <;> rfl
  | _ => rfl

theorem ofName?_eq_some_iff {name : String} {g : Gauge} :
    ofName? name = some g ↔ g.name = name := by
  refine ⟨fun h => ?_, fun h => h ▸ ofName?_name g⟩
  unfold ofName? at h
  split at h <;> cases h <;> rfl

end Gauge

namespace Path

/-- What follows the `mem.` of a path to a cell. -/
def cell? : List Char → Option (List Char)
  | 'm' :: 'e' :: 'm' :: '.' :: cs => some cs
  | _ => none

def dropMarks : List Char → List Char
  | '0' :: 'x' :: cs => dropMarks cs
  | cs => cs

def dropPlus : List Char → List Char
  | '+' :: cs => cs
  | cs => cs

def address? (cs : List Char) : Option Word :=
  ((Numeral.value? 16 (dropPlus (dropMarks cs))).filter (· < Memory.size)).map UInt16.ofNat

end Path

namespace Machine

def query (m : Machine) (path : String) : Option Reading :=
  match Path.cell? path.toList with
  | some address => (Path.address? address).map fun a => .byte (m.memory.read a)
  | none => (Gauge.ofName? path).map (·.read m)

/-- The paths that a machine names itself; it does not list its cells. -/
def queryPaths : List String :=
  ["a", "f", "b", "c", "d", "e", "h", "l",
    "w", "z",
    "bc", "de", "hl", "wz",
    "sp", "pc",
    "flags.s", "flags.z", "flags.ac", "flags.p", "flags.c",
    "ticks", "opcode", "cycle", "busy", "faulted"]

/-- The paths that are listed are those that a gauge answers to. -/
theorem mem_queryPaths_iff {path : String} : path ∈ queryPaths ↔ ∃ g : Gauge, g.name = path := by
  constructor
  · intro h
    have hall : ∀ p ∈ queryPaths, (Gauge.ofName? p).isSome := by decide
    obtain ⟨g, hg⟩ := Option.isSome_iff_exists.mp (hall path h)
    exact ⟨g, Gauge.ofName?_eq_some_iff.mp hg⟩
  · rintro ⟨g, rfl⟩
    cases g with
    | register x => cases x <;> decide
    | pair p => cases p <;> decide
    | flag x => cases x <;> decide
    | _ => decide

theorem query_name {m : Machine} (g : Gauge) : m.query g.name = some (g.read m) := by
  have hall : ∀ p ∈ queryPaths, Path.cell? p.toList = none := by decide
  simp [query, hall g.name (mem_queryPaths_iff.mpr ⟨g, rfl⟩), Gauge.ofName?_name]

end Machine

end Micro8080
