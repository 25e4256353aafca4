import Micro8080.Registers

/-!
# Operands of instructions

Instructions name their operands by small codes. A byte operand is one of seven registers or,
for code 6, the memory cell at HL. A word operand is BC, DE, HL or SP, and the indirect
accumulator moves go through BC or DE only.
-/

namespace Micro8080

/-- A register that an instruction can name. -/
inductive Gpr where
  | b
  | c
  | d
  | e
  | h
  | l
  | a
deriving DecidableEq

def Gpr.register : Gpr → Register
  | .b => .b
  | .c => .c
  | .d => .d
  | .e => .e
  | .h => .h
  | .l => .l
  | .a => .a

def Gpr.code : Gpr → Nat
  | .b => 0
  | .c => 1
  | .d => 2
  | .e => 3
  | .h => 4
  | .l => 5
  | .a => 7

inductive Operand where
  | reg (r : Gpr)
  | memory
deriving DecidableEq

namespace Operand

def code : Operand → Nat
  | .reg r => r.code
  | .memory => 6

/-- The operand that the low three bits name. -/
def ofCode (n : Nat) : Operand :=
  match n % 8 with
  | 0 => .reg .b
  | 1 => .reg .c
  | 2 => .reg .d
  | 3 => .reg .e
  | 4 => .reg .h
  | 5 => .reg .l
  | 6 => .memory
  | _ => .reg .a

def register? : Operand → Option Register
  | .reg r => some r.register
  | .memory => none

end Operand

/-- A word operand. -/
inductive Wide where
  | bc
  | de
  | hl
  | sp
deriving DecidableEq

namespace Wide

def pair : Wide → Pair
  | .bc => .bc
  | .de => .de
  | .hl => .hl
  | .sp => .sp

def code : Wide → Nat
  | .bc => 0
  | .de => 1
  | .hl => 2
  | .sp => 3

/-- The pair that the low two bits name. -/
def ofCode (n : Nat) : Wide :=
  match n % 4 with
  | 0 => .bc
  | 1 => .de
  | 2 => .hl
  | _ => .sp

@[simp] theorem pair_ne_pc (rp : Wide) : rp.pair ≠ .pc := by
  cases rp <;> nofun

@[simp] theorem pair_ne_wz (rp : Wide) : rp.pair ≠ .wz := by
  cases rp <;> nofun

end Wide

/-- A pair that addresses the cell of an indirect accumulator move. -/
inductive Indirect where
  | bc
  | de
deriving DecidableEq

namespace Indirect

def pair : Indirect → Pair
  | .bc => .bc
  | .de => .de

def code : Indirect → Nat
  | .bc => 0
  | .de => 1

@[simp] theorem pair_ne_pc (rp : Indirect) : rp.pair ≠ .pc := by
  cases rp <;> nofun

@[simp] theorem pair_ne_wz (rp : Indirect) : rp.pair ≠ .wz := by
  cases rp <;> nofun

end Indirect

end Micro8080
