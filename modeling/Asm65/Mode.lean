-- SUMMARY: Addressing modes: names, operand sizes, and the page-zero form of a wide mode.

/-!
# Addressing modes

A mode says how the bytes after an opcode are read. The three absolute modes have a form
with a one-byte address, which reaches page zero only.
-/
namespace Asm65

inductive Mode where
  | implied
  | accumulator
  | immediate
  | absolute
  | zeroPage
  | absoluteX
  | absoluteY
  | zeroPageX
  | zeroPageY
  | relative
  | indirect
  | indirectX
  | indirectY
  | zeroPageIndirect
  | zeroPageXIndirect
  | zeroPageIndirectX
  | zeroPageIndirectY
  deriving DecidableEq, Inhabited

namespace Mode

def all : List Mode :=
  [.implied, .accumulator, .immediate, .absolute, .zeroPage, .absoluteX, .absoluteY, .zeroPageX,
    .zeroPageY, .relative, .indirect, .indirectX, .indirectY, .zeroPageIndirect,
    .zeroPageXIndirect, .zeroPageIndirectX, .zeroPageIndirectY]

theorem mem_all (m : Mode) : m ∈ all := by cases m <;> decide

def name : Mode → String
  | implied => "implied"
  | accumulator => "accumulator"
  | immediate => "immediate"
  | absolute => "absolute"
  | zeroPage => "zeroPage"
  | absoluteX => "absoluteX"
  | absoluteY => "absoluteY"
  | zeroPageX => "zeroPageX"
  | zeroPageY => "zeroPageY"
  | relative => "relative"
  | indirect => "indirect"
  | indirectX => "indirectX"
  | indirectY => "indirectY"
  | zeroPageIndirect => "zeroPageIndirect"
  | zeroPageXIndirect => "zeroPageXIndirect"
  | zeroPageIndirectX => "zeroPageIndirectX"
  | zeroPageIndirectY => "zeroPageIndirectY"

/-- The number of bytes after the opcode. -/
def operandLength : Mode → Nat
  | implied | accumulator => 0
  | immediate | relative | zeroPage | zeroPageX | zeroPageY | zeroPageIndirect
  | zeroPageXIndirect | zeroPageIndirectX | zeroPageIndirectY => 1
  | absolute | absoluteX | absoluteY | indirect | indirectX | indirectY => 2

/-- The mode reads an operand at all. -/
def takesOperand (m : Mode) : Bool := 0 < m.operandLength

/-- The mode with the same effect and a one-byte address. -/
def zeroPageForm? : Mode → Option Mode
  | absolute => some zeroPage
  | absoluteX => some zeroPageX
  | absoluteY => some zeroPageY
  | _ => none

/-- A list of alternatives, as a diagnostic names them. -/
def alternatives (modes : List Mode) : String := " or ".intercalate (modes.map name)

end Mode

end Asm65
