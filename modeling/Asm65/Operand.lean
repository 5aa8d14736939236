-- SUMMARY: Operands: the expression text, the punctuation around it, and the modes it can mean.
import Asm65.Diagnostic
import Asm65.Mode

/-!
# Operands

An operand is the text of an expression, its core, with punctuation on both sides:
`#` and `(` before it, `)`, `,` and an index letter after it. The punctuation decides the
operand's shape, and the shape the modes that it can mean. The letters `X` and `Y` may end
the core as well; the core takes every character it can.
-/
namespace Asm65

/-- What the punctuation around a core says. -/
inductive Shape where
  /-- The bare register `A`. -/
  | accumulator
  /-- `#c` -/
  | immediate
  /-- `c` -/
  | direct
  /-- `c,X` -/
  | directX
  /-- `c,Y` -/
  | directY
  /-- `(c)` -/
  | indirect
  /-- `(c,X)` -/
  | indexedIndirectX
  /-- `(c),X` -/
  | indirectIndexedX
  /-- `(c),Y` -/
  | indirectIndexedY
  /-- `(c,Y)` -/
  | indexedIndirectY
  deriving DecidableEq, Inhabited

/-- The modes that a shape can mean, the preferred one first. -/
def Shape.modes : Shape → List Mode
  | accumulator => [.accumulator]
  | immediate => [.immediate]
  | direct => [.absolute, .zeroPage, .relative]
  | directX => [.absoluteX, .zeroPageX]
  | directY => [.absoluteY, .zeroPageY]
  | indirect => [.indirect, .zeroPageIndirect]
  | indexedIndirectX => [.zeroPageXIndirect]
  | indirectIndexedX => [.indirectX, .zeroPageIndirectX]
  | indirectIndexedY => [.indirectY, .zeroPageIndirectY]
  | indexedIndirectY => [.zeroPageIndirectY]

/-! ## Splitting -/

/-- A core and the punctuation on either side, not yet judged. -/
structure OperandParts where
  opening : Text
  core : Text
  closing : Text
  deriving DecidableEq

namespace OperandParts

def isOpening (c : Char) : Bool := c == '(' || c == '#'

def isCore (c : Char) : Bool := c.isAlphanum || "_$%+-*/<>".toList.contains c

def isClosing (c : Char) : Bool := "),XYxy".toList.contains c

/-- Split an operand into its parts. Fails when there is no core or when something other
than closing punctuation follows it. -/
def ofText (t : Text) : Except Fault OperandParts :=
  let text := t.trim
  let rest := text.dropWhile isOpening
  let core := rest.takeWhile isCore
  let closing := rest.dropWhile isCore
  if core ≠ [] ∧ closing.all isClosing then .ok ⟨text.takeWhile isOpening, core, closing⟩
  else .error (.parse ("bad operand `" ++ String.ofList text ++ "`"))

/-- The shape that the punctuation means, with index letters of either case. -/
def shape? (parts : OperandParts) : Option Shape :=
  match parts.opening, parts.closing.upper with
  | ['#'], [] => some .immediate
  | [], [] => some (if parts.core = ['A'] then .accumulator else .direct)
  | [], [',', 'X'] => some .directX
  | [], [',', 'Y'] => some .directY
  | ['('], [')'] => some .indirect
  | ['('], [',', 'X', ')'] => some .indexedIndirectX
  | ['('], [')', ',', 'X'] => some .indirectIndexedX
  | ['('], [')', ',', 'Y'] => some .indirectIndexedY
  | ['('], [',', 'Y', ')'] => some .indexedIndirectY
  | _, _ => none

end OperandParts

/-! ## Operands of instructions -/

structure Operand where
  core : Text
  shape : Shape
  deriving DecidableEq

namespace Operand

def parse (t : Text) : Except Fault Operand := do
  let parts ← OperandParts.ofText t
  match parts.shape? with
  | some shape => .ok ⟨parts.core, shape⟩
  | none => .error (.unknownOperand t.trim)

/-- The modes that an instruction may mean with this operand, or without one. -/
def modes : Option Operand → List Mode
  | some operand => operand.shape.modes
  | none => [.implied, .accumulator]

end Operand

end Asm65
