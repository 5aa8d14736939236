-- SUMMARY: What can be wrong with a line, and how it is reported.
import Asm65.Numeral
import Asm65.Value

/-!
# Diagnostics

Every way in which a source line can fail. None of them ends an assembly: the line yields no
bytes, or a placeholder where its size is known, and the rest of the source is still read.
-/
namespace Asm65

inductive Fault where
  /-- Something in the line does not fit its grammar. -/
  | parse (detail : String)
  /-- The punctuation around an operand means no addressing mode. -/
  | unknownOperand (text : Text)
  /-- The instruction has none of the modes that its operand could mean. -/
  | unknownMode (mnemonic : Text) (modes : String)
  | unknownOpcode (mnemonic : Text)
  /-- A data directive without a usable literal. -/
  | missingString (directive : String)
  /-- A branch to a target that no displacement reaches. -/
  | branchRange (distance : Value)
  /-- An operand without a value: the undefined names, or its text if all are defined. -/
  | unresolved (operand : String)
  | missingLabel (directive : String)
  /-- A label that the two passes put at different addresses. -/
  | labelMoved (name : Text) (first second : Value)
  deriving DecidableEq

/-- What is wrong, without the details. -/
inductive FaultKind where
  | parse
  | unknownOperand
  | unknownMode
  | unknownOpcode
  | missingString
  | branchRange
  | unresolved
  | missingLabel
  | labelMoved
  deriving DecidableEq

namespace Fault

def kind : Fault → FaultKind
  | parse _ => .parse
  | unknownOperand _ => .unknownOperand
  | unknownMode _ _ => .unknownMode
  | unknownOpcode _ => .unknownOpcode
  | missingString _ => .missingString
  | branchRange _ => .branchRange
  | unresolved _ => .unresolved
  | missingLabel _ => .missingLabel
  | labelMoved _ _ _ => .labelMoved

/-- A value as an address, with the bits of a negative one. -/
def hexValue (v : Value) : String := String.ofList ('$' :: Numeral.hexWord v.toUInt32.toNat)

def message : Fault → String
  | parse detail => "Parse error: " ++ detail
  | unknownOperand text => "Unknown operand: " ++ String.ofList text
  | unknownMode mnemonic modes =>
    "Unknown mode " ++ modes ++ " for " ++ String.ofList mnemonic
  | unknownOpcode mnemonic => "Unknown opcode " ++ String.ofList mnemonic
  | missingString directive => "Missing string for " ++ directive
  | branchRange distance => "Relative branch distance error " ++ toString distance.toInt
  | unresolved operand => "Unresolved operand: " ++ operand
  | missingLabel directive => directive ++ " requires a label"
  | labelMoved name first second =>
    "Label " ++ String.ofList name ++ " moved from " ++ hexValue first ++ " to " ++
      hexValue second ++ " between passes"

end Fault

/-- A fault and the line, counted from one, that it belongs to. -/
structure Diagnostic where
  line : Nat
  fault : Fault
  deriving DecidableEq

def Diagnostic.message (d : Diagnostic) : String :=
  "Line " ++ toString d.line ++ ": " ++ d.fault.message

end Asm65
