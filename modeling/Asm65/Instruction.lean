-- SUMMARY: Encoding an instruction: choosing the mode, narrowing it, and the operand bytes.
import Asm65.Evaluation
import Asm65.Mnemonic.Opcode

/-!
# Instructions

The shape of the operand lists the modes that it can mean, and the first one that the
instruction has is taken. A wide mode is narrowed to its page-zero form when the value is
known to lie there. A line whose operand had no value in the first pass took the wide form
and stays wide, so that both passes give it the same size.
-/
namespace Asm65

/-- The distance of a branch at `pc`, counted from the byte after it. The subtraction wraps at 32
bits, and overflow is not checked for. Only targets below -2^31 + `pc` + 2 are so far back that it
wraps; their distance comes out large and positive, so they stay out of reach. -/
def branchDistance (pc : Address) (target : Value) : Value := target - (pc.toValue + 2)

namespace Mode

/-- The bytes after the opcode. An operand without a value is encoded as zero, and a branch
to it as distance zero. -/
def operandBytes (m : Mode) (pc : Address) (value : Option Value) : Except Fault (List UInt8) :=
  match m, value with
  | relative, none => .ok [0]
  | relative, some target =>
    let distance := branchDistance pc target
    if -128 ≤ distance ∧ distance ≤ 127 then .ok [distance.lowByte]
    else .error (.branchRange distance)
  | m, value =>
    match m.operandLength with
    | 0 => .ok []
    | 1 => .ok [(value.getD 0).lowByte]
    | _ => .ok (value.getD 0).wordBytes

end Mode

/-- The encoding to use for a value: the page-zero form if there is one, the value lies
there, and the line is not held wide. -/
def Mnemonic.narrow (m : Mnemonic) (wide : Encoding) (value : Option Value) (held : Bool) :
    Encoding :=
  match m.zeroPageForm? wide.mode, value with
  | some short, some v => if v.inZeroPage && !held then short else wide
  | _, _ => wide

/-- The line has to be held wide: its size hangs on a value that the first pass lacks. -/
def Mnemonic.staysWide (m : Mnemonic) (wide : Encoding) (value : Option Value) (pass : Pass) :
    Bool :=
  (m.zeroPageForm? wide.mode).isSome && value.isNone && pass == .first

namespace State

/-- Evaluate the operand of an instruction, if the mode takes one. -/
def evaluateOperand (s : State) (site : Site) (mode : Mode) (operand : Option Operand) :
    Logged (Option Evaluation) :=
  match operand with
  | some operand =>
    if mode.takesOperand then some <$> s.evaluate site operand.core else pure none
  | none => pure none

/-- The report on an operand that was evaluated. -/
def reportOperand (s : State) (site : Site) (evaluation : Option Evaluation)
    (operand : Option Operand) : List Event :=
  match evaluation, operand with
  | some e, some operand => s.reportUnresolved site e operand.core
  | _, _ => []

/-- Encode an instruction once its mode is selected. -/
def encode (s : State) (site : Site) (m : Mnemonic) (wide : Encoding)
    (operand : Option Operand) : Logged Effect := do
  let evaluation ← s.evaluateOperand site wide.mode operand
  let value := evaluation.bind Evaluation.value
  let encoding := m.narrow wide value (s.isWide site.line)
  Logged.tell [.modeSelected site.line m encoding.mode value]
  let bytes ← Logged.ofExcept (encoding.mode.operandBytes s.pc value)
  Logged.tell (s.reportOperand site evaluation operand)
  return .emit (encoding.opcode :: bytes) (m.staysWide wide value site.pass)

/-- What an instruction line does. -/
def instruction (s : State) (site : Site) (mnemonic : Text) (operand : Option Operand) :
    Logged Effect :=
  match Mnemonic.ofText? mnemonic with
  | none => .fail (.unknownOpcode mnemonic)
  | some m =>
    match m.select? (Operand.modes operand) with
    | none => .fail (.unknownMode mnemonic (Mode.alternatives (Operand.modes operand)))
    | some wide => s.encode site m wide operand

end State

end Asm65
