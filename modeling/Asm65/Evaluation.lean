-- SUMMARY: Evaluating operand text against the symbols, with what that logs.
import Asm65.Expr.Eval
import Asm65.Expr.Parser
import Asm65.Operand
import Asm65.State

/-!
# Evaluating operands

An operand that cannot be read is an error. One that can be read but has no value is not:
its instruction keeps its place with a placeholder, and the second pass reports it.
-/
namespace Asm65

/-- An expression and its value, if it has one. -/
structure Evaluation where
  expr : Expr
  value : Option Value
  deriving DecidableEq

namespace State

/-- Read and evaluate an expression. -/
def evaluate (s : State) (site : Site) (core : Text) : Logged Evaluation := do
  let expr ← Logged.ofExcept ((Expr.parse core).mapError fun e => .parse e.message)
  Logged.tell (if expr.isChained && site.pass.reports then [.chained site.line core] else [])
  return ⟨expr, expr.eval? s.symbols⟩

/-- The error of an expression without a value: it names the undefined symbols, or the whole
text when all of them are defined. -/
def unresolved (s : State) (expr : Expr) (core : Text) : Fault :=
  match expr.undefined s.symbols with
  | [] => .unresolved (String.ofList core)
  | names => .unresolved (", ".intercalate (names.map String.ofList))

/-- The report on an evaluation: nothing if there is a value. -/
def reportUnresolved (s : State) (site : Site) (e : Evaluation) (core : Text) : List Event :=
  match e.value with
  | some _ => []
  | none => site.report (s.unresolved e.expr core)

/-- The value of the operand of a directive. The punctuation around it has no meaning
there. -/
def operandValue (s : State) (site : Site) (text : Text) : Logged (Option Value) := do
  let parts ← Logged.ofExcept (OperandParts.ofText text)
  let e ← s.evaluate site parts.core
  Logged.tell (s.reportUnresolved site e parts.core)
  return e.value

end State

end Asm65
