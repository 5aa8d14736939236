-- SUMMARY: Expressions over values, symbols and the accumulator, and the names in them.
import Asm65.Text
import Asm65.Value

/-!
# Expressions

The trees that operands denote. Chains of operators are left-nested when they come from
source text, but nothing here depends on that.
-/
namespace Asm65

inductive Operator where
  | add
  | sub
  | mul
  | div
  | shl
  | shr
  deriving DecidableEq, Inhabited

namespace Operator

def symbol : Operator → String
  | add => "+"
  | sub => "-"
  | mul => "*"
  | div => "/"
  | shl => "<<"
  | shr => ">>"

/-- The operators of one character. -/
def ofChar? : Char → Option Operator
  | '+' => some add
  | '-' => some sub
  | '*' => some mul
  | '/' => some div
  | _ => none

/-- The operators that are a character written twice. -/
def ofDoubled? : Char → Option Operator
  | '<' => some shl
  | '>' => some shr
  | _ => none

end Operator

inductive Expr where
  | number (value : Value)
  | symbol (name : Text)
  /-- The register `A`, which is never worth a value. -/
  | accumulator
  | binary (op : Operator) (left right : Expr)
  deriving DecidableEq, Inhabited

namespace Expr

def isBinary : Expr → Bool
  | binary .. => true
  | _ => false

/-- There is more than one operator. -/
def isChained : Expr → Bool
  | binary _ left right => left.isBinary || right.isBinary
  | _ => false

/-- The symbols from left to right, as often as they occur. -/
def names : Expr → List Text
  | number _ => []
  | symbol name => [name]
  | accumulator => []
  | binary _ left right => left.names ++ right.names

end Expr

end Asm65
