-- SUMMARY: The value of an expression under a symbol table.
import Asm65.Expr
import Asm65.SymbolTable

/-!
# Evaluation

An expression has a value when its symbols are bound, it does not mention the accumulator,
and every operator is defined at its operands. Arithmetic wraps at 32 bits.
-/
namespace Asm65

/-- The value of an operator. Division truncates; it is undefined at a zero divisor and where
the quotient would not fit. A shift moves by zero to thirty-one places, and to the right it
copies the sign. -/
def Operator.eval? (op : Operator) (left right : Value) : Option Value :=
  match op with
  | add => some (left + right)
  | sub => some (left - right)
  | mul => some (left * right)
  | div =>
    if right = 0 ∨ left = Int32.minValue ∧ right = -1 then none else some (left / right)
  | shl => if 0 ≤ right ∧ right < 32 then some (left <<< right) else none
  | shr => if 0 ≤ right ∧ right < 32 then some (left >>> right) else none

namespace Expr

def eval? (symbols : SymbolTable) : Expr → Option Value
  | number value => some value
  | symbol name => symbols.get? name
  | accumulator => none
  | binary op left right => do
    let l ← left.eval? symbols
    let r ← right.eval? symbols
    op.eval? l r

/-- The symbols in an expression that are not bound. -/
def undefined (symbols : SymbolTable) (e : Expr) : List Text :=
  e.names.filter fun name => !symbols.contains name

end Expr

end Asm65
