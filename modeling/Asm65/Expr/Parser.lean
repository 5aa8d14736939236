-- SUMMARY: Reading expressions: terms joined by operators, grouped from the left.
import Asm65.Expr
import Asm65.Number

/-!
# Reading expressions

An expression is a term, or terms with an operator between each two; white space may stand
around operators. All operators bind equally and group to the left.

The text is scanned once, from its end. That fixes which error a text with several gets: a
misplaced operator further right wins over one further left, and any of them over a term
that cannot be read, of which the leftmost is reported.
-/
namespace Asm65

inductive ExprError where
  | empty
  /-- A `<` or `>` that is not one of two. -/
  | invalidOperator (text : Text)
  | missingOperand (text : Text)
  | number (cause : NumberError)
  | invalidTerm (text : Text)
  deriving DecidableEq

def ExprError.message : ExprError → String
  | empty => "Empty expression"
  | invalidOperator text => "Invalid operator in expression: " ++ String.ofList text
  | missingOperand text => "Missing operand after operator: " ++ String.ofList text
  | number cause => cause.message
  | invalidTerm text => "Invalid expression: " ++ String.ofList text

namespace Expr

/-! ## Terms -/

def isNameStart (c : Char) : Bool := c.isAlpha || c == '_'

def isNameChar (c : Char) : Bool := c.isAlphanum || c == '_'

/-- An ASCII identifier. -/
def isName : Text → Bool
  | [] => false
  | c :: rest => isNameStart c && rest.all isNameChar

/-- Read a term: the accumulator, a number literal or a symbol. -/
def parseTerm (t : Text) : Except ExprError Expr :=
  if t = ['A'] then .ok .accumulator
  else if (NumberFormat.detect? t).isSome then
    match Number.parse t with
    | .ok value => .ok (.number value)
    | .error cause => .error (.number cause)
  else if isName t then .ok (.symbol t)
  else .error (.invalidTerm t)

/-! ## Chains -/

/-- The texts of a chain: its first term, then each operator with the term on its right. -/
structure Chain where
  first : Text
  links : List (Operator × Text)

/-- Scan a chain from its end. `before` holds the characters not yet scanned, the last one
first, `term` the text since the operator scanned last, and `links` what is complete. The
very first character of a chain belongs to its first term, whatever it is. -/
def scan : (before term : Text) → (links : List (Operator × Text)) → Except ExprError Chain
  | [], term, links => .ok ⟨term, links⟩
  | [c], term, links => .ok ⟨c :: term, links⟩
  | c :: d :: before, term, links =>
    match Operator.ofChar? c, Operator.ofDoubled? c with
    | some op, _ =>
      if term = [] then .error (.missingOperand (before.reverse ++ [d, c]))
      else scan (d :: before) [] ((op, term.trimStart) :: links)
    | none, some op =>
      if d = c ∧ before ≠ [] then
        if term = [] then .error (.missingOperand (before.reverse ++ [d, c]))
        else scan before [] ((op, term.trimStart) :: links)
      else .error (.invalidOperator (before.reverse ++ d :: c :: term))
    | none, none =>
      if term = [] ∧ isBlank c then scan (d :: before) [] links
      else scan (d :: before) (c :: term) links

/-- Read the terms of a chain from the left and join them. -/
def ofChain (chain : Chain) : Except ExprError Expr := do
  let first ← parseTerm chain.first
  chain.links.foldlM (fun left link => do
    let right ← parseTerm link.2
    return .binary link.1 left right) first

def parse (t : Text) : Except ExprError Expr :=
  if t.trim = [] then .error .empty
  else scan t.trim.reverse [] [] >>= ofChain

end Expr

end Asm65
