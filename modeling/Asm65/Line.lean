-- SUMMARY: Source lines: comments, labels, mnemonics, directives and operands.
import Asm65.Directive
import Asm65.Operand

/-!
# Source lines

A line is a label in column 0, a mnemonic or directive, and an operand, all of them
optional and separated by white space. `*` in column 0 makes the whole line a comment, `;`
outside quotes the rest of it.
-/
namespace Asm65

/-- What a line does besides binding its label. -/
inductive Statement where
  | blank
  | instruction (mnemonic : Text) (operand : Option Operand)
  /-- A directive keeps its operand as text, since each reads it in its own way. -/
  | directive (directive : Directive) (operand : Option Text)
  deriving DecidableEq

/-- A line that was read. Its label is known even if the rest of it cannot be read. -/
structure Line where
  label : Option Text
  body : Except Fault Statement

namespace Line

def empty : Line := ⟨none, .ok .blank⟩

/-! ## Comments -/

def isQuote (c : Char) : Bool := c == '"' || c == '\''

/-- Cut at the first `;` outside quotes. `quote` is the quote that is open, if any. -/
def cutComment : (quote : Option Char) → Text → Text
  | _, [] => []
  | none, c :: rest =>
    if c = ';' then [] else c :: cutComment (if isQuote c then some c else none) rest
  | some q, c :: rest => c :: cutComment (if c = q then none else some q) rest

/-- The line without its comment and without white space at its end. -/
def stripComment (t : Text) : Text := (cutComment none t).trimEnd

/-! ## Fields -/

/-- The text of an optional field: none where there is only white space. -/
def field? (t : Text) : Option Text := if t.trim = [] then none else some t.trim

/-- Read a mnemonic or directive with its operand. Directives are looked up first. -/
def parseStatement (mnemonic : Text) (operand : Option Text) : Except Fault Statement :=
  match Directive.ofText? mnemonic, operand with
  | some directive, operand => .ok (.directive directive operand)
  | none, some text => (.instruction mnemonic <| some ·) <$> Operand.parse text
  | none, none => .ok (.instruction mnemonic none)

/-- Read what follows the label. -/
def parseBody (t : Text) : Except Fault Statement :=
  if t.trimStart = [] then .ok .blank
  else parseStatement t.trimStart.word.upper (field? t.trimStart.afterWord)

/-- Read a line without its comment: a label starts at once, white space means there is
none. -/
def parseFields (t : Text) : Line :=
  if t.word = [] then ⟨none, parseBody t⟩ else ⟨some t.word, parseBody t.afterWord⟩

def parse (t : Text) : Line :=
  if t.head? = some '*' then empty else parseFields (stripComment t)

/-- The label that the line binds to its address: every one but that of `EQU`. -/
def addressLabel? (line : Line) : Option Text :=
  match line.body with
  | .ok (.directive .equ _) => none
  | _ => line.label

end Line

end Asm65
