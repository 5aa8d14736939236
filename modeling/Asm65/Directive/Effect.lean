-- SUMMARY: What the directives do: data, constants, origin, words and storage.
import Asm65.Directive
import Asm65.Evaluation
import Asm65.Literal

/-!
# Directives at work

Data directives emit the bytes of their literal. The others evaluate their operand; where it
has no value, words take zero in its place, a constant becomes unbound, and the origin and
storage are left alone.
-/
namespace Asm65

/-- The most bytes that one line may reserve. -/
def storageLimit : Value := 0x10000

namespace State

/-- The value of an operand that has to be there. -/
def requiredValue (s : State) (site : Site) (operand : Option Text) : Logged (Option Value) :=
  match operand with
  | some text => s.operandValue site text
  | none => .fail (.parse "missing operand")

/-- The words of a list of operands. -/
def words (s : State) (site : Site) : List Text → Logged (List UInt8)
  | [] => pure []
  | text :: rest => do
    let value ← s.operandValue site text
    let others ← s.words site rest
    return (value.getD 0).wordBytes ++ others

def dataEffect (kind : DataKind) (operand : Option Text) : Logged Effect :=
  match operand.bind Literal.bytes? with
  | some bytes => pure (.emit (kind.arrange bytes) false)
  | none => .fail (.missingString (Directive.data kind).name)

def equateEffect (s : State) (site : Site) (label operand : Option Text) : Logged Effect :=
  match label with
  | none => .fail (.missingLabel Directive.equ.name)
  | some name => do
    match ← s.requiredValue site operand with
    | some value => return .bind name value
    | none => return .unbind name

def originEffect (s : State) (site : Site) (operand : Option Text) : Logged Effect := do
  match ← s.requiredValue site operand with
  | some value =>
    Logged.tell [.originSet site.line value.toAddress]
    return .relocate value.toAddress
  | none => return .nothing

def wordsEffect (s : State) (site : Site) (operand : Option Text) : Logged Effect :=
  match operand with
  | none => .fail (.parse (Directive.da.name ++ " needs an operand"))
  | some text => do
    let bytes ← s.words site (text.splitOn ',')
    return .emit bytes false

def storageEffect (s : State) (site : Site) (operand : Option Text) : Logged Effect := do
  match ← s.requiredValue site operand with
  | some n =>
    if 0 ≤ n ∧ n ≤ storageLimit then return .emit (List.replicate n.toInt.toNat 0) false
    else .fail (.parse ("bad storage size " ++ toString n.toInt))
  | none => return .nothing

/-- What a directive line does. -/
def directive (s : State) (site : Site) (label : Option Text) (d : Directive)
    (operand : Option Text) : Logged Effect :=
  match d with
  | .data kind => dataEffect kind operand
  | .equ => s.equateEffect site label operand
  | .org => s.originEffect site operand
  | .da => s.wordsEffect site operand
  | .ds => s.storageEffect site operand
  | .chk => pure .nothing
  | .skipped kind =>
    ⟨if site.pass.reports then [.skipped site.line kind] else [], .ok .nothing⟩

end State

end Asm65
