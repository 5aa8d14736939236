-- SUMMARY: What one line leaves for the next: addresses, symbols, and memories of the first pass.
import Asm65.Logged
import Asm65.SymbolTable

/-!
# Assembly state

The state carries the program counter and the symbols from line to line, and two memories
from the first pass to the second: which lines were left wide because their operand had no
value yet, and where the labels were.

A line changes the state in two ways only. It binds its label, and if it does not fail, it
has one `Effect`. So a line that fails changes nothing but its label.
-/
namespace Asm65

structure State where
  /-- The load address: where the pass began, or what was set last. -/
  origin : Address
  /-- The program counter. -/
  pc : Address
  symbols : SymbolTable
  /-- The lines that stay absolute in the second pass. -/
  wideLines : List Nat
  /-- The addresses of labels in the first pass by line, the latest entry first. -/
  labelAddresses : List (Nat × Address)
  deriving DecidableEq, Inhabited

/-- Where assembly begins unless an origin is given. -/
def defaultOrigin : Address := 0x8000

namespace State

def initial (origin : Address) : State := ⟨origin, origin, .empty, [], []⟩

/-- Go back to an origin to begin a pass. Symbols and memories stay. -/
def beginPass (s : State) (origin : Address) : State := { s with origin, pc := origin }

/-- The line was left wide in the first pass. -/
def isWide (s : State) (line : Nat) : Bool := s.wideLines.contains line

/-! ## Labels -/

/-- In the first pass, remember the address that the line gives its label. -/
def recordAddress (s : State) (site : Site) : State :=
  match site.pass with
  | .first => { s with labelAddresses := (site.line, s.pc) :: s.labelAddresses }
  | .second => s

/-- Bind a name to the program counter. -/
def defineLabel (s : State) (site : Site) (name : Text) : State :=
  let s := s.recordAddress site
  { s with symbols := s.symbols.insert name s.pc.toValue }

/-- A label of the second pass is reported when the first pass put it elsewhere: lines
before it were encoded with the other address. -/
def labelEvents (s : State) (site : Site) (name : Text) : List Event :=
  match s.labelAddresses.lookup site.line with
  | some address =>
    if address = s.pc then []
    else site.report (.labelMoved name address.toValue s.pc.toValue)
  | none => []

end State

/-! ## Effects -/

/-- What a line does to the state, its label apart. -/
inductive Effect where
  | nothing
  /-- Emit bytes; `wide` says that the line is to stay absolute. -/
  | emit (bytes : List UInt8) (wide : Bool)
  | bind (name : Text) (value : Value)
  | unbind (name : Text)
  | relocate (origin : Address)
  deriving DecidableEq

namespace Effect

def bytes : Effect → List UInt8
  | emit bytes _ => bytes
  | _ => []

def apply (effect : Effect) (line : Nat) (s : State) : State :=
  match effect with
  | nothing => s
  | emit bytes wide =>
    { s with
      pc := s.pc.advance bytes.length
      wideLines := if wide then s.wideLines.insert line else s.wideLines }
  | bind name value => { s with symbols := s.symbols.insert name value }
  | unbind name => { s with symbols := s.symbols.erase name }
  | relocate origin => { s with origin, pc := origin }

end Effect

end Asm65
