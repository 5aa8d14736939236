-- SUMMARY: Assembling one line against the state.
import Asm65.Directive.Effect
import Asm65.Instruction
import Asm65.Line

/-!
# One line

A line first binds its label and then has its effect. If it fails, the failure is reported
and the effect does not take place.
-/
namespace Asm65

/-- What assembling a line gives. -/
structure Outcome where
  state : State
  bytes : List UInt8
  events : List Event
  deriving DecidableEq

namespace State

/-- The effect of a line that was read, with the label already bound. -/
def effect (s : State) (site : Site) (line : Line) : Logged Effect :=
  match line.body with
  | .error e => .fail e
  | .ok .blank => pure .nothing
  | .ok (.instruction mnemonic operand) => s.instruction site mnemonic operand
  | .ok (.directive d operand) => s.directive site line.label d operand

/-- The state in which a line has its effect: its label is bound. -/
def labelled (s : State) (site : Site) (line : Line) : State :=
  match line.addressLabel? with
  | some name => s.defineLabel site name
  | none => s

/-- What the label of a line logs. -/
def lineLabelEvents (s : State) (site : Site) (line : Line) : List Event :=
  match line.addressLabel? with
  | some name => s.labelEvents site name
  | none => []

/-- Assemble a line that was read. -/
def assemble (s : State) (site : Site) (line : Line) : Outcome :=
  let labelled := s.labelled site line
  let logged := labelled.effect site line
  let events := s.lineLabelEvents site line ++ logged.events
  match logged.result with
  | .ok effect => ⟨effect.apply site.line labelled, effect.bytes, events⟩
  | .error e => ⟨labelled, [], events ++ site.report e⟩

/-- Assemble a source line. -/
def step (s : State) (site : Site) (source : Text) : Outcome :=
  s.assemble site (Line.parse source)

end State

end Asm65
