-- SUMMARY: What an assembly logs while it runs, and how that reads.
import Asm65.Diagnostic
import Asm65.Directive
import Asm65.Mnemonic
import Asm65.Mode
import Asm65.Pass

/-!
# Events

An assembly says what it does as a list of events. Diagnostics are events of their own kind,
so the list of what went wrong can be read off the log.
-/
namespace Asm65

/-- How severe a message is. -/
inductive Level where
  | error
  | warn
  | info
  | debug
  | trace
  deriving DecidableEq, Inhabited

namespace Level

def name : Level → String
  | error => "ERROR"
  | warn => "WARN"
  | info => "INFO"
  | debug => "DEBUG"
  | trace => "TRACE"

/-- The number of levels that are more severe. -/
def rank : Level → Nat
  | error => 0
  | warn => 1
  | info => 2
  | debug => 3
  | trace => 4

/-- A log kept at this level holds messages of the other one. -/
def admits (kept other : Level) : Bool := other.rank ≤ kept.rank

end Level

/-- A message with its named details, ready to be written. -/
structure LogRecord where
  level : Level
  message : String
  fields : List (String × String)

inductive Event where
  | passStarted (pass : Pass) (origin : Address)
  | originSet (line : Nat) (origin : Address)
  /-- The mode an instruction is encoded in, and the value of its operand. -/
  | modeSelected (line : Nat) (mnemonic : Mnemonic) (mode : Mode) (value : Option Value)
  /-- An expression with more than one operator, which readers may group differently. -/
  | chained (line : Nat) (core : Text)
  | reported (diagnostic : Diagnostic)
  | skipped (line : Nat) (kind : SkippedKind)
  | listed (row : Text)
  | finished (origin : Address) (bytes symbols diagnostics : Nat)
  deriving DecidableEq

namespace Event

def diagnostic? : Event → Option Diagnostic
  | reported d => some d
  | _ => none

/-- The diagnostics among events, in order. -/
def diagnostics (events : List Event) : List Diagnostic := events.filterMap diagnostic?

@[simp] theorem diagnostics_nil : diagnostics [] = [] := rfl

@[simp] theorem diagnostics_append (before after : List Event) :
    diagnostics (before ++ after) = diagnostics before ++ diagnostics after :=
  List.filterMap_append

end Event

/-- The events that report a fault: a diagnostic, in the pass that reports. -/
def Site.report (site : Site) (fault : Fault) : List Event :=
  if site.pass.reports then [.reported ⟨site.line, fault⟩] else []

/-! ## Records -/

namespace Event

def passName : Pass → String
  | .first => "First"
  | .second => "Second"

def valueText : Option Value → String
  | some v => "Some(" ++ toString v.toInt ++ ")"
  | none => "None"

def toRecord : Event → LogRecord
  | passStarted pass origin =>
    ⟨.debug, "starting pass", [("pass", passName pass), ("origin", toString origin.toNat)]⟩
  | originSet line origin =>
    ⟨.debug, "origin set to $" ++ String.ofList (Numeral.fixed 16 4 origin.toNat),
      [("line", toString line)]⟩
  | modeSelected line mnemonic mode value =>
    ⟨.trace, "mode selected", [("line", toString line), ("mnemonic", mnemonic.name),
      ("mode", mode.name), ("value", valueText value)]⟩
  | chained line core =>
    ⟨.warn, "chained expression `" ++ String.ofList core ++ "` evaluated left to right",
      [("line", toString line)]⟩
  | reported d => ⟨.warn, d.message, []⟩
  | skipped line kind =>
    ⟨.info, "Ignored " ++ (Directive.skipped kind).name, [("line", toString line)]⟩
  | listed row => ⟨.info, String.ofList row, []⟩
  | finished origin bytes symbols diagnostics =>
    ⟨.debug, "assembly finished", [("origin", toString origin.toNat),
      ("bytes", toString bytes), ("symbols", toString symbols),
      ("diagnostics", toString diagnostics)]⟩

end Event

end Asm65
