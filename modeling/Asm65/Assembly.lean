-- SUMMARY: Assembling a source in two passes, and what can be read off the result.
import Asm65.Listing
import Asm65.Step

/-!
# Assembly

Both passes run over the same lines from the same origin; symbols and memories go on from
the first to the second. An assembly keeps, for every line of both passes, the state before
it, its bytes and its events; the image, the diagnostics, the listing and the log are views
of that.
-/
namespace Asm65

/-- A line as one pass assembled it. -/
structure Entry where
  number : Nat
  source : Text
  /-- The state before the line. -/
  before : State
  bytes : List UInt8
  events : List Event
  deriving DecidableEq

namespace Entry

def toListing (entry : Entry) : ListingEntry := ⟨entry.number, entry.source, entry.bytes⟩

end Entry

/-! ## Passes -/

/-- A pass over lines, or over the rest of them: an entry for each, and the state after the
last. -/
structure Run where
  entries : List Entry
  final : State
  deriving DecidableEq

namespace State

/-- Assemble lines one after another, numbered from `number` on. -/
def run (s : State) (pass : Pass) (number : Nat) : List Text → Run
  | [] => ⟨[], s⟩
  | source :: rest =>
    let outcome := s.step ⟨pass, number⟩ source
    let others := outcome.state.run pass (number + 1) rest
    ⟨⟨number, source, s, outcome.bytes, outcome.events⟩ :: others.entries, others.final⟩

/-- A whole pass from an origin. -/
def runPass (s : State) (pass : Pass) (origin : Address) (lines : List Text) : Run :=
  (s.beginPass origin).run pass 1 lines

end State

namespace Run

/-- The bytes of all lines, one after the other. -/
def bytes (r : Run) : List UInt8 := r.entries.flatMap Entry.bytes

def events (r : Run) : List Event := r.entries.flatMap Entry.events

end Run

/-! ## The result -/

structure Assembly where
  /-- The origin that both passes begin from. -/
  start : Address
  first : Run
  second : Run
  deriving DecidableEq

namespace Assembly

/-- Assemble lines. -/
def ofLines (start : Address) (lines : List Text) : Assembly :=
  let first := (State.initial start).runPass .first start lines
  ⟨start, first, first.final.runPass .second start lines⟩

/-- Assemble a source text. -/
def ofText (start : Address) (source : Text) : Assembly := ofLines start source.lines

/-- The state after the last line. -/
def final (a : Assembly) : State := a.second.final

/-- The load address: where the passes began, or the last origin set. -/
def origin (a : Assembly) : Address := a.final.origin

/-- The image. -/
def binary (a : Assembly) : List UInt8 := a.second.bytes

def symbols (a : Assembly) : SymbolTable := a.final.symbols

def diagnostics (a : Assembly) : List Diagnostic := Event.diagnostics a.second.events

/-- Nothing was reported. -/
def isClean (a : Assembly) : Bool := a.diagnostics.isEmpty

def listing (a : Assembly) : List ListingEntry := a.second.entries.map Entry.toListing

/-- What the second pass logs about a line; a verbose log lists the line as well. -/
def entryEvents (verbose : Bool) (entry : Entry) : List Event :=
  entry.events ++ if verbose then entry.toListing.rows.map Event.listed else []

/-- Everything that is logged, in order. -/
def log (a : Assembly) (verbose : Bool) : List Event :=
  .passStarted .first a.start :: a.first.events ++
    (.passStarted .second a.start :: a.second.entries.flatMap (entryEvents verbose)) ++
    [.finished a.origin a.binary.length a.symbols.size a.diagnostics.length]

end Assembly

end Asm65
