-- SUMMARY: The two passes, and the place in a pass where a line is assembled.

/-!
# Passes

The first pass collects addresses, the second emits the image with every name bound.
-/
namespace Asm65

inductive Pass where
  | first
  | second
  deriving DecidableEq, Inhabited

namespace Pass

/-- Only the second pass reports, so that nothing is reported twice. -/
def reports : Pass → Bool
  | first => false
  | second => true

end Pass

/-- A line, by its number counted from one, in one of the passes. -/
structure Site where
  pass : Pass
  line : Nat
  deriving DecidableEq, Inhabited

end Asm65
