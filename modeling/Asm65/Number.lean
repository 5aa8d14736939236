-- SUMMARY: Number literals: `$` hexadecimal, `%` binary, plain decimal.
import Asm65.Numeral
import Asm65.Value

/-!
# Number literals

The first character decides whether a text is a number and in which base; the rest has to
be digits of that base, of either case, and may have any number of leading zeros. A literal
carries no sign and fits a positive 32-bit value.
-/
namespace Asm65

/-- How a number is written. -/
inductive NumberFormat where
  | hexadecimal
  | binary
  | decimal
  deriving DecidableEq, Inhabited

namespace NumberFormat

def name : NumberFormat → String
  | hexadecimal => "hexadecimal"
  | binary => "binary"
  | decimal => "decimal"

def base : NumberFormat → Nat
  | hexadecimal => 16
  | binary => 2
  | decimal => 10

/-- The format that the first character announces; a text without one is no number. -/
def detect? : Text → Option NumberFormat
  | '$' :: _ => some hexadecimal
  | '%' :: _ => some binary
  | c :: _ => if c.isDigit then some decimal else none
  | [] => none

/-- What is left of a literal of this format without its sigil. -/
def digits (format : NumberFormat) (literal : Text) : Text :=
  match format with
  | hexadecimal | binary => literal.drop 1
  | decimal => literal

end NumberFormat

inductive NumberError where
  /-- The digits are missing, are none of the format, or spell too large a number. -/
  | malformed (format : NumberFormat) (digits : Text)
  /-- The text does not start like a number. -/
  | unrecognized (text : Text)
  deriving DecidableEq

def NumberError.message : NumberError → String
  | malformed format digits => "Invalid " ++ format.name ++ ": " ++ String.ofList digits
  | unrecognized text => "Invalid number: " ++ String.ofList text

namespace Number

/-- The values of literals stay below this bound. -/
def bound : Nat := 2147483648

/-- Read the digits of a literal. -/
def ofDigits (format : NumberFormat) (digits : Text) : Except NumberError Value :=
  match Numeral.read? format.base digits with
  | some n => if n < bound then .ok (Int32.ofNat n) else .error (.malformed format digits)
  | none => .error (.malformed format digits)

/-- Read a number literal with white space around it. -/
def parse (t : Text) : Except NumberError Value :=
  match NumberFormat.detect? t.trim with
  | some format => ofDigits format (format.digits t.trim)
  | none => .error (.unrecognized t.trim)

end Number

end Asm65
