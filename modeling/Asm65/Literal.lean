-- SUMMARY: Literals of the data directives: quoted text and pairs of hexadecimal digits.
import Asm65.Numeral

/-!
# Data literals

Text between double quotes gives one byte for each character, its low seven bits with the
top bit set; between single quotes the top bit is clear. Without quotes a literal is pairs of
hexadecimal digits, with commas anywhere between digits.
-/
namespace Asm65.Literal

/-- The text between two quotes, which is not empty and does not hold that quote. -/
def quoted? (quote : Char) : Text → Option Text
  | [] => none
  | c :: rest =>
    if c = quote ∧ rest.getLast? = some quote ∧ rest.dropLast ≠ [] ∧ quote ∉ rest.dropLast then
      some rest.dropLast
    else none

/-- The low seven bits of a character. -/
def lowBits (c : Char) : UInt8 := UInt8.ofNat (c.toNat % 128)

/-- Bytes from pairs of digits. -/
def pairs? : List Nat → Option (List UInt8)
  | [] => some []
  | [_] => none
  | high :: low :: rest => (pairs? rest).map (UInt8.ofNat (high * 16 + low) :: ·)

/-- The bytes that one or more pairs of digits spell. -/
def hexBytes? (t : Text) : Option (List UInt8) := do
  let digits ← (t.filter (· ≠ ',')).mapM Numeral.hexDigit?
  if digits = [] then none else pairs? digits

/-- The bytes of a literal; none if it is not of any of the three forms. -/
def bytes? (t : Text) : Option (List UInt8) :=
  match quoted? '"' t.trim, quoted? '\'' t.trim with
  | some text, _ => some (text.map fun c => lowBits c ||| 0x80)
  | none, some text => some (text.map lowBits)
  | none, none => hexBytes? t.trim

end Asm65.Literal
