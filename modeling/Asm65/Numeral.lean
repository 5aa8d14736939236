-- SUMMARY: Digits: reading positional numerals and writing them with a given width.
import Asm65.Text

/-!
# Positional numerals

Reading takes digits of either case in a base up to sixteen. Writing gives upper-case
digits, as many as asked for: `fixed base width n` spells `n` modulo `base ^ width`.
-/
namespace Asm65.Numeral

/-! ## Reading -/

/-- The value of a hexadecimal digit. -/
def hexDigit? (c : Char) : Option Nat :=
  if '0' ≤ c ∧ c ≤ '9' then some (c.toNat - '0'.toNat)
  else if 'a' ≤ c ∧ c ≤ 'f' then some (c.toNat - 'a'.toNat + 10)
  else if 'A' ≤ c ∧ c ≤ 'F' then some (c.toNat - 'A'.toNat + 10)
  else none

/-- The value of a digit of the given base. -/
def digit? (base : Nat) (c : Char) : Option Nat :=
  (hexDigit? c).filter (· < base)

/-- The number that digits spell, most significant first. -/
def ofDigits (base : Nat) (digits : List Nat) : Nat :=
  digits.foldl (fun n d => n * base + d) 0

/-- The number that a text spells, if it is one or more digits and nothing else. -/
def read? (base : Nat) (t : Text) : Option Nat :=
  if t = [] then none else (t.mapM (digit? base)).map (ofDigits base)

/-! ## Writing -/

/-- The digit of a value below sixteen. -/
def digitChar (n : Nat) : Char := n.digitChar.toUpper

/-- Exactly `width` digits of `n`. -/
def fixed (base : Nat) : (width : Nat) → (n : Nat) → Text
  | 0, _ => []
  | width + 1, n => fixed base width (n / base) ++ [digitChar (n % base)]

@[simp] theorem length_fixed (base width n : Nat) : (fixed base width n).length = width := by
  induction width generalizing n with
  | zero => rfl
  | succ width ih => simp [fixed, ih]

/-- Upper-case hexadecimal: two digits for a value below 256 and four for any other, unless
a width is given. No digit at all is written as a single zero. -/
def hex (n : Nat) (width : Option Nat) : Text :=
  match width.getD (if n < 256 then 2 else 4) with
  | 0 => ['0']
  | width => fixed 16 width n

/-- Upper-case hexadecimal with at least four digits and no other leading zero. -/
def hexWord (n : Nat) : Text := fixed 16 (max 4 (n.log2 / 4 + 1)) n

def hexByte (b : UInt8) : Text := fixed 16 2 b.toNat

/-- The eight binary digits of a byte. -/
def binaryByte (b : UInt8) : Text := fixed 2 8 b.toNat

def decimal (n : Nat) : Text := Nat.toDigits 10 n

end Asm65.Numeral
