-- SUMMARY: The printed listing: bytes, line number and source of every line.
import Asm65.Numeral

/-!
# Listings

A line is listed as its first three bytes, its number and its source; further bytes follow
three to a row, without number or source.
-/
namespace Asm65

/-- A source line with the bytes that it yields. -/
structure ListingEntry where
  number : Nat
  source : Text
  bytes : List UInt8
  deriving DecidableEq

namespace ListingEntry

/-- Bytes in rows of three, the last row with what is left. -/
def chunks : List UInt8 → List (List UInt8)
  | [] => []
  | [a] => [[a]]
  | [a, b] => [[a, b]]
  | a :: b :: c :: rest => [a, b, c] :: chunks rest

theorem flatten_chunks (bytes : List UInt8) : (chunks bytes).flatten = bytes := by
  fun_induction chunks bytes with
  | case1 => rfl
  | case2 => rfl
  | case3 => rfl
  | case4 a b c rest ih => simp [ih]

/-- Two digits for each byte, with blanks between them. -/
def hexRow (bytes : List UInt8) : Text := [' '].intercalate (bytes.map Numeral.hexByte)

/-- The row with the number and the source: nine columns of bytes, a blank, four columns of
number, two blanks, and the source as it stands. -/
def firstRow (line : ListingEntry) (bytes : List UInt8) : Text :=
  (hexRow bytes).padRight 9 ++ ' ' :: Text.padLeft 4 (Numeral.decimal line.number) ++
    ' ' :: ' ' :: line.source

def rows (line : ListingEntry) : List Text :=
  match chunks line.bytes with
  | [] => [line.firstRow []]
  | first :: rest => line.firstRow first :: rest.map hexRow

end ListingEntry

namespace Listing

/-- The text of a listing: every row with a line feed at its end. -/
def text (lines : List ListingEntry) : Text :=
  (lines.flatMap ListingEntry.rows).flatMap fun row => row ++ ['\n']

end Listing

end Asm65
