-- SUMMARY: Source text as lists of characters: white space, trimming, splitting, lines.

/-!
# Source text

Text that is still to be read is a list of characters, so that every reader is a
recursion on it. This module fixes what white space is and how text is trimmed,
cut at a separator and divided into lines.
-/
namespace Asm65

/-- A piece of source text. -/
abbrev Text := List Char

/-! ## White space -/

/-- The code points with the Unicode property White_Space, as closed ranges. -/
def blankRanges : List (Nat × Nat) :=
  [(0x09, 0x0D), (0x20, 0x20), (0x85, 0x85), (0xA0, 0xA0), (0x1680, 0x1680), (0x2000, 0x200A),
    (0x2028, 0x2029), (0x202F, 0x202F), (0x205F, 0x205F), (0x3000, 0x3000)]

def isBlank (c : Char) : Bool :=
  blankRanges.any fun range => range.1 ≤ c.toNat && c.toNat ≤ range.2

namespace Text

/-- Every character is white space; in particular there may be none. -/
def isBlank (t : Text) : Bool := t.all Asm65.isBlank

def trimStart (t : Text) : Text := t.dropWhile Asm65.isBlank

def trimEnd (t : Text) : Text := (t.reverse.dropWhile Asm65.isBlank).reverse

def trim (t : Text) : Text := t.trimEnd.trimStart

@[simp] theorem trimStart_nil : trimStart [] = [] := rfl

@[simp] theorem trimEnd_nil : trimEnd [] = [] := rfl

/-- The characters before the first white space. -/
def word (t : Text) : Text := t.takeWhile fun c => !Asm65.isBlank c

/-- What follows the first word, from the white space that ends it. -/
def afterWord (t : Text) : Text := t.dropWhile fun c => !Asm65.isBlank c

theorem word_append_afterWord (t : Text) : t.word ++ t.afterWord = t :=
  List.takeWhile_append_dropWhile

/-- ASCII letters in upper case, everything else as it is. -/
def upper (t : Text) : Text := t.map Char.toUpper

/-! ## Separators and lines -/

/-- The text before the first separator, and the texts between and after separators. -/
def cut (separator : Char) (t : Text) : Text × List Text :=
  t.foldr (fun c pieces =>
    if c = separator then ([], pieces.1 :: pieces.2) else (c :: pieces.1, pieces.2)) ([], [])

@[simp] theorem cut_nil (separator : Char) : cut separator [] = ([], []) := rfl

theorem cut_cons (separator c : Char) (t : Text) :
    cut separator (c :: t) =
      if c = separator then ([], (cut separator t).1 :: (cut separator t).2)
      else (c :: (cut separator t).1, (cut separator t).2) := rfl

/-- The pieces between separators: always one more than there are separators. -/
def splitOn (separator : Char) (t : Text) : List Text :=
  (cut separator t).1 :: (cut separator t).2

/-- A carriage return at the very end belongs to the line end. -/
def dropReturn (t : Text) : Text :=
  if t.getLast? = some '\r' then t.dropLast else t

/-- Lines from the pieces between line feeds. Only a line feed ends a line, so the last
piece is a line when it holds anything, and keeps a carriage return at its end. -/
def linesOfPieces : Text → List Text → List Text
  | last, [] => if last = [] then [] else [last]
  | line, next :: rest => dropReturn line :: linesOfPieces next rest

/-- The lines of a text, without their ends: a line feed, or a carriage return and a line
feed. -/
def lines (t : Text) : List Text :=
  linesOfPieces (cut '\n' t).1 (cut '\n' t).2

/-! ## Columns -/

/-- Padded with blanks on the right to a least width. -/
def padRight (width : Nat) (t : Text) : Text := t ++ List.replicate (width - t.length) ' '

/-- Padded with blanks on the left to a least width. -/
def padLeft (width : Nat) (t : Text) : Text := List.replicate (width - t.length) ' ' ++ t

end Text

end Asm65
