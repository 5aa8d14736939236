-- SUMMARY: Assembler directives: data, constants, layout, and those that only shape a listing.
import Asm65.Text

/-!
# Directives

Directives stand where a mnemonic may stand and are looked up first. Six emit the bytes of
a literal and differ in what they do to them afterwards; four take a value; one is accepted
without effect; the rest steer a printed listing or the files and are only noted.
-/
namespace Asm65

/-- The directives for literal data. -/
inductive DataKind where
  /-- Plain text. -/
  | asc
  /-- Text whose last character is marked. -/
  | dci
  /-- Flashing text. -/
  | fls
  /-- Inverse text. -/
  | inv
  /-- Bytes in hexadecimal. -/
  | hex
  /-- Text in reverse order. -/
  | rev
  deriving DecidableEq, Inhabited

/-- The directives that are noted and skipped. -/
inductive SkippedKind where
  | asterisks
  | finish
  | expansion
  | objectFile
  | page
  | skipLines
  | truncation
  deriving DecidableEq, Inhabited

inductive Directive where
  | data (kind : DataKind)
  /-- Bind the label to a value. -/
  | equ
  /-- Set the origin. -/
  | org
  /-- Sixteen-bit words. -/
  | da
  /-- Zero-filled storage. -/
  | ds
  /-- A checksum, accepted without effect. -/
  | chk
  | skipped (kind : SkippedKind)
  deriving DecidableEq, Inhabited

namespace DataKind

/-- The kinds that mark the last byte by its top bit. -/
def flipsLast : DataKind → Bool
  | dci | fls | inv => true
  | asc | hex | rev => false

/-- Change the top bit of the last byte. -/
def flipLast : List UInt8 → List UInt8
  | [] => []
  | [b] => [b ^^^ 0x80]
  | b :: next :: rest => b :: flipLast (next :: rest)

/-- The bytes to emit for those that a literal spells. -/
def arrange (kind : DataKind) (bytes : List UInt8) : List UInt8 :=
  let ordered := if kind = rev then bytes.reverse else bytes
  if kind.flipsLast then flipLast ordered else ordered

@[simp] theorem length_flipLast (bytes : List UInt8) :
    (flipLast bytes).length = bytes.length := by
  fun_induction flipLast bytes with
  | case1 => rfl
  | case2 => rfl
  | case3 b next rest ih => simpa using ih

@[simp] theorem length_arrange (kind : DataKind) (bytes : List UInt8) :
    (kind.arrange bytes).length = bytes.length := by
  cases kind <;> simp [arrange, flipsLast]

end DataKind

namespace Directive

def all : List Directive :=
  [data .asc, data .dci, data .fls, data .inv, data .hex, data .rev, equ, org, da, ds, chk,
    skipped .asterisks, skipped .finish, skipped .expansion, skipped .objectFile,
    skipped .page, skipped .skipLines, skipped .truncation]

theorem mem_all (d : Directive) : d ∈ all := by
  cases d with
  | data kind => cases kind <;> decide
  | skipped kind => cases kind <;> decide
  | _ => decide

def name : Directive → String
  | data .asc => "ASC"
  | data .dci => "DCI"
  | data .fls => "FLS"
  | data .inv => "INV"
  | data .hex => "HEX"
  | data .rev => "REV"
  | equ => "EQU"
  | org => "ORG"
  | da => "DA"
  | ds => "DS"
  | chk => "CHK"
  | skipped .asterisks => "AST"
  | skipped .finish => "END"
  | skipped .expansion => "EXP"
  | skipped .objectFile => "OBJ"
  | skipped .page => "PAG"
  | skipped .skipLines => "SKP"
  | skipped .truncation => "TR"

/-- The directive spelled exactly so. -/
def ofText? (t : Text) : Option Directive := all.find? fun d => d.name.toList == t

theorem ofText?_name (d : Directive) : ofText? d.name.toList = some d := by
  cases d with
  | data kind => cases kind <;> decide
  | skipped kind => cases kind <;> decide
  | _ => decide

theorem name_of_ofText? {t : Text} {d : Directive} (h : ofText? t = some d) :
    d.name.toList = t := by
  simpa using List.find?_some h

end Directive

end Asm65
