-- SUMMARY: The assembler as a program: files in, files and a log out.
import Asm65.Assembly
import Asm65.CommandLine.FileStore
import Asm65.CommandLine.Options

/-!
# The program

One run reads a source file, assembles it, and writes the image and, if asked to, the
listing and the symbols. The exit status is 0 for a clean assembly, 1 for one with
diagnostics or for a file that cannot be read or written, and 2 for a mistake in the
arguments.
-/
namespace Asm65

namespace LogRecord

/-- Controls that a terminal would act on are written out. -/
def visible (c : Char) : String :=
  let digits := String.ofList (Nat.toDigits 16 c.toNat)
  if c = '\x07' ∨ c = '\x08' ∨ c = '\x0c' then "\\x0" ++ digits
  else if c = '\x1b' ∨ c = '\x7f' then "\\x" ++ digits
  else if 0x80 ≤ c.toNat ∧ c.toNat ≤ 0x9F then "\\u\x7b" ++ digits ++ "\x7d"
  else c.toString

/-- A log line: the level, the message, and the details. -/
def line (r : LogRecord) : String :=
  r.level.name ++ " " ++ String.join (r.message.toList.map visible) ++
    String.join (r.fields.map fun field => " " ++ field.1 ++ "=" ++ field.2)

/-- The text of a log: a line for each record. -/
def text (records : List LogRecord) : String := String.join (records.map fun r => r.line ++ "\n")

end LogRecord

namespace CommandLine

/-- What a run leaves besides files. -/
structure Report where
  exit : UInt8
  stdout : String
  log : List LogRecord

def versionText : String := "merlin6502-cli 1.0.0\n"

def helpText : String :=
  "usage: merlin6502 [-o FILE] [-v] [--origin N] [--listing FILE] [--symbols] SOURCE\n"

/-- A row of the symbol dump. A value shows two digits, or the last four. -/
def symbolRow (name : Text) (value : Value) : String :=
  String.ofList (name.padRight 16 ++ ' ' :: '$' :: Numeral.hex value.toUInt32.toNat none) ++ "\n"

def symbolDump (symbols : SymbolTable) : String :=
  String.join (symbols.entries.map fun entry => symbolRow entry.1 entry.2)

/-- Characters from their encoding in UTF-8, if it is valid. -/
def decode? (bytes : List UInt8) : Option Text :=
  (String.fromUTF8? ⟨bytes.toArray⟩).map String.toList

/-- The encoding of characters in UTF-8. -/
def encode (t : Text) : List UInt8 := (String.ofList t).toUTF8.toList

section

variable {m : Type → Type} [Monad m] (files : FileStore m) (o : Options)

/-- The source text, or why there is none. -/
def readSource : m (Except String Text) := do
  match ← files.read o.input with
  | .error e => return .error e.message
  | .ok bytes =>
    match decode? bytes with
    | some source => return .ok source
    | none => return .error "stream did not contain valid UTF-8"

/-- Write the listing if one is asked for: what that logs, and whether it went well. -/
def saveListing (a : Assembly) : m (List LogRecord × Bool) := do
  match o.listing with
  | none => return ([], true)
  | some path =>
    match ← files.write path (encode (Listing.text a.listing)) with
    | .ok () => return ([⟨.info, "listing saved to " ++ String.ofList path, []⟩], true)
    | .error e =>
      return ([⟨.error, "failed to write listing " ++ String.ofList path ++ ": " ++ e.message,
        []⟩], false)

/-- Write the image, then the listing; then say how the assembly went. -/
def save (a : Assembly) : m Report := do
  let output := o.output.getD (Path.withExtension o.input "bin".toList)
  let name := String.ofList output
  match ← files.write output a.binary with
  | .error e => return ⟨1, "", [⟨.error, "failed to write " ++ name ++ ": " ++ e.message, []⟩]⟩
  | .ok () =>
    let written : LogRecord := ⟨.info, toString a.binary.length ++ " bytes at $" ++
      String.ofList (Numeral.hex a.origin.toNat (some 4)) ++ " written to " ++ name, []⟩
    let (listed, saved) ← saveListing files o a
    if !saved then return ⟨1, "", written :: listed⟩
    let stdout := if o.symbols then symbolDump a.symbols else ""
    if a.isClean then return ⟨0, stdout, written :: listed⟩
    let failed : LogRecord :=
      ⟨.error, toString a.diagnostics.length ++ " line(s) failed to assemble", []⟩
    return ⟨1, stdout, written :: listed ++ [failed]⟩

/-- Assemble as the options say. Only a verbose log holds debugging messages. -/
def assemble : m Report := do
  match ← readSource files o with
  | .error message =>
    return ⟨1, "", [⟨.error, "failed to read " ++ String.ofList o.input ++ ": " ++ message, []⟩]⟩
  | .ok source =>
    let a := Assembly.ofText o.origin source
    let kept : Level := if o.verbose then .debug else .info
    let log := ((a.log o.verbose).map Event.toRecord).filter fun r => kept.admits r.level
    let report ← save files o a
    return { report with log := log ++ report.log }

/-- Run the program with its arguments. -/
def run (arguments : List Text) : m Report := do
  match Options.parse arguments with
  | .ok o => assemble files o
  | .error .help => return ⟨0, helpText, []⟩
  | .error .version => return ⟨0, versionText, []⟩
  | .error (.mistake e) => return ⟨2, "", [⟨.error, e.message, []⟩]⟩

end

end CommandLine

end Asm65
