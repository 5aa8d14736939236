-- SUMMARY: The program's entry: its arguments, the file system, and the standard streams.
import Asm65.CommandLine.Program

/-!
# Entry

The outer layer: it hands the arguments and the file system to the program, prints what the
program reports, and ends with its exit status.
-/
namespace Asm65.CommandLine

/-- Error numbers come with either sign. -/
def isCode (code number : UInt32) : Bool := code = number || code = 0 - number

/-- An error of the operating system as the program names it. -/
def FileError.ofIO : IO.Error → FileError
  | .noFileOrDirectory .. => .notFound
  | .inappropriateType _ code _ => if isCode code 21 then .isDirectory else .notDirectory
  | e@(.resourceExhausted _ code _) => if isCode code 28 then .noSpace else .other (toString e)
  | e@(.invalidArgument _ code _) => if isCode code 36 then .nameTooLong else .other (toString e)
  | e => .other (toString e)

/-- The files of the machine. -/
def systemFiles : FileStore IO where
  read path := do
    try
      let bytes ← IO.FS.readBinFile (String.ofList path)
      return .ok bytes.toList
    catch e => return .error (.ofIO e)
  write path bytes := do
    try
      let handle ← IO.FS.Handle.mk (String.ofList path) .write
      handle.write ⟨bytes.toArray⟩
      handle.flush
      return .ok ()
    catch e => return .error (.ofIO e)

end Asm65.CommandLine

open Asm65.CommandLine in
def main (arguments : List String) : IO UInt32 := do
  let report ← run systemFiles (arguments.map String.toList)
  IO.eprint (Asm65.LogRecord.text report.log)
  IO.print report.stdout
  return report.exit.toUInt32
