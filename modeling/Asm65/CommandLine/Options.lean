-- SUMMARY: Reading the arguments of the command line.
import Asm65.Number
import Asm65.State

/-!
# Command line options

Arguments are judged one after another, and the first one that settles the matter does so:
a mistake, or a request for help or for the version. Every option may be given once. A value
stands in the next argument or is attached to its option; only an attached one may begin with
a dash. After `--` nothing is an option.
-/
namespace Asm65.CommandLine

/-- What an assembly is to do. -/
structure Options where
  input : Text
  output : Option Text
  verbose : Bool
  origin : Address
  listing : Option Text
  symbols : Bool

/-- A mistake in the arguments. -/
inductive UsageError where
  | unknownOption (argument : Text)
  | repeatedOption (name : String)
  | missingValue (name : String)
  | unexpectedValue (name : String)
  | emptyPath (name : String)
  | badNumber (cause : NumberError)
  | originTooLarge (text : Text)
  | secondInput (argument : Text)
  | missingInput
  deriving DecidableEq

def UsageError.message : UsageError → String
  | unknownOption argument => "unknown option " ++ String.ofList argument
  | repeatedOption name => name ++ " is given twice"
  | missingValue name => name ++ " needs a value"
  | unexpectedValue name => name ++ " takes no value"
  | emptyPath name => name ++ " needs a path"
  | badNumber cause => cause.message
  | originTooLarge text => "origin " ++ String.ofList text ++ " does not fit in 16 bits"
  | secondInput argument => "unexpected argument " ++ String.ofList argument
  | missingInput => "no source file is given"

/-- What ends the reading of arguments. -/
inductive Verdict where
  | mistake (e : UsageError)
  | help
  | version
  deriving DecidableEq

/-- The options with a value. -/
inductive Valued where
  | output
  | origin
  | listing
  deriving DecidableEq

/-- The options without one. -/
inductive Flag where
  | verbose
  | symbols
  | help
  | version
  deriving DecidableEq

def Valued.name : Valued → String
  | output => "--output"
  | origin => "--origin"
  | listing => "--listing"

def Flag.name : Flag → String
  | verbose => "--verbose"
  | symbols => "--symbols"
  | help => "--help"
  | version => "--version"

/-- The option of a long name, without its dashes. -/
def ofLongName? (name : Text) : Option (Valued ⊕ Flag) :=
  match [Valued.output, .origin, .listing].find? fun o => o.name.toList.drop 2 == name with
  | some option => some (.inl option)
  | none =>
    ([Flag.verbose, .symbols, .help, .version].find? fun f => f.name.toList.drop 2 == name).map
      .inr

def ofLetter? : Char → Option (Valued ⊕ Flag)
  | 'o' => some (.inl .output)
  | 'v' => some (.inr .verbose)
  | 'h' => some (.inr .help)
  | 'V' => some (.inr .version)
  | _ => none

/-- What the arguments read so far say. -/
structure Reading where
  input : Option Text
  output : Option Text
  verbose : Bool
  origin : Option Address
  listing : Option Text
  symbols : Bool
  /-- The option whose value has to come next. -/
  awaited : Option Valued
  /-- The rest are no options. -/
  plain : Bool

namespace Reading

def start : Reading := ⟨none, none, false, none, none, false, none, false⟩

/-- A path, which is not empty. -/
def path (name : String) (t : Text) : Except Verdict Text :=
  if t = [] then .error (.mistake (.emptyPath name)) else .ok t

/-- An origin: a number literal of sixteen bits. -/
def address (t : Text) : Except Verdict Address :=
  match Number.parse t with
  | .error cause => .error (.mistake (.badNumber cause))
  | .ok value =>
    if value < 0x10000 then .ok value.toAddress else .error (.mistake (.originTooLarge t))

/-- Fill a place that is to be filled once. -/
def once {α : Type} (name : String) (place : Option α) (value : Except Verdict α) :
    Except Verdict (Option α) :=
  match place with
  | some _ => .error (.mistake (.repeatedOption name))
  | none => some <$> value

def setInput (r : Reading) (t : Text) : Except Verdict Reading :=
  match r.input with
  | some _ => .error (.mistake (.secondInput t))
  | none => do return { r with input := some (← path "the source file" t) }

def setValue (r : Reading) (option : Valued) (t : Text) : Except Verdict Reading := do
  let r := { r with awaited := none }
  match option with
  | .output => return { r with output := ← once option.name r.output (path option.name t) }
  | .origin => return { r with origin := ← once option.name r.origin (address t) }
  | .listing => return { r with listing := ← once option.name r.listing (path option.name t) }

def setFlag (r : Reading) (flag : Flag) : Except Verdict Reading :=
  match flag with
  | .verbose =>
    if r.verbose then .error (.mistake (.repeatedOption flag.name))
    else .ok { r with verbose := true }
  | .symbols =>
    if r.symbols then .error (.mistake (.repeatedOption flag.name))
    else .ok { r with symbols := true }
  | .help => .error .help
  | .version => .error .version

/-- An option by its long name, with its value after an equals sign or not attached. -/
def long (r : Reading) (argument : Text) : Except Verdict Reading :=
  let attached := (argument.dropWhile (· ≠ '=')).drop 1
  match ofLongName? (argument.takeWhile (· ≠ '=')), argument.contains '=' with
  | some (.inl option), true => r.setValue option attached
  | some (.inl option), false => .ok { r with awaited := some option }
  | some (.inr flag), false => r.setFlag flag
  | some (.inr flag), true => .error (.mistake (.unexpectedValue flag.name))
  | none, _ => .error (.mistake (.unknownOption ('-' :: '-' :: argument)))

/-- The letters after a single dash. One with a value takes all that follows it, without an
equals sign at the front. -/
def letters (r : Reading) : Text → Except Verdict Reading
  | [] => .ok r
  | c :: rest =>
    match ofLetter? c with
    | some (.inl option) =>
      match rest with
      | [] => .ok { r with awaited := some option }
      | '=' :: value => r.setValue option value
      | value => r.setValue option value
    | some (.inr flag) => do (← r.setFlag flag).letters rest
    | none => .error (.mistake (.unknownOption ['-', c]))

/-- An argument that is not the value of the option before it. -/
def item (r : Reading) (argument : Text) : Except Verdict Reading :=
  if r.plain then r.setInput argument
  else
    match argument with
    | ['-', '-'] => .ok { r with plain := true }
    | '-' :: '-' :: name => r.long name
    | '-' :: c :: rest => r.letters (c :: rest)
    | _ => r.setInput argument

def looksLikeOption : Text → Bool
  | '-' :: _ :: _ => true
  | _ => false

/-- Read one argument. -/
def next (r : Reading) (argument : Text) : Except Verdict Reading :=
  match r.awaited with
  | some option =>
    if looksLikeOption argument then .error (.mistake (.missingValue option.name))
    else r.setValue option argument
  | none => r.item argument

/-- The options, once all arguments are read. -/
def options (r : Reading) : Except Verdict Options :=
  match r.awaited, r.input with
  | some option, _ => .error (.mistake (.missingValue option.name))
  | none, none => .error (.mistake .missingInput)
  | none, some input =>
    .ok ⟨input, r.output, r.verbose, r.origin.getD defaultOrigin, r.listing, r.symbols⟩

end Reading

/-- Read the arguments of the command line. -/
def Options.parse (arguments : List Text) : Except Verdict Options :=
  arguments.foldlM Reading.next Reading.start >>= Reading.options

end Asm65.CommandLine
