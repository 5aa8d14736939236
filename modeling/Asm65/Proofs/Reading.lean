-- SUMMARY: What a line says before any symbol has a value, and its effect as a function of that.
import Asm65.Proofs.Evaluation
import Asm65.Step

/-!
# Readings

Most of what a line does is settled by its text: what it is, which expressions it evaluates,
and most of what can be wrong with it. That part is its reading. The state adds the values
of the expressions, the program counter, and whether the line is held wide. So two states
are compared on a line by comparing these.
-/
namespace Asm65

theorem exists_of_map_ok {ε α β : Type} {f : α → β} {x : Except ε α} {b : β}
    (h : f <$> x = .ok b) : ∃ a, x = .ok a ∧ f a = b := by
  cases x with
  | error e => cases h
  | ok a => exact ⟨a, rfl, Except.ok.inj h⟩

theorem exists_of_bind_ok {ε α β : Type} {x : Except ε α} {f : α → Except ε β} {b : β}
    (h : x >>= f = .ok b) : ∃ a, x = .ok a ∧ f a = .ok b := by
  cases x with
  | error e => cases h
  | ok a => exact ⟨a, rfl, h⟩

/-! ## Arguments -/

/-- An operand that was read as an expression. -/
structure Argument where
  core : Text
  expr : Expr
  deriving DecidableEq

namespace Argument

/-- Read an expression. -/
def ofCore (core : Text) : Except Fault Argument :=
  match Expr.parse core with
  | .ok expr => .ok ⟨core, expr⟩
  | .error e => .error (.parse e.message)

/-- Read the operand of a directive, whose punctuation has no meaning. -/
def ofText (text : Text) : Except Fault Argument := do
  let parts ← OperandParts.ofText text
  ofCore parts.core

/-- Read an operand that has to be there. -/
def ofRequired : Option Text → Except Fault Argument
  | some text => ofText text
  | none => .error (.parse "missing operand")

/-- The operands of a list up to the first that cannot be read. -/
def leading : List Text → List Argument
  | [] => []
  | text :: rest =>
    match ofText text with
    | .ok a => a :: leading rest
    | .error _ => []

def value? (a : Argument) (symbols : SymbolTable) : Option Value := a.expr.eval? symbols

/-- The word that the value stands for, zero if there is none. -/
def wordBytes (a : Argument) (symbols : SymbolTable) : List UInt8 :=
  ((a.value? symbols).getD 0).wordBytes

theorem core_of_ofCore {core : Text} {a : Argument} (h : ofCore core = .ok a) :
    a.core = core := by
  unfold ofCore at h
  split at h
  · cases h
    rfl
  · cases h

theorem value?_of_le {t u : SymbolTable} (htu : t ≤ u) {a : Argument} {value : Value}
    (h : a.value? t = some value) : a.value? u = some value :=
  Expr.eval?_of_le htu h

theorem value?_congr {t u : SymbolTable} {a : Argument}
    (h : ∀ name ∈ a.expr.names, t.get? name = u.get? name) : a.value? t = a.value? u :=
  Expr.eval?_congr h

@[simp] theorem length_wordBytes (a : Argument) (symbols : SymbolTable) :
    (a.wordBytes symbols).length = 2 := rfl

end Argument

/-! ## Readings -/

/-- What a line says, its label apart. -/
inductive Reading where
  | nothing
  | data (bytes : List UInt8)
  | instruction (m : Mnemonic) (wide : Encoding) (argument : Option Argument)
  | equate (name : Text) (argument : Argument)
  | origin (argument : Argument)
  | words (arguments : List Argument)
  | storage (argument : Argument)
  deriving DecidableEq

namespace Reading

def ofInstruction (mnemonic : Text) (operand : Option Operand) : Except Fault Reading :=
  match Mnemonic.ofText? mnemonic with
  | none => .error (.unknownOpcode mnemonic)
  | some m =>
    match m.select? (Operand.modes operand) with
    | none => .error (.unknownMode mnemonic (Mode.alternatives (Operand.modes operand)))
    | some wide =>
      match operand with
      | some operand =>
        if wide.mode.takesOperand then
          (fun a => instruction m wide (some a)) <$> Argument.ofCore operand.core
        else .ok (instruction m wide none)
      | none => .ok (instruction m wide none)

def ofDirective (label : Option Text) (d : Directive) (operand : Option Text) :
    Except Fault Reading :=
  match d with
  | .data kind =>
    match operand.bind Literal.bytes? with
    | some bytes => .ok (data (kind.arrange bytes))
    | none => .error (.missingString (Directive.data kind).name)
  | .equ =>
    match label with
    | none => .error (.missingLabel Directive.equ.name)
    | some name => equate name <$> Argument.ofRequired operand
  | .org => origin <$> Argument.ofRequired operand
  | .da =>
    match operand with
    | none => .error (.parse (Directive.da.name ++ " needs an operand"))
    | some text => words <$> (text.splitOn ',').mapM Argument.ofText
  | .ds => storage <$> Argument.ofRequired operand
  | .chk => .ok nothing
  | .skipped _ => .ok nothing

/-- The expressions to evaluate, from left to right. -/
def arguments : Reading → List Argument
  | nothing => []
  | data _ => []
  | instruction _ _ argument => argument.toList
  | equate _ argument => [argument]
  | origin argument => [argument]
  | words arguments => arguments
  | storage argument => [argument]

/-- What is done with values for the expressions. -/
def effect (s : State) (site : Site) : Reading → Except Fault Effect
  | nothing => .ok .nothing
  | data bytes => .ok (.emit bytes false)
  | instruction m wide argument =>
    let value := argument.bind (Argument.value? · s.symbols)
    let encoding := m.narrow wide value (s.isWide site.line)
    (fun bytes => .emit (encoding.opcode :: bytes) (m.staysWide wide value site.pass)) <$>
      encoding.mode.operandBytes s.pc value
  | equate name argument =>
    match argument.value? s.symbols with
    | some value => .ok (.bind name value)
    | none => .ok (.unbind name)
  | origin argument =>
    match argument.value? s.symbols with
    | some value => .ok (.relocate value.toAddress)
    | none => .ok .nothing
  | words arguments => .ok (.emit (arguments.flatMap (Argument.wordBytes · s.symbols)) false)
  | storage argument =>
    match argument.value? s.symbols with
    | some n =>
      if 0 ≤ n ∧ n ≤ storageLimit then .ok (.emit (List.replicate n.toInt.toNat 0) false)
      else .error (.parse ("bad storage size " ++ toString n.toInt))
    | none => .ok .nothing

/-- The effect hangs on the address, on the memory of wide lines, and on the values of the
arguments. -/
theorem effect_congr {s t : State} {site : Site} {r : Reading} (hpc : s.pc = t.pc)
    (hwide : s.isWide site.line = t.isWide site.line)
    (hvalue : ∀ a ∈ r.arguments, a.value? s.symbols = a.value? t.symbols) :
    r.effect s site = r.effect t site := by
  cases r with
  | nothing => rfl
  | data bytes => rfl
  | instruction m wide argument =>
    have hargument : argument.bind (Argument.value? · s.symbols) =
        argument.bind (Argument.value? · t.symbols) := by
      cases argument with
      | none => rfl
      | some a => exact hvalue a (List.mem_singleton.mpr rfl)
    simp only [effect, hargument, hwide, hpc]
  | equate name a => simp only [effect, hvalue a (List.mem_singleton.mpr rfl)]
  | origin a => simp only [effect, hvalue a (List.mem_singleton.mpr rfl)]
  | words arguments =>
    have hwords (a : Argument) (ha : a ∈ arguments) :
        a.wordBytes s.symbols = a.wordBytes t.symbols := by
      unfold Argument.wordBytes
      rw [hvalue a ha]
    have hbytes : arguments.flatMap (Argument.wordBytes · s.symbols) =
        arguments.flatMap (Argument.wordBytes · t.symbols) :=
      List.flatMap_congr hwords
    simp only [effect, hbytes]
  | storage a => simp only [effect, hvalue a (List.mem_singleton.mpr rfl)]

end Reading

namespace Line

/-- What the line says, or what is wrong with it whatever the state. -/
def reading (line : Line) : Except Fault Reading :=
  match line.body with
  | .error e => .error e
  | .ok .blank => .ok .nothing
  | .ok (.instruction mnemonic operand) => Reading.ofInstruction mnemonic operand
  | .ok (.directive d operand) => Reading.ofDirective line.label d operand

/-- The expressions that the line evaluates. A list of words is evaluated up to the first
operand that cannot be read. -/
def arguments (line : Line) : List Argument :=
  match line.reading, line.body with
  | .ok r, _ => r.arguments
  | .error _, .ok (.directive .da (some text)) => Argument.leading (text.splitOn ',')
  | .error _, _ => []

theorem arguments_of_reading {line : Line} {r : Reading} (h : line.reading = .ok r) :
    line.arguments = r.arguments := by
  rw [arguments, h]

end Line

/-! ## Effects through readings -/

namespace State

/-- The warning on a chain. -/
def chainEvents (site : Site) (a : Argument) : List Event :=
  if a.expr.isChained && site.pass.reports then [.chained site.line a.core] else []

/-- The report on an argument: nothing if it has a value. -/
def reportArgument (s : State) (site : Site) (a : Argument) : List Event :=
  s.reportUnresolved site ⟨a.expr, a.value? s.symbols⟩ a.core

theorem evaluate_eq (s : State) (site : Site) (core : Text) :
    s.evaluate site core =
      match Argument.ofCore core with
      | .ok a => ⟨chainEvents site a, .ok ⟨a.expr, a.value? s.symbols⟩⟩
      | .error e => .fail e := by
  unfold evaluate Argument.ofCore
  cases Expr.parse core with
  | ok expr => simp [Logged.ofExcept, Logged.tell, Except.mapError, Argument.value?, chainEvents]
  | error e => rfl

theorem operandValue_eq (s : State) (site : Site) (text : Text) :
    s.operandValue site text =
      match Argument.ofText text with
      | .ok a => ⟨chainEvents site a ++ s.reportArgument site a, .ok (a.value? s.symbols)⟩
      | .error e => .fail e := by
  unfold operandValue Argument.ofText
  cases OperandParts.ofText text with
  | error e => rfl
  | ok parts =>
    simp only [Logged.ofExcept, Logged.bind_ok, evaluate_eq]
    have hcore : (Except.ok parts >>= fun parts : OperandParts => Argument.ofCore parts.core) =
      Argument.ofCore parts.core := rfl
    rw [hcore]
    unfold Argument.ofCore
    cases Expr.parse parts.core with
    | error e => rfl
    | ok expr => simp [Logged.tell, chainEvents, reportArgument]

theorem requiredValue_eq (s : State) (site : Site) (operand : Option Text) :
    s.requiredValue site operand =
      match Argument.ofRequired operand with
      | .ok a => ⟨chainEvents site a ++ s.reportArgument site a, .ok (a.value? s.symbols)⟩
      | .error e => .fail e := by
  cases operand with
  | none => rfl
  | some text => exact s.operandValue_eq site text

theorem result_words (s : State) (site : Site) (texts : List Text) :
    (s.words site texts).result =
      (fun arguments => arguments.flatMap (Argument.wordBytes · s.symbols)) <$>
        texts.mapM Argument.ofText := by
  induction texts with
  | nil => rfl
  | cons text rest ih =>
    rw [words, operandValue_eq, List.mapM_cons]
    cases Argument.ofText text with
    | error e => rfl
    | ok a =>
      simp only [Logged.bind_ok]
      revert ih
      rcases s.words site rest with ⟨events, result⟩
      cases rest.mapM Argument.ofText with
      | error e =>
        rintro (rfl : result = .error e)
        rfl
      | ok arguments =>
        rintro (rfl : result = .ok (arguments.flatMap (Argument.wordBytes · s.symbols)))
        rfl

/-- An operand without a value is encoded all the same. -/
theorem exists_operandBytes_none (mode : Mode) (pc : Address) :
    ∃ bytes, mode.operandBytes pc none = .ok bytes := by
  cases mode <;> exact ⟨_, rfl⟩

/-- Encoding with the operand evaluated. A branch out of range has a value, so that its
failure hides no report. -/
theorem encode_eq {s : State} {site : Site} {m : Mnemonic} {wide : Encoding}
    {operand : Option Operand} {events : List Event} {evaluation : Option Evaluation}
    (h : s.evaluateOperand site wide.mode operand = ⟨events, .ok evaluation⟩) :
    let value := evaluation.bind Evaluation.value
    let encoding := m.narrow wide value (s.isWide site.line)
    s.encode site m wide operand =
      ⟨events ++ .modeSelected site.line m encoding.mode value ::
          s.reportOperand site evaluation operand,
        (fun bytes => .emit (encoding.opcode :: bytes) (m.staysWide wide value site.pass)) <$>
          encoding.mode.operandBytes s.pc value⟩ := by
  intro value encoding
  unfold encode
  rw [h, Logged.bind_ok]
  cases hbytes : encoding.mode.operandBytes s.pc value with
  | ok bytes => simp [Logged.tell, Logged.ofExcept, value, encoding, hbytes]
  | error e =>
    have hreport : s.reportOperand site evaluation operand = [] := by
      cases evaluation with
      | none => rfl
      | some evaluation =>
        cases operand with
        | none => rfl
        | some operand =>
          obtain ⟨expr, v⟩ := evaluation
          cases v with
          | some v => rfl
          | none =>
            obtain ⟨bytes, hok⟩ := exists_operandBytes_none encoding.mode s.pc
            have hnone : value = none := rfl
            rw [hnone, hok] at hbytes
            cases hbytes
    simp [Logged.tell, Logged.ofExcept, value, encoding, hbytes, hreport]

/-- The events of an instruction whose mode was selected. -/
def instructionEvents (s : State) (site : Site) (m : Mnemonic) (wide : Encoding)
    (argument : Option Argument) : List Event :=
  let value := argument.bind (Argument.value? · s.symbols)
  argument.toList.flatMap (chainEvents site) ++
    .modeSelected site.line m (m.narrow wide value (s.isWide site.line)).mode value ::
      argument.toList.flatMap (s.reportArgument site)

theorem encode_some {s : State} {site : Site} {m : Mnemonic} {wide : Encoding}
    {operand : Operand} {a : Argument} (takes : wide.mode.takesOperand)
    (h : Argument.ofCore operand.core = .ok a) :
    s.encode site m wide (some operand) =
      ⟨s.instructionEvents site m wide (some a),
        Reading.effect s site (.instruction m wide (some a))⟩ := by
  have hevaluate : s.evaluateOperand site wide.mode (some operand) =
      ⟨chainEvents site a, .ok (some ⟨a.expr, a.value? s.symbols⟩)⟩ := by
    simp only [evaluateOperand, if_pos takes, evaluate_eq, h]
    exact congrArg (Logged.mk · _) (List.append_nil _)
  have hcore : a.core = operand.core := Argument.core_of_ofCore h
  rw [encode_eq hevaluate]
  simp [instructionEvents, reportOperand, reportArgument, Reading.effect, hcore]

theorem encode_none {s : State} {site : Site} {m : Mnemonic} {wide : Encoding}
    {operand : Option Operand} (h : ∀ o, operand = some o → wide.mode.takesOperand = false) :
    s.encode site m wide operand =
      ⟨s.instructionEvents site m wide none,
        Reading.effect s site (.instruction m wide none)⟩ := by
  have hevaluate : s.evaluateOperand site wide.mode operand = ⟨[], .ok none⟩ := by
    cases operand with
    | none => rfl
    | some o =>
      unfold evaluateOperand
      rw [h o rfl]
      rfl
  rw [encode_eq hevaluate]
  rfl

/-- An instruction cannot be read, or its mode is selected and its encoding is left. -/
theorem instruction_cases (mnemonic : Text) (operand : Option Operand) :
    (∃ e, Reading.ofInstruction mnemonic operand = .error e ∧
      ∀ (s : State) (site : Site), s.instruction site mnemonic operand = .fail e) ∨
    (∃ m wide argument, Mnemonic.ofText? mnemonic = some m ∧
      m.select? (Operand.modes operand) = some wide ∧
      Reading.ofInstruction mnemonic operand = .ok (.instruction m wide argument) ∧
      ∀ (s : State) (site : Site), s.instruction site mnemonic operand =
        ⟨s.instructionEvents site m wide argument,
          Reading.effect s site (.instruction m wide argument)⟩) := by
  cases hm : Mnemonic.ofText? mnemonic with
  | none =>
    refine .inl ⟨.unknownOpcode mnemonic, ?_, fun s site => ?_⟩
    · simp only [Reading.ofInstruction, hm]
    · simp only [instruction, hm]
  | some m =>
    cases hselect : m.select? (Operand.modes operand) with
    | none =>
      refine .inl ⟨.unknownMode mnemonic (Mode.alternatives (Operand.modes operand)), ?_,
        fun s site => ?_⟩
      · simp only [Reading.ofInstruction, hm, hselect]
      · simp only [instruction, hm, hselect]
    | some wide =>
      cases operand with
      | none =>
        refine .inr ⟨m, wide, none, rfl, hselect, ?_, fun s site => ?_⟩
        · simp only [Reading.ofInstruction, hm, hselect]
        · simp only [instruction, hm, hselect]
          exact encode_none (by simp)
      | some operand =>
        by_cases takes : wide.mode.takesOperand
        · cases hread : Argument.ofCore operand.core with
          | error e =>
            refine .inl ⟨e, ?_, fun s site => ?_⟩
            · simp only [Reading.ofInstruction, hm, hselect, if_pos takes, hread]
              rfl
            · simp only [instruction, hm, hselect, encode, evaluateOperand, if_pos takes,
                evaluate_eq, hread]
              rfl
          | ok a =>
            refine .inr ⟨m, wide, some a, rfl, hselect, ?_, fun s site => ?_⟩
            · simp only [Reading.ofInstruction, hm, hselect, if_pos takes, hread]
              rfl
            · simp only [instruction, hm, hselect]
              exact encode_some takes hread
        · refine .inr ⟨m, wide, none, rfl, hselect, ?_, fun s site => ?_⟩
          · simp only [Reading.ofInstruction, hm, hselect, if_neg takes]
          · simp only [instruction, hm, hselect]
            exact encode_none fun _ _ => by simpa using takes

theorem result_directive (s : State) (site : Site) (label : Option Text) (d : Directive)
    (operand : Option Text) :
    (s.directive site label d operand).result =
      Reading.ofDirective label d operand >>= Reading.effect s site := by
  cases d with
  | data kind =>
    simp only [directive, dataEffect, Reading.ofDirective]
    cases operand.bind Literal.bytes? <;> rfl
  | equ =>
    cases label with
    | none => rfl
    | some name =>
      simp only [directive, equateEffect, Reading.ofDirective, requiredValue_eq]
      cases Argument.ofRequired operand with
      | error e => rfl
      | ok a =>
        change _ = Reading.effect s site (.equate name a)
        simp only [Logged.bind_ok, Reading.effect]
        cases a.value? s.symbols <;> rfl
  | org =>
    simp only [directive, originEffect, Reading.ofDirective, requiredValue_eq]
    cases Argument.ofRequired operand with
    | error e => rfl
    | ok a =>
      change _ = Reading.effect s site (.origin a)
      simp only [Logged.bind_ok, Reading.effect]
      cases a.value? s.symbols <;> rfl
  | da =>
    cases operand with
    | none => rfl
    | some text =>
      have hwords := s.result_words site (text.splitOn ',')
      simp only [directive, wordsEffect, Reading.ofDirective]
      revert hwords
      rcases s.words site (text.splitOn ',') with ⟨events, result⟩
      cases (text.splitOn ',').mapM Argument.ofText with
      | error e =>
        rintro (rfl : result = .error e)
        rfl
      | ok arguments =>
        rintro (rfl : result = .ok (arguments.flatMap (Argument.wordBytes · s.symbols)))
        rfl
  | ds =>
    simp only [directive, storageEffect, Reading.ofDirective, requiredValue_eq]
    cases Argument.ofRequired operand with
    | error e => rfl
    | ok a =>
      change _ = Reading.effect s site (.storage a)
      simp only [Logged.bind_ok, Reading.effect]
      cases a.value? s.symbols with
      | none => rfl
      | some n =>
        dsimp only
        split <;> rfl
  | chk => rfl
  | skipped kind => rfl

end State

/-! ## Lines of a reading -/

namespace Reading

/-- Directives give no instruction, and `EQU` alone gives a constant. -/
theorem ofDirective_ok {label : Option Text} {d : Directive} {operand : Option Text}
    {r : Reading} (h : ofDirective label d operand = .ok r) :
    (∀ m wide a, r ≠ instruction m wide a) ∧
      ∀ name a, r = equate name a → d = .equ ∧ label = some name := by
  unfold ofDirective at h
  cases d with
  | data kind =>
    dsimp only at h
    split at h
    · cases h
      exact ⟨fun _ _ _ h => (by cases h), fun _ _ h => (by cases h)⟩
    · cases h
  | equ =>
    cases label with
    | none => cases h
    | some name =>
      dsimp only at h
      obtain ⟨a, -, rfl⟩ := exists_of_map_ok h
      exact ⟨fun _ _ _ h => (by cases h), fun _ _ h => (by cases h; exact ⟨rfl, rfl⟩)⟩
  | org =>
    dsimp only at h
    obtain ⟨a, -, rfl⟩ := exists_of_map_ok h
    exact ⟨fun _ _ _ h => (by cases h), fun _ _ h => (by cases h)⟩
  | da =>
    cases operand with
    | none => cases h
    | some text =>
      dsimp only at h
      obtain ⟨arguments, -, rfl⟩ := exists_of_map_ok h
      exact ⟨fun _ _ _ h => (by cases h), fun _ _ h => (by cases h)⟩
  | ds =>
    dsimp only at h
    obtain ⟨a, -, rfl⟩ := exists_of_map_ok h
    exact ⟨fun _ _ _ h => (by cases h), fun _ _ h => (by cases h)⟩
  | chk =>
    cases h
    exact ⟨fun _ _ _ h => (by cases h), fun _ _ h => (by cases h)⟩
  | skipped kind =>
    cases h
    exact ⟨fun _ _ _ h => (by cases h), fun _ _ h => (by cases h)⟩

theorem ofInstruction_ok {mnemonic : Text} {operand : Option Operand} {r : Reading}
    (h : ofInstruction mnemonic operand = .ok r) :
    ∃ m wide a, r = instruction m wide a ∧ Mnemonic.ofText? mnemonic = some m ∧
      m.select? (Operand.modes operand) = some wide := by
  rcases State.instruction_cases mnemonic operand with
    ⟨e, hread, -⟩ | ⟨m, wide, a, hm, hselect, hread, -⟩
  · rw [hread] at h
    cases h
  · rw [hread] at h
    cases h
    exact ⟨m, wide, a, rfl, hm, hselect⟩

end Reading

namespace Line

theorem body_of_instruction {line : Line} {m : Mnemonic} {wide : Encoding}
    {argument : Option Argument} (h : line.reading = .ok (.instruction m wide argument)) :
    ∃ mnemonic operand, line.body = .ok (.instruction mnemonic operand) ∧
      Mnemonic.ofText? mnemonic = some m ∧
      m.select? (Operand.modes operand) = some wide := by
  unfold reading at h
  split at h
  · cases h
  · cases h
  · next mnemonic operand hbody =>
    obtain ⟨m', wide', a', heq, hm, hselect⟩ := Reading.ofInstruction_ok h
    cases heq
    exact ⟨mnemonic, operand, hbody, hm, hselect⟩
  · exact absurd rfl ((Reading.ofDirective_ok h).1 m wide argument)

theorem body_of_equate {line : Line} {name : Text} {a : Argument}
    (h : line.reading = .ok (.equate name a)) :
    line.label = some name ∧ ∃ operand, line.body = .ok (.directive .equ operand) := by
  unfold reading at h
  split at h
  · cases h
  · cases h
  · obtain ⟨m, wide, argument, heq, -, -⟩ := Reading.ofInstruction_ok h
    cases heq
  · next d operand hbody =>
    obtain ⟨rfl, hlabel⟩ := (Reading.ofDirective_ok h).2 name a rfl
    exact ⟨hlabel, operand, hbody⟩

/-- A constant is not bound to the address of its line as well. -/
theorem addressLabel?_of_equate {line : Line} {name : Text} {a : Argument}
    (h : line.reading = .ok (.equate name a)) : line.addressLabel? = none := by
  obtain ⟨-, operand, hbody⟩ := body_of_equate h
  unfold addressLabel?
  rw [hbody]

end Line

namespace State

/-- The effect of a line hangs on the state through its reading only. -/
theorem result_effect (s : State) (site : Site) (line : Line) :
    (s.effect site line).result = line.reading >>= Reading.effect s site := by
  unfold effect Line.reading
  cases line.body with
  | error e => rfl
  | ok statement =>
    cases statement with
    | blank => rfl
    | instruction mnemonic operand =>
      rcases instruction_cases mnemonic operand with ⟨e, hread, h⟩ | ⟨m, wide, a, -, -, hread, h⟩
      · simp only [hread, h]
        rfl
      · simp only [hread, h]
        rfl
    | directive d operand => exact s.result_directive site line.label d operand

end State

end Asm65
