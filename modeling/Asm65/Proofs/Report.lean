-- SUMMARY: What a line logs: the diagnostics of its effect and the encoding it selects.
import Asm65.Proofs.Reading

/-!
# Reports

Two views of the events of a line matter to the rest of the theory: its diagnostics, and
the mode that an instruction selects with the value of its operand. Before a line fails, it
can only report arguments without a value.
-/
namespace Asm65

/-! ## Views -/

/-- The encoding that an instruction was given. -/
structure Selection where
  mnemonic : Mnemonic
  mode : Mode
  /-- The value of the operand; none also where the mode takes no operand. -/
  value : Option Value
  deriving DecidableEq

namespace Event

def selection? : Event → Option Selection
  | modeSelected _ mnemonic mode value => some ⟨mnemonic, mode, value⟩
  | _ => none

/-- The encodings that were selected, in order. -/
def selections (events : List Event) : List Selection := events.filterMap selection?

@[simp] theorem selections_nil : selections [] = [] := rfl

@[simp] theorem selections_append (before after : List Event) :
    selections (before ++ after) = selections before ++ selections after :=
  List.filterMap_append

theorem selections_cons (event : Event) (events : List Event) :
    selections (event :: events) = (event.selection?).toList ++ selections events := by
  unfold selections
  cases h : event.selection? with
  | none => rw [List.filterMap_cons_none h]; rfl
  | some selection => rw [List.filterMap_cons_some h]; rfl

end Event

theorem Site.selections_report (site : Site) (fault : Fault) :
    Event.selections (site.report fault) = [] := by
  unfold Site.report
  split <;> rfl

theorem Logged.events_bind_pure {α β : Type} (x : Logged α) (f : α → β) :
    (x >>= fun a => Pure.pure (f a)).events = x.events := by
  rcases x with ⟨events, result⟩
  cases result with
  | ok a => exact List.append_nil events
  | error e => rfl

namespace Argument

theorem leading_of_mapM {texts : List Text} {arguments : List Argument}
    (h : texts.mapM ofText = .ok arguments) : leading texts = arguments := by
  induction texts generalizing arguments with
  | nil =>
    cases h
    rfl
  | cons text rest ih =>
    rw [List.mapM_cons] at h
    rw [leading]
    cases htext : ofText text with
    | error e =>
      rw [htext] at h
      cases h
    | ok a =>
      cases hrest : rest.mapM ofText with
      | error e =>
        rw [htext, hrest] at h
        cases h
      | ok others =>
        rw [htext, hrest] at h
        cases h
        exact congrArg (a :: ·) (ih hrest)

end Argument

namespace State

variable (s : State) (site : Site)

/-! ## Events of arguments -/

@[simp] theorem diagnostics_chainEvents (a : Argument) :
    Event.diagnostics (chainEvents site a) = [] := by
  unfold chainEvents
  split <;> rfl

@[simp] theorem selections_chainEvents (a : Argument) :
    Event.selections (chainEvents site a) = [] := by
  unfold chainEvents
  split <;> rfl

@[simp] theorem selections_reportArgument (a : Argument) :
    Event.selections (s.reportArgument site a) = [] := by
  unfold reportArgument reportUnresolved
  split
  · rfl
  · exact Site.selections_report site _

/-- The diagnostics of evaluating arguments. -/
def argumentDiagnostics (arguments : List Argument) : List Diagnostic :=
  arguments.flatMap fun a => Event.diagnostics (s.reportArgument site a)

theorem diagnostics_words (texts : List Text) :
    Event.diagnostics (s.words site texts).events =
      s.argumentDiagnostics site (Argument.leading texts) := by
  induction texts with
  | nil => rfl
  | cons text rest ih =>
    rw [words, operandValue_eq, Argument.leading]
    cases Argument.ofText text with
    | error e => rfl
    | ok a =>
      simp only [Logged.bind_ok, Logged.events_bind_pure, Event.diagnostics_append, ih,
        diagnostics_chainEvents, List.nil_append]
      rfl

theorem selections_words (texts : List Text) :
    Event.selections (s.words site texts).events = [] := by
  induction texts with
  | nil => rfl
  | cons text rest ih =>
    rw [words, operandValue_eq]
    cases Argument.ofText text with
    | error e => rfl
    | ok a =>
      simp only [Logged.bind_ok, Logged.events_bind_pure, Event.selections_append, ih,
        selections_chainEvents, selections_reportArgument, List.append_nil]

/-! ## Events of effects -/

theorem diagnostics_instructionEvents (m : Mnemonic) (wide : Encoding)
    (argument : Option Argument) :
    Event.diagnostics (s.instructionEvents site m wide argument) =
      s.argumentDiagnostics site argument.toList := by
  cases argument with
  | none => rfl
  | some a =>
    simp only [instructionEvents, Option.toList_some, List.flatMap_cons, List.flatMap_nil,
      List.append_nil, Event.diagnostics_append, diagnostics_chainEvents, List.nil_append,
      argumentDiagnostics]
    rfl

theorem selections_instructionEvents (m : Mnemonic) (wide : Encoding)
    (argument : Option Argument) :
    Event.selections (s.instructionEvents site m wide argument) =
      let value := argument.bind (Argument.value? · s.symbols)
      [⟨m, (m.narrow wide value (s.isWide site.line)).mode, value⟩] := by
  cases argument with
  | none => rfl
  | some a =>
    simp only [instructionEvents, Option.toList_some, List.flatMap_cons, List.flatMap_nil,
      List.append_nil, Event.selections_append, selections_chainEvents, List.nil_append,
      Event.selections_cons, selections_reportArgument]
    rfl

/-- The effect of a directive that evaluates one operand. -/
private theorem events_requiredValue (operand : Option Text)
    (f : Option Value → Logged Effect)
    (quiet : ∀ value, Event.diagnostics (f value).events = [] ∧
      Event.selections (f value).events = []) :
    Event.diagnostics (s.requiredValue site operand >>= f).events =
        s.argumentDiagnostics site (Argument.ofRequired operand).toOption.toList ∧
      Event.selections (s.requiredValue site operand >>= f).events = [] := by
  rw [requiredValue_eq]
  cases Argument.ofRequired operand with
  | error e => exact ⟨rfl, rfl⟩
  | ok a =>
    obtain ⟨hdiagnostics, hselections⟩ := quiet (a.value? s.symbols)
    simp only [Logged.bind_ok, Event.diagnostics_append, Event.selections_append, hdiagnostics,
      hselections, diagnostics_chainEvents, selections_chainEvents, selections_reportArgument,
      List.nil_append, List.append_nil, and_true]
    exact (List.append_nil _).symm

/-- A directive reports the arguments it evaluates and selects nothing. -/
theorem events_directive (label : Option Text) (d : Directive) (operand : Option Text) :
    Event.diagnostics (s.directive site label d operand).events =
        s.argumentDiagnostics site (Line.arguments ⟨label, .ok (.directive d operand)⟩) ∧
      Event.selections (s.directive site label d operand).events = [] := by
  unfold Line.arguments
  simp only [Line.reading]
  cases d with
  | data kind =>
    simp only [directive, dataEffect, Reading.ofDirective]
    cases operand.bind Literal.bytes? <;> exact ⟨rfl, rfl⟩
  | equ =>
    cases label with
    | none => exact ⟨rfl, rfl⟩
    | some name =>
      simp only [directive, equateEffect, Reading.ofDirective]
      refine (s.events_requiredValue site operand _ ?_).imp (fun h => h.trans ?_) id
      · intro value
        cases value <;> exact ⟨rfl, rfl⟩
      · cases Argument.ofRequired operand <;> rfl
  | org =>
    simp only [directive, originEffect, Reading.ofDirective]
    refine (s.events_requiredValue site operand _ ?_).imp (fun h => h.trans ?_) id
    · intro value
      cases value <;> exact ⟨rfl, rfl⟩
    · cases Argument.ofRequired operand <;> rfl
  | da =>
    cases operand with
    | none => exact ⟨rfl, rfl⟩
    | some text =>
      have hdiagnostics := s.diagnostics_words site (text.splitOn ',')
      have hselections := s.selections_words site (text.splitOn ',')
      simp only [directive, wordsEffect, Reading.ofDirective, Logged.events_bind_pure]
      cases hread : (text.splitOn ',').mapM Argument.ofText with
      | error e => exact ⟨hdiagnostics, hselections⟩
      | ok arguments =>
        rw [Argument.leading_of_mapM hread] at hdiagnostics
        exact ⟨hdiagnostics, hselections⟩
  | ds =>
    simp only [directive, storageEffect, Reading.ofDirective]
    refine (s.events_requiredValue site operand _ ?_).imp (fun h => h.trans ?_) id
    · intro value
      cases value with
      | none => exact ⟨rfl, rfl⟩
      | some n =>
        dsimp only
        split <;> exact ⟨rfl, rfl⟩
    · cases Argument.ofRequired operand <;> rfl
  | chk => exact ⟨rfl, rfl⟩
  | skipped kind =>
    simp only [directive, Reading.ofDirective]
    split <;> exact ⟨rfl, rfl⟩

/-- Before a line fails or has its effect, it reports the arguments without a value. -/
theorem diagnostics_effect (line : Line) :
    Event.diagnostics (s.effect site line).events =
      s.argumentDiagnostics site line.arguments := by
  obtain ⟨label, body⟩ := line
  cases body with
  | error e => rfl
  | ok statement =>
    cases statement with
    | blank => rfl
    | instruction mnemonic operand =>
      simp only [effect, Line.arguments, Line.reading]
      rcases instruction_cases mnemonic operand with ⟨e, hread, h⟩ | ⟨m, wide, a, -, -, hread, h⟩
      · simp only [hread, h]
        rfl
      · simp only [hread, h]
        exact s.diagnostics_instructionEvents site m wide a
    | directive d operand => exact (s.events_directive site label d operand).1

/-- Instructions alone select an encoding. -/
theorem selections_effect (line : Line) :
    Event.selections (s.effect site line).events =
      match line.reading with
      | .ok (.instruction m wide argument) =>
        let value := argument.bind (Argument.value? · s.symbols)
        [⟨m, (m.narrow wide value (s.isWide site.line)).mode, value⟩]
      | _ => [] := by
  obtain ⟨label, body⟩ := line
  cases body with
  | error e => rfl
  | ok statement =>
    cases statement with
    | blank => rfl
    | instruction mnemonic operand =>
      simp only [effect, Line.reading]
      rcases instruction_cases mnemonic operand with ⟨e, hread, h⟩ | ⟨m, wide, a, -, -, hread, h⟩
      · simp only [hread, h]
        rfl
      · simp only [hread, h]
        exact s.selections_instructionEvents site m wide a
    | directive d operand =>
      refine (s.events_directive site label d operand).2.trans ?_
      split
      · next m wide argument hread =>
        exact absurd rfl ((Reading.ofDirective_ok hread).1 m wide argument)
      · rfl

end State

end Asm65
