-- SUMMARY: What one line changes: the symbol table, the program counter and the memories, part by part.
import Asm65.Proofs.Binding
import Asm65.Proofs.Report

/-!
# One line, part by part

Assembling a line is one step. Each part of the state after it is given by an equation of
its own. Above all, the table after a line depends on the table before it and on the
address only, in the same way in both passes.
-/
namespace Asm65

/-- The reading holds its line wide: it is an instruction whose size hangs on a value that
the first pass lacks. -/
def Reading.staysWide (r : Reading) (symbols : SymbolTable) (pass : Pass) : Bool :=
  match r with
  | .instruction m wide argument =>
    m.staysWide wide (argument.bind (Argument.value? · symbols)) pass
  | _ => false

namespace Effect

/-- The effect keeps a line wide. -/
def holds : Effect → Bool
  | emit _ wide => wide
  | _ => false

/-- The program counter after the effect. -/
def move (pc : Address) : Effect → Address
  | emit bytes _ => pc.advance bytes.length
  | relocate origin => origin
  | _ => pc

theorem pc_apply (effect : Effect) (line : Nat) (s : State) :
    (effect.apply line s).pc = effect.move s.pc := by
  cases effect <;> rfl

/-- The load address after the effect. -/
def rebase (origin : Address) : Effect → Address
  | relocate origin => origin
  | _ => origin

theorem origin_apply (effect : Effect) (line : Nat) (s : State) :
    (effect.apply line s).origin = effect.rebase s.origin := by
  cases effect <;> rfl

theorem labelAddresses_apply (effect : Effect) (line : Nat) (s : State) :
    (effect.apply line s).labelAddresses = s.labelAddresses := by
  cases effect <;> rfl

theorem wideLines_apply (effect : Effect) (line : Nat) (s : State) :
    (effect.apply line s).wideLines =
      if effect.holds then s.wideLines.insert line else s.wideLines := by
  cases effect <;> rfl

end Effect

namespace State

variable (s : State) (site : Site) (line : Line)

/-! ## The label -/

theorem labelled_eq :
    s.labelled site line =
      { s with
        symbols := line.mark s.pc s.symbols
        labelAddresses :=
          match site.pass, line.addressLabel? with
          | .first, some _ => (site.line, s.pc) :: s.labelAddresses
          | _, _ => s.labelAddresses } := by
  obtain ⟨pass, n⟩ := site
  unfold labelled defineLabel recordAddress Line.mark
  cases pass <;> cases line.addressLabel? <;> rfl

@[simp] theorem pc_labelled : (s.labelled site line).pc = s.pc := by
  rw [labelled_eq]

@[simp] theorem origin_labelled : (s.labelled site line).origin = s.origin := by
  rw [labelled_eq]

@[simp] theorem wideLines_labelled : (s.labelled site line).wideLines = s.wideLines := by
  rw [labelled_eq]

@[simp] theorem isWide_labelled (n : Nat) : (s.labelled site line).isWide n = s.isWide n := by
  rw [labelled_eq]
  rfl

@[simp] theorem symbols_labelled :
    (s.labelled site line).symbols = line.mark s.pc s.symbols := by
  rw [labelled_eq]

/-! ## The step -/

/-- What the line tries to do once its label is bound. -/
def attempt : Except Fault Effect :=
  line.reading >>= Reading.effect (s.labelled site line) site

/-- The effect that the line has. A line that fails has none. -/
def action : Effect := (s.attempt site line).toOption.getD .nothing

theorem attempt_ok {effect : Effect} (h : s.attempt site line = .ok effect) :
    ∃ r, line.reading = .ok r ∧ r.effect (s.labelled site line) site = .ok effect := by
  unfold attempt at h
  cases hread : line.reading with
  | error e =>
    rw [hread] at h
    cases h
  | ok r =>
    rw [hread] at h
    exact ⟨r, rfl, h⟩

variable {s site line} in
theorem attempt_of_reading {r : Reading} (h : line.reading = .ok r) :
    s.attempt site line = r.effect (s.labelled site line) site := by
  unfold attempt
  rw [h]
  rfl

variable {s site line} in
theorem attempt_of_error {e : Fault} (h : line.reading = .error e) :
    s.attempt site line = .error e := by
  unfold attempt
  rw [h]
  rfl

variable {s site line} in
theorem action_of_attempt_ok {effect : Effect} (h : s.attempt site line = .ok effect) :
    s.action site line = effect := by
  rw [action, h]
  rfl

variable {s site line} in
theorem action_of_attempt_error {e : Fault} (h : s.attempt site line = .error e) :
    s.action site line = .nothing := by
  rw [action, h]
  rfl

variable {s site line} in
theorem action_of_error {e : Fault} (h : line.reading = .error e) :
    s.action site line = .nothing :=
  action_of_attempt_error (attempt_of_error h)

theorem assemble_eq :
    s.assemble site line =
      let labelled := s.labelled site line
      let events := s.lineLabelEvents site line ++ (labelled.effect site line).events
      match s.attempt site line with
      | .ok effect => ⟨effect.apply site.line labelled, effect.bytes, events⟩
      | .error e => ⟨labelled, [], events ++ site.report e⟩ := by
  unfold attempt
  rw [← result_effect]
  rfl

theorem state_assemble :
    (s.assemble site line).state = (s.action site line).apply site.line (s.labelled site line) := by
  rw [assemble_eq, action]
  cases s.attempt site line <;> rfl

theorem bytes_assemble : (s.assemble site line).bytes = (s.action site line).bytes := by
  rw [assemble_eq, action]
  cases s.attempt site line <;> rfl

/-- The diagnostics of a line: its label, its arguments, and what makes it fail. -/
theorem diagnostics_assemble :
    Event.diagnostics (s.assemble site line).events =
      Event.diagnostics (s.lineLabelEvents site line) ++
        (s.labelled site line).argumentDiagnostics site line.arguments ++
        match s.attempt site line with
        | .ok _ => []
        | .error e => Event.diagnostics (site.report e) := by
  rw [assemble_eq, ← diagnostics_effect]
  cases s.attempt site line <;> simp

/-- Of its label a line reports that it moved, or nothing. -/
theorem lineLabelEvents_cases (s : State) (site : Site) (line : Line) :
    s.lineLabelEvents site line = [] ∨ ∃ name first second,
      s.lineLabelEvents site line = site.report (.labelMoved name first second) := by
  unfold lineLabelEvents
  split
  · unfold labelEvents
    split
    · split
      · exact .inl rfl
      · exact .inr ⟨_, _, _, rfl⟩
    · exact .inl rfl
  · exact .inl rfl

theorem selections_lineLabelEvents : Event.selections (s.lineLabelEvents site line) = [] := by
  rcases s.lineLabelEvents_cases site line with h | ⟨name, first, second, h⟩
  · rw [h]
    rfl
  · rw [h]
    exact Site.selections_report site _

theorem selections_assemble :
    Event.selections (s.assemble site line).events =
      Event.selections ((s.labelled site line).effect site line).events := by
  rw [assemble_eq]
  cases s.attempt site line <;> simp [selections_lineLabelEvents, Site.selections_report]

/-! ## The parts of the state -/

/-- What a reading can come to. -/
theorem effect_cases {r : Reading} {effect : Effect} (h : r.effect s site = .ok effect) :
    (∃ name a, r = .equate name a) ∨
      (effect = .nothing ∨ ∃ origin, effect = .relocate origin) ∧
        r.staysWide s.symbols site.pass = false ∨
      ∃ bytes, effect = .emit bytes (r.staysWide s.symbols site.pass) := by
  cases r with
  | nothing =>
    cases h
    exact .inr (.inl ⟨.inl rfl, rfl⟩)
  | data bytes =>
    cases h
    exact .inr (.inr ⟨bytes, rfl⟩)
  | instruction m wide argument =>
    obtain ⟨bytes, -, rfl⟩ := exists_of_map_ok h
    exact .inr (.inr ⟨_, rfl⟩)
  | equate name a => exact .inl ⟨name, a, rfl⟩
  | origin a =>
    simp only [Reading.effect] at h
    split at h
    · cases h
      exact .inr (.inl ⟨.inr ⟨_, rfl⟩, rfl⟩)
    · cases h
      exact .inr (.inl ⟨.inl rfl, rfl⟩)
  | words arguments =>
    cases h
    exact .inr (.inr ⟨_, rfl⟩)
  | storage a =>
    simp only [Reading.effect] at h
    split at h
    · split at h
      · cases h
        exact .inr (.inr ⟨_, rfl⟩)
      · cases h
    · cases h
      exact .inr (.inl ⟨.inl rfl, rfl⟩)

/-- Constants alone change the table. -/
theorem symbols_apply_of_effect {r : Reading} {effect : Effect} {t : State} {n : Nat}
    (h : r.effect s site = .ok effect) (constant : ∀ name a, r ≠ .equate name a) :
    (effect.apply n t).symbols = t.symbols := by
  rcases s.effect_cases site h with ⟨name, a, rfl⟩ | ⟨rfl | ⟨origin, rfl⟩, -⟩ | ⟨bytes, rfl⟩
  · exact absurd rfl (constant name a)
  · rfl
  · rfl
  · rfl

theorem symbols_assemble :
    (s.assemble site line).state.symbols = line.define s.pc s.symbols := by
  rw [state_assemble, action, attempt]
  by_cases hequate : ∃ name a, line.reading = .ok (.equate name a)
  · obtain ⟨name, a, hread⟩ := hequate
    rw [hread, Line.define_of_equate hread]
    change (((Reading.effect (s.labelled site line) site (.equate name a)).toOption.getD
      .nothing).apply _ _).symbols = _
    simp only [Reading.effect, symbols_labelled, Line.mark_of_equate hread]
    cases a.value? s.symbols <;> simp [Effect.apply, Line.mark_of_equate hread, Except.toOption]
  · have hconstant : ∀ name a, line.reading ≠ .ok (.equate name a) :=
      fun name a h => hequate ⟨name, a, h⟩
    rw [Line.define_eq_mark hconstant]
    cases hattempt : line.reading >>= Reading.effect (s.labelled site line) site with
    | error e => exact s.symbols_labelled site line
    | ok effect =>
      obtain ⟨r, hread, heffect⟩ := s.attempt_ok site line hattempt
      have hr : ∀ name a, r ≠ .equate name a := by
        rintro name a rfl
        exact hconstant name a hread
      exact (symbols_apply_of_effect _ site heffect hr).trans (s.symbols_labelled site line)

theorem holds_of_effect {r : Reading} {effect : Effect} (h : r.effect s site = .ok effect) :
    effect.holds = r.staysWide s.symbols site.pass := by
  rcases s.effect_cases site h with
    ⟨name, a, rfl⟩ | ⟨rfl | ⟨origin, rfl⟩, hwide⟩ | ⟨bytes, rfl⟩
  · simp only [Reading.effect] at h
    split at h <;> cases h <;> rfl
  · exact hwide.symm
  · exact hwide.symm
  · rfl

/-- A line that fails is not held: a branch out of range has a value. -/
theorem staysWide_of_error {r : Reading} {e : Fault} (h : r.effect s site = .error e) :
    r.staysWide s.symbols site.pass = false := by
  cases r with
  | instruction m wide argument =>
    simp only [Reading.staysWide, Mnemonic.staysWide]
    cases hvalue : argument.bind (Argument.value? · s.symbols) with
    | some value => simp
    | none =>
      obtain ⟨bytes, hbytes⟩ := exists_operandBytes_none
        (m.narrow wide none (s.isWide site.line)).mode s.pc
      simp only [Reading.effect, hvalue, hbytes] at h
      cases h
  | _ => rfl

theorem holds_action :
    (s.action site line).holds =
      match line.reading with
      | .ok r => r.staysWide (line.mark s.pc s.symbols) site.pass
      | .error _ => false := by
  unfold action
  cases hread : line.reading with
  | error e => simp [attempt, hread, Effect.holds, Except.toOption, bind, Except.bind]
  | ok r =>
    rw [← s.symbols_labelled site line]
    cases hattempt : s.attempt site line with
    | error e =>
      simp only [attempt, hread] at hattempt
      exact (staysWide_of_error _ site hattempt).symm
    | ok effect =>
      simp only [attempt, hread] at hattempt
      exact holds_of_effect _ site hattempt

theorem pc_assemble :
    (s.assemble site line).state.pc = (s.action site line).move s.pc := by
  rw [state_assemble, Effect.pc_apply, pc_labelled]

theorem origin_assemble :
    (s.assemble site line).state.origin = (s.action site line).rebase s.origin := by
  rw [state_assemble, Effect.origin_apply, origin_labelled]

theorem wideLines_assemble :
    (s.assemble site line).state.wideLines =
      if (s.action site line).holds then s.wideLines.insert site.line else s.wideLines := by
  rw [state_assemble, Effect.wideLines_apply, wideLines_labelled]

theorem labelAddresses_assemble :
    (s.assemble site line).state.labelAddresses =
      match site.pass, line.addressLabel? with
      | .first, some _ => (site.line, s.pc) :: s.labelAddresses
      | _, _ => s.labelAddresses := by
  rw [state_assemble, Effect.labelAddresses_apply, labelled_eq]

/-! ## Source lines -/

variable (source : Text)

theorem symbols_step :
    (s.step site source).state.symbols = (Line.parse source).define s.pc s.symbols :=
  s.symbols_assemble site (Line.parse source)

theorem pc_step :
    (s.step site source).state.pc = (s.action site (Line.parse source)).move s.pc :=
  s.pc_assemble site (Line.parse source)

theorem origin_step :
    (s.step site source).state.origin = (s.action site (Line.parse source)).rebase s.origin :=
  s.origin_assemble site (Line.parse source)

theorem bytes_step : (s.step site source).bytes = (s.action site (Line.parse source)).bytes :=
  s.bytes_assemble site (Line.parse source)

end State

end Asm65
