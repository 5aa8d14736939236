-- SUMMARY: Symbol names carry no meaning: a renamed source is assembled to the same image.
import Asm65.Proofs.Fault
import Asm65.Proofs.RenamedLine

/-!
# Independence of names

A line and its renaming do the same in corresponding states, so both passes over a renamed
source go step by step like the passes over the source. The image, the origin and the
places and kinds of all faults are the same, and the table is the renamed one, in its order.
-/
namespace Asm65

theorem Alike.of_map {α : Type} (f : α → α) (x : Except Fault α) : Alike f x (f <$> x) := by
  cases x with
  | ok a => exact .ok a
  | error e => exact .error rfl

/-- The lines and the kinds of the faults that are reported, in order. -/
def Event.faultKinds (events : List Event) : List (Nat × FaultKind) :=
  (diagnostics events).map fun d => (d.line, d.fault.kind)

namespace Event

@[simp] theorem faultKinds_append (before after : List Event) :
    faultKinds (before ++ after) = faultKinds before ++ faultKinds after := by
  unfold faultKinds
  rw [diagnostics_append, List.map_append]

theorem faultKinds_report (site : Site) {e e' : Fault} (h : e'.kind = e.kind) :
    faultKinds (site.report e') = faultKinds (site.report e) := by
  unfold Site.report
  split
  · exact congrArg (fun kind => [(site.line, kind)]) h
  · rfl

end Event

namespace Renaming

variable (r : Renaming) (s : State) (site : Site)

theorem pc_state : (r.state s).pc = s.pc := rfl

theorem labelAddresses_state : (r.state s).labelAddresses = s.labelAddresses := rfl

/-! ## One line -/

section Line

variable {line line' : Line} (h : r.Lines line line')
include h

theorem labelled_state :
    (r.state s).labelled site line' = r.state (s.labelled site line) := by
  rw [State.labelled_eq, State.labelled_eq]
  unfold Line.mark
  rw [h.addressLabel?]
  cases line.addressLabel? with
  | none => cases site.pass <;> rfl
  | some name =>
    simp only [Option.map_some, state, symbols_insert]
    cases site.pass <;> rfl

theorem attempt_state :
    Alike r.effect (s.attempt site line) ((r.state s).attempt site line') := by
  unfold State.attempt
  rw [r.labelled_state s site h]
  refine h.reading.bind fun rd _ => ?_
  rw [effect_reading]
  exact .of_map r.effect _

theorem action_state : (r.state s).action site line' = r.effect (s.action site line) := by
  unfold State.action
  rcases (r.attempt_state s site h).cases with ⟨e, he, he'⟩ | ⟨e, e', he, he', -⟩
  · rw [he, he']
    rfl
  · rw [he, he']
    rfl

theorem faultKinds_label :
    Event.faultKinds ((r.state s).lineLabelEvents site line') =
      Event.faultKinds (s.lineLabelEvents site line) := by
  unfold State.lineLabelEvents
  rw [h.addressLabel?]
  cases line.addressLabel? with
  | none => rfl
  | some name =>
    dsimp only [Option.map_some]
    unfold State.labelEvents
    rw [labelAddresses_state]
    cases s.labelAddresses.lookup site.line with
    | none => rfl
    | some address =>
      dsimp only
      by_cases hsame : address = s.pc
      · rw [if_pos hsame, if_pos (hsame.trans (r.pc_state s).symm)]
      · rw [if_neg hsame, if_neg fun heq => hsame (heq.trans (r.pc_state s))]
        exact Event.faultKinds_report site rfl

end Line

theorem faultKinds_argument (a : Argument) :
    Event.faultKinds ((r.state s).reportArgument site (r.argument a)) =
      Event.faultKinds (s.reportArgument site a) := by
  unfold State.reportArgument State.reportUnresolved
  dsimp only [state]
  rw [r.value?_argument]
  split
  · rfl
  · refine Event.faultKinds_report site ?_
    rw [State.kind_unresolved, State.kind_unresolved]

theorem faultKinds_arguments (arguments : List Argument) :
    ((r.state s).argumentDiagnostics site (arguments.map r.argument)).map
        (fun d => (d.line, d.fault.kind)) =
      (s.argumentDiagnostics site arguments).map fun d => (d.line, d.fault.kind) := by
  unfold State.argumentDiagnostics
  induction arguments with
  | nil => rfl
  | cons a rest ih =>
    rw [List.map_cons, List.flatMap_cons, List.flatMap_cons, List.map_append, List.map_append, ih]
    exact congrArg (· ++ _) (r.faultKinds_argument s site a)

/-- A renamed line leaves a renamed state and the same bytes, and reports at the same
places. -/
structure Outcomes (o o' : Outcome) : Prop where
  state : o'.state = r.state o.state
  bytes : o'.bytes = o.bytes
  faults : Event.faultKinds o'.events = Event.faultKinds o.events

theorem outcomes_assemble {line line' : Line} (h : r.Lines line line') :
    r.Outcomes (s.assemble site line) ((r.state s).assemble site line') := by
  refine ⟨?_, ?_, ?_⟩
  · rw [State.state_assemble, State.state_assemble, r.action_state s site h,
      r.labelled_state s site h, apply_effect]
  · rw [State.bytes_assemble, State.bytes_assemble, r.action_state s site h, bytes_effect]
  · have hlabel := r.faultKinds_label s site h
    have harguments := r.faultKinds_arguments (s.labelled site line) site line.arguments
    unfold Event.faultKinds at hlabel ⊢
    rw [State.diagnostics_assemble, State.diagnostics_assemble, h.arguments,
      r.labelled_state s site h]
    rw [List.map_append, List.map_append, List.map_append, List.map_append, hlabel, harguments]
    rcases (r.attempt_state s site h).cases with ⟨e, he, he'⟩ | ⟨e, e', he, he', hkind⟩
    · rw [he, he']
    · rw [he, he']
      exact congrArg (_ ++ _ ++ ·) (Event.faultKinds_report site hkind)

theorem outcomes_step (text : Text) :
    r.Outcomes (s.step site text) ((r.state s).step site (r.line text)) :=
  r.outcomes_assemble s site (r.lines_line text)

/-! ## Runs -/

/-- A line of a listing with its source renamed. -/
def listed (line : ListingEntry) : ListingEntry := { line with source := r.line line.source }

structure Runs (a b : Run) : Prop where
  final : b.final = r.state a.final
  listing : b.entries.map Entry.toListing = (a.entries.map Entry.toListing).map r.listed
  faults : Event.faultKinds b.events = Event.faultKinds a.events

theorem runs_run (pass : Pass) (n : Nat) (lines : List Text) :
    r.Runs (s.run pass n lines) ((r.state s).run pass n (lines.map r.line)) := by
  induction lines generalizing s n with
  | nil => exact ⟨rfl, rfl, rfl⟩
  | cons text rest ih =>
    obtain ⟨hstate, hbytes, hfaults⟩ := r.outcomes_step s ⟨pass, n⟩ text
    obtain ⟨hfinal, hlisting, hrest⟩ := ih (s.step ⟨pass, n⟩ text).state (n + 1)
    rw [← hstate] at hfinal hlisting hrest
    rw [List.map_cons]
    refine ⟨hfinal, ?_, ?_⟩
    · rw [State.run_cons, State.run_cons, List.map_cons, List.map_cons, List.map_cons, hlisting]
      refine congrArg (· :: _) ?_
      simp only [Entry.toListing, State.entry, listed, hbytes]
    · rw [State.events_cons, State.events_cons, Event.faultKinds_append,
        Event.faultKinds_append, hfaults, hrest]

theorem Runs.bytes {r : Renaming} {a b : Run} (h : r.Runs a b) : b.bytes = a.bytes := by
  have hbytes (entries : List Entry) :
      entries.flatMap Entry.bytes = (entries.map Entry.toListing).flatMap ListingEntry.bytes := by
    rw [List.flatMap_map]
    rfl
  rw [Run.bytes, Run.bytes, hbytes, h.listing, List.flatMap_map, hbytes]
  rfl

/-- The passes correspond, and so do their beginnings: no name is bound at first. -/
theorem runs_ofLines (start : Address) (lines : List Text) :
    r.Runs (Assembly.ofLines start lines).second
      (Assembly.ofLines start (lines.map r.line)).second := by
  have hfirst := r.runs_run ((State.initial start).beginPass start) .first 1 lines
  have hsecond := r.runs_run ((Assembly.ofLines start lines).first.final.beginPass start)
    .second 1 lines
  have hfinal : (Assembly.ofLines start (lines.map r.line)).first.final =
      r.state (Assembly.ofLines start lines).first.final := hfirst.final
  have hbegin : (Assembly.ofLines start (lines.map r.line)).second =
      ((Assembly.ofLines start (lines.map r.line)).first.final.beginPass start).run .second 1
        (lines.map r.line) := rfl
  rw [hbegin, hfinal]
  exact hsecond

end Renaming

/-! ## Assemblies -/

/-- The second assembly is the first one with its symbols renamed. -/
structure Assembly.Renamed (r : Renaming) (a b : Assembly) : Prop where
  origin : b.origin = a.origin
  binary : b.binary = a.binary
  /-- The bytes of every line; its source is renamed. -/
  listing : b.listing = a.listing.map fun line => { line with source := r.line line.source }
  /-- The names, renamed, in the same order and with the same values. -/
  symbols : b.symbols.entries = a.symbols.entries.map fun entry => (r.name entry.1, entry.2)
  /-- The lines and the kinds of the faults. -/
  diagnostics : b.diagnostics.map (fun d => (d.line, d.fault.kind)) =
    a.diagnostics.map fun d => (d.line, d.fault.kind)

/-- Names carry no meaning: whatever the source, renaming its symbols changes their names in
the table and nothing else. -/
theorem Assembly.renamed (r : Renaming) (start : Address) (source : Text) :
    Renamed r (ofText start source) (ofText start (r.source source)) := by
  have hruns := r.runs_ofLines start source.lines
  rw [← r.lines_source] at hruns
  have horigin := congrArg State.origin hruns.final
  have hsymbols := congrArg (fun s => s.symbols.entries) hruns.final
  exact ⟨horigin, hruns.bytes, hruns.listing, hsymbols, hruns.faults⟩

/-- Names that are also index letters, and names in comments and literals. -/
theorem Assembly.swapped_renamed :
    let r := Renaming.swap "X".toList "LOOP".toList rfl rfl
    let source : Text :=
      "X EQU LOOP-1\nLOOP LDA (X),Y ; X\n DA X,LOOP+X\n ASC 'X;X' ; LOOP\n JMP LOOP,X".toList
    r.source source =
        "LOOP EQU X-1\nX LDA (LOOP),Y ; X\n DA LOOP,X+LOOP\n ASC 'X;X' ; LOOP\n JMP X,X".toList ∧
      Renamed r (ofText defaultOrigin source) (ofText defaultOrigin (r.source source)) :=
  ⟨by decide +kernel, renamed _ _ _⟩

end Asm65
