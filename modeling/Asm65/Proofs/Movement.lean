-- SUMMARY: Labels that moved between the passes are reported exactly, each first on its line and in line order.
import Asm65.Proofs.Fault

/-!
# Labels that moved

A line may bind its label in four ways: alone, before an instruction, before a directive, or
although the rest of it fails. Each pass gives it the address at which it stands then. If the
two addresses differ, the second pass says so before anything else about the line, and it
says nothing about labels otherwise. The diagnostics of a pass are in the order of its lines.
-/
namespace Asm65

/-! ## Addresses of labels -/

theorem Address.toValue_inj {a b : Address} : a.toValue = b.toValue ↔ a = b := by
  refine ⟨fun h => ?_, congrArg toValue⟩
  have hnat : a.toNat = b.toNat := by
    have hint := congrArg Int32.toInt h
    simp only [toValue] at hint
    rw [Int32.toInt_ofNat_of_lt (by have := a.toNat_lt; omega),
      Int32.toInt_ofNat_of_lt (by have := b.toNat_lt; omega)] at hint
    exact Int.ofNat.inj hint
  exact UInt16.toNat.inj hnat

namespace Entry

/-- The value that a pass bound the label of a line to; none where the line binds no label to
its address. -/
def labelValue? (pass : Pass) (e : Entry) : Option Value := do
  let name ← (Line.parse e.source).addressLabel?
  (e.before.step ⟨pass, e.number⟩ e.source).state.symbols.get? name

/-- What there is to report about the label of a line: that the passes bound it to two
addresses, if they did. -/
def move? (first second : Entry) : Option Diagnostic := do
  let name ← (Line.parse second.source).addressLabel?
  let address ← first.labelValue? .first
  let address' ← second.labelValue? .second
  if address = address' then none
  else some ⟨second.number, .labelMoved name address address'⟩

end Entry

namespace State

variable {s t : State} {n : Nat} {source : Text} {rest lines : List Text}

/-- A pass binds the label of a line to the address of the line. -/
theorem labelValue?_entry (s : State) (site : Site) (source : Text) :
    (s.entry site source).labelValue? site.pass =
      (Line.parse source).addressLabel?.map fun _ => s.pc.toValue := by
  cases hlabel : (Line.parse source).addressLabel? with
  | none => simp only [Entry.labelValue?, entry, hlabel, Option.bind_eq_bind, Option.bind_none,
      Option.map_none]
  | some name =>
    have hvalue := Line.get?_define_label hlabel s.pc s.symbols
    simp only [Entry.labelValue?, entry, hlabel, Option.bind_eq_bind, Option.bind_some,
      Option.map_some, symbols_step, hvalue]

theorem move?_entry (s t : State) (n : Nat) (source : Text) :
    (s.entry ⟨.first, n⟩ source).move? (t.entry ⟨.second, n⟩ source) =
      match (Line.parse source).addressLabel? with
      | some name =>
        if s.pc = t.pc then none else some ⟨n, .labelMoved name s.pc.toValue t.pc.toValue⟩
      | none => none := by
  have hfirst := labelValue?_entry s ⟨.first, n⟩ source
  have hsecond := labelValue?_entry t ⟨.second, n⟩ source
  simp only [Entry.move?, hfirst, hsecond]
  simp only [entry]
  cases (Line.parse source).addressLabel? with
  | none => rfl
  | some name => simp [Address.toValue_inj]

/-! ## Reports on labels -/

/-- The second pass reports the labels that moved, line by line, and no other. -/
theorem Recalls.moves (h : Recalls s t n lines) :
    (Event.diagnostics (t.run .second n lines).events).filter
        (fun d => d.fault.kind = .labelMoved) =
      ((s.run .first n lines).entries.zip (t.run .second n lines).entries).filterMap
        fun pair => pair.1.move? pair.2 := by
  induction lines generalizing s t n with
  | nil => rfl
  | cons source rest ih =>
    have hline : Event.diagnostics (t.lineLabelEvents ⟨.second, n⟩ (Line.parse source)) =
        ((s.entry ⟨.first, n⟩ source).move? (t.entry ⟨.second, n⟩ source)).toList := by
      rw [h.labelDiagnostics, move?_entry]
      cases (Line.parse source).addressLabel? with
      | none => rfl
      | some name =>
        dsimp only
        split <;> rfl
    rw [events_cons, Event.diagnostics_append, List.filter_append, filter_labelMoved_step, hline,
      ih h.step, run_cons, run_cons, List.zip_cons_cons]
    cases hmove : (s.entry ⟨.first, n⟩ source).move? (t.entry ⟨.second, n⟩ source) <;>
      simp only [List.filterMap_cons, hmove, Option.toList_none, Option.toList_some,
        List.nil_append, List.singleton_append]

/-- A label has one report, and nothing is reported about its line before. -/
theorem head?_diagnostics_step {d : Diagnostic}
    (h : d ∈ Event.diagnostics (t.step ⟨.second, n⟩ source).events)
    (moved : d.fault.kind = .labelMoved) :
    (Event.diagnostics (t.step ⟨.second, n⟩ source).events).head? = some d := by
  have hmem : d ∈ Event.diagnostics (t.lineLabelEvents ⟨.second, n⟩ (Line.parse source)) := by
    rw [← filter_labelMoved_step]
    exact List.mem_filter.mpr ⟨h, decide_eq_true moved⟩
  have honly : Event.diagnostics (t.lineLabelEvents ⟨.second, n⟩ (Line.parse source)) = [d] := by
    obtain ⟨name, hname⟩ : ∃ name, (Line.parse source).addressLabel? = some name := by
      cases hname : (Line.parse source).addressLabel? with
      | none =>
        simp only [lineLabelEvents, hname] at hmem
        cases hmem
      | some name => exact ⟨name, rfl⟩
    simp only [lineLabelEvents, hname, labelEvents] at hmem ⊢
    split at hmem
    · split at hmem
      · cases hmem
      · rw [if_neg ‹_›, diagnostics_report, List.mem_singleton.mp hmem]
    · cases hmem
  rw [step, diagnostics_assemble, honly]
  rfl

theorem head?_diagnostics_run {d : Diagnostic}
    (h : d ∈ Event.diagnostics (t.run .second n lines).events)
    (moved : d.fault.kind = .labelMoved) :
    ((Event.diagnostics (t.run .second n lines).events).filter
      fun other => other.line = d.line).head? = some d := by
  induction lines generalizing t n with
  | nil => cases h
  | cons source rest ih =>
    rw [events_cons, Event.diagnostics_append] at h ⊢
    rw [List.filter_append]
    rcases List.mem_append.mp h with hline | hrest
    · have hnumber : d.line = n := line_of_mem_diagnostics hline
      have hall : ∀ other ∈ Event.diagnostics (t.step ⟨.second, n⟩ source).events,
          decide (other.line = d.line) = true := by
        intro other hother
        rw [hnumber, line_of_mem_diagnostics hother]
        exact decide_eq_true rfl
      rw [List.filter_eq_self.mpr hall, List.head?_append, head?_diagnostics_step hline moved]
      rfl
    · have hnumber := line_of_mem_run hrest
      have hnone : ∀ other ∈ Event.diagnostics (t.step ⟨.second, n⟩ source).events,
          ¬ decide (other.line = d.line) = true := by
        intro other hother
        have hother := line_of_mem_diagnostics hother
        rw [decide_eq_true_eq]
        omega
      rw [List.filter_eq_nil_iff.mpr hnone, List.nil_append]
      exact ih hrest

/-- The diagnostics of a run are in the order of its lines. -/
theorem pairwise_line_run (t : State) (n : Nat) (lines : List Text) :
    ((Event.diagnostics (t.run .second n lines).events).map Diagnostic.line).Pairwise
      (· ≤ ·) := by
  induction lines generalizing t n with
  | nil => exact .nil
  | cons source rest ih =>
    rw [events_cons, Event.diagnostics_append, List.map_append, List.pairwise_append]
    refine ⟨?_, ih _ _, ?_⟩
    · rw [List.pairwise_map]
      refine List.pairwise_of_forall_mem_list fun d hd other hother => ?_
      have hline := line_of_mem_diagnostics hd
      have hsame := line_of_mem_diagnostics hother
      omega
    · intro k hk m hm
      obtain ⟨d, hd, rfl⟩ := List.mem_map.mp hk
      obtain ⟨other, hother, rfl⟩ := List.mem_map.mp hm
      have hline := line_of_mem_diagnostics hd
      have hrest := line_of_mem_run hother
      omega

end State

namespace Assembly

/-- Labels that moved are reported exactly. -/
structure ReportsMoves (a : Assembly) (lines : List Text) : Prop where
  /-- Both passes went over every line, with its number and text. -/
  first : a.first.entries.map (fun e => (e.number, e.source)) =
    lines.mapIdx fun i text => (i + 1, text)
  second : a.second.entries.map (fun e => (e.number, e.source)) =
    lines.mapIdx fun i text => (i + 1, text)
  /-- There is one report for each line whose label the passes bound to two addresses, with the
  label and both addresses, in line order. -/
  moves : a.diagnostics.filter (fun d => d.fault.kind = .labelMoved) =
    (a.first.entries.zip a.second.entries).filterMap fun pair => pair.1.move? pair.2
  /-- Such a report comes before all others about its line. -/
  leads : ∀ d ∈ a.diagnostics, d.fault.kind = .labelMoved →
    (a.diagnostics.filter fun other => other.line = d.line).head? = some d
  ordered : (a.diagnostics.map Diagnostic.line).Pairwise (· ≤ ·)
  bounds : ∀ d ∈ a.diagnostics, 1 ≤ d.line ∧ d.line ≤ lines.length

/-- Whatever the source and wherever it starts, the labels that moved are reported exactly. -/
theorem reportsMoves (start : Address) (source : Text) :
    (ofText start source).ReportsMoves source.lines := by
  have hentries (s : State) (pass : Pass) :
      (s.run pass 1 source.lines).entries.map (fun e => (e.number, e.source)) =
        source.lines.mapIdx fun i text => (i + 1, text) := by
    simpa only [Nat.add_comm 1] using s.entries_run pass 1 source.lines
  refine ⟨hentries _ _, hentries _ _, ?_, ?_, ?_, ?_⟩
  · exact (State.Recalls.start start source.lines).moves
  · intro d hd moved
    exact State.head?_diagnostics_run hd moved
  · exact State.pairwise_line_run _ 1 source.lines
  · intro d hd
    have hline := State.line_of_mem_run hd
    omega

/-- A name that is bound twice moves twice: at a line that fails, and at a label alone. -/
example :
    let source : Text := " BNE L\n DS 300\nL FOO\nL\n NOP".toList
    (ofText defaultOrigin source).diagnostics.map (fun d => (d.line, d.fault.kind)) =
      [(1, .branchRange), (3, .labelMoved), (3, .unknownOpcode), (4, .labelMoved)] := by
  decide +kernel

end Assembly

end Asm65
