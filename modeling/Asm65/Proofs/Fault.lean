-- SUMMARY: Where each kind of fault comes from, and when a line is free of it.
import Asm65.Proofs.Run

/-!
# Where faults come from

Three kinds of faults depend on the state: a label that moved, an argument without a value,
and a branch out of range. Each has one source, so that a pass free of it says something
about every line: its labels stayed, its arguments have values, its branches reach.
-/
namespace Asm65

/-- The text of a line settles whether it has a fault of this kind, apart from the size of
storage. -/
def FaultKind.isTextual : FaultKind → Bool
  | branchRange | unresolved | labelMoved => false
  | _ => true

/-! ## Text -/

theorem OperandParts.isTextual_of_error {t : Text} {e : Fault} (h : ofText t = .error e) :
    e.kind.isTextual := by
  unfold ofText at h
  dsimp only at h
  split at h
  · cases h
  · cases h
    rfl

theorem Operand.isTextual_of_error {t : Text} {e : Fault} (h : parse t = .error e) :
    e.kind.isTextual := by
  unfold parse at h
  cases hparts : OperandParts.ofText t with
  | error f =>
    rw [hparts] at h
    cases h
    exact OperandParts.isTextual_of_error hparts
  | ok parts =>
    cases hshape : parts.shape? with
    | some shape =>
      simp only [hparts, hshape, bind, Except.bind] at h
      cases h
    | none =>
      simp only [hparts, hshape, bind, Except.bind] at h
      cases h
      rfl

theorem Argument.isTextual_of_ofCore_error {core : Text} {e : Fault}
    (h : ofCore core = .error e) : e.kind.isTextual := by
  unfold ofCore at h
  split at h
  · cases h
  · cases h
    rfl

theorem Argument.isTextual_of_error {text : Text} {e : Fault} (h : ofText text = .error e) :
    e.kind.isTextual := by
  unfold ofText at h
  cases hparts : OperandParts.ofText text with
  | error f =>
    rw [hparts] at h
    cases h
    exact OperandParts.isTextual_of_error hparts
  | ok parts =>
    rw [hparts] at h
    exact isTextual_of_ofCore_error h

theorem Argument.isTextual_of_required_error {operand : Option Text} {e : Fault}
    (h : ofRequired operand = .error e) : e.kind.isTextual := by
  cases operand with
  | none =>
    cases h
    rfl
  | some text => exact isTextual_of_error h

theorem Argument.isTextual_of_mapM_error {texts : List Text} {e : Fault}
    (h : texts.mapM ofText = .error e) : e.kind.isTextual := by
  induction texts with
  | nil => cases h
  | cons text rest ih =>
    rw [List.mapM_cons] at h
    cases htext : ofText text with
    | error f =>
      rw [htext] at h
      cases h
      exact isTextual_of_error htext
    | ok a =>
      cases hrest : rest.mapM ofText with
      | error f =>
        rw [htext, hrest] at h
        cases h
        exact ih hrest
      | ok others =>
        rw [htext, hrest] at h
        cases h

theorem eq_error_of_map_error {ε α β : Type} {f : α → β} {x : Except ε α} {e : ε}
    (h : f <$> x = .error e) : x = .error e := by
  cases x with
  | error f =>
    cases h
    rfl
  | ok a => cases h

/-! ## Readings -/

namespace Reading

theorem isTextual_of_ofInstruction_error {mnemonic : Text} {operand : Option Operand} {e : Fault}
    (h : ofInstruction mnemonic operand = .error e) : e.kind.isTextual := by
  unfold ofInstruction at h
  split at h
  · cases h
    rfl
  · split at h
    · cases h
      rfl
    · split at h
      · split at h
        · exact Argument.isTextual_of_ofCore_error (eq_error_of_map_error h)
        · cases h
      · cases h

theorem isTextual_of_ofDirective_error {label : Option Text} {d : Directive}
    {operand : Option Text} {e : Fault} (h : ofDirective label d operand = .error e) :
    e.kind.isTextual := by
  unfold ofDirective at h
  cases d with
  | data kind =>
    dsimp only at h
    split at h
    · cases h
    · cases h
      rfl
  | equ =>
    cases label with
    | none =>
      cases h
      rfl
    | some name => exact Argument.isTextual_of_required_error (eq_error_of_map_error h)
  | org => exact Argument.isTextual_of_required_error (eq_error_of_map_error h)
  | da =>
    cases operand with
    | none =>
      cases h
      rfl
    | some text => exact Argument.isTextual_of_mapM_error (eq_error_of_map_error h)
  | ds => exact Argument.isTextual_of_required_error (eq_error_of_map_error h)
  | chk => cases h
  | skipped kind => cases h

end Reading

namespace Line

theorem isTextual_of_parseBody_error {t : Text} {e : Fault} (h : parseBody t = .error e) :
    e.kind.isTextual := by
  unfold parseBody at h
  split at h
  · cases h
  · unfold parseStatement at h
    split at h
    · cases h
    · exact Operand.isTextual_of_error (eq_error_of_map_error h)
    · cases h

theorem isTextual_of_body_error {source : Text} {e : Fault}
    (h : (parse source).body = .error e) : e.kind.isTextual := by
  unfold parse at h
  split at h
  · cases h
  · unfold parseFields at h
    split at h
    · exact isTextual_of_parseBody_error h
    · exact isTextual_of_parseBody_error h

theorem isTextual_of_reading_error {source : Text} {e : Fault}
    (h : (parse source).reading = .error e) : e.kind.isTextual := by
  unfold reading at h
  split at h
  · next hbody =>
    cases h
    exact isTextual_of_body_error hbody
  · cases h
  · exact Reading.isTextual_of_ofInstruction_error h
  · exact Reading.isTextual_of_ofDirective_error h

end Line

/-! ## Failures of effects -/

/-- Operand bytes are lacking where a branch does not reach. -/
theorem Mode.exists_of_operandBytes_error {m : Mode} {pc : Address} {value : Option Value}
    {e : Fault} (h : m.operandBytes pc value = .error e) :
    ∃ distance, e = .branchRange distance := by
  unfold operandBytes at h
  split at h
  · cases h
  · dsimp only at h
    split at h
    · cases h
    · cases h
      exact ⟨_, rfl⟩
  · split at h <;> cases h

/-- An effect fails in two ways: a branch does not reach, or storage has a bad size. -/
theorem Reading.error_cases {s : State} {site : Site} {r : Reading} {e : Fault}
    (h : r.effect s site = .error e) :
    (∃ m wide argument distance, r = .instruction m wide argument ∧ e = .branchRange distance) ∨
      ∃ a detail, r = .storage a ∧ e = .parse detail := by
  cases r with
  | instruction m wide argument =>
    obtain ⟨distance, rfl⟩ := Mode.exists_of_operandBytes_error (eq_error_of_map_error h)
    exact .inl ⟨m, wide, argument, distance, rfl, rfl⟩
  | storage a =>
    simp only [effect] at h
    split at h
    · split at h
      · cases h
      · cases h
        exact .inr ⟨a, _, rfl, rfl⟩
    · cases h
  | nothing => cases h
  | data bytes => cases h
  | equate name a =>
    simp only [effect] at h
    split at h <;> cases h
  | origin a =>
    simp only [effect] at h
    split at h <;> cases h
  | words arguments => cases h

namespace State

/-- What makes a line fail is neither its label nor an argument without a value. -/
theorem kind_of_attempt_error {s : State} {site : Site} {source : Text} {e : Fault}
    (h : s.attempt site (Line.parse source) = .error e) :
    e.kind.isTextual ∨ e.kind = .branchRange := by
  unfold attempt at h
  cases hread : (Line.parse source).reading with
  | error f =>
    rw [hread] at h
    cases h
    exact .inl (Line.isTextual_of_reading_error hread)
  | ok r =>
    rw [hread] at h
    rcases Reading.error_cases h with ⟨m, wide, argument, distance, -, rfl⟩ | ⟨a, detail, -, rfl⟩
    · exact .inr rfl
    · exact .inl rfl

theorem kind_ne_of_attempt_error {s : State} {site : Site} {source : Text} {e : Fault}
    {kind : FaultKind} (textual : kind.isTextual = false) (branch : kind ≠ .branchRange)
    (h : s.attempt site (Line.parse source) = .error e) : e.kind ≠ kind := by
  rintro rfl
  rcases kind_of_attempt_error h with htext | hbranch
  · rw [textual] at htext
    cases htext
  · exact branch hbranch

/-! ## Diagnostics of one line -/

theorem diagnostics_report (n : Nat) (e : Fault) :
    Event.diagnostics (Site.report ⟨.second, n⟩ e) = [⟨n, e⟩] := rfl

/-- A report has one diagnostic, or none in the first pass. -/
theorem diagnostics_report_eq (site : Site) (e : Fault) :
    Event.diagnostics (site.report e) = if site.pass.reports then [⟨site.line, e⟩] else [] := by
  unfold Site.report
  split <;> rfl

/-- A label has one thing to report: that it moved. -/
theorem of_mem_labelDiagnostics {s : State} {site : Site} {line : Line} {d : Diagnostic}
    (h : d ∈ Event.diagnostics (s.lineLabelEvents site line)) :
    ∃ name first second, d = ⟨site.line, .labelMoved name first second⟩ := by
  rcases s.lineLabelEvents_cases site line with hlabel | ⟨name, first, second, hlabel⟩
  · rw [hlabel] at h
    cases h
  · rw [hlabel, Site.report] at h
    split at h
    · exact ⟨name, first, second, List.mem_singleton.mp h⟩
    · cases h

theorem kind_of_labelDiagnostic {s : State} {site : Site} {line : Line} {d : Diagnostic}
    (h : d ∈ Event.diagnostics (s.lineLabelEvents site line)) : d.fault.kind = .labelMoved := by
  obtain ⟨name, first, second, rfl⟩ := of_mem_labelDiagnostics h
  rfl

theorem line_of_labelDiagnostic {s : State} {site : Site} {line : Line} {d : Diagnostic}
    (h : d ∈ Event.diagnostics (s.lineLabelEvents site line)) : d.line = site.line := by
  obtain ⟨name, first, second, rfl⟩ := of_mem_labelDiagnostics h
  rfl

theorem kind_unresolved (s : State) (e : Expr) (core : Text) :
    (s.unresolved e core).kind = .unresolved := by
  unfold unresolved
  split <;> rfl

theorem kind_of_argumentDiagnostic {s : State} {site : Site} {arguments : List Argument}
    {d : Diagnostic} (h : d ∈ s.argumentDiagnostics site arguments) :
    d.fault.kind = .unresolved := by
  obtain ⟨a, -, hd⟩ := List.mem_flatMap.mp h
  unfold reportArgument reportUnresolved Site.report at hd
  split at hd
  · cases hd
  · split at hd
    · obtain rfl := List.mem_singleton.mp hd
      exact s.kind_unresolved a.expr a.core
    · cases hd

theorem mem_argumentDiagnostics {s : State} {n : Nat} {arguments : List Argument}
    {d : Diagnostic} :
    d ∈ s.argumentDiagnostics ⟨.second, n⟩ arguments ↔
      ∃ a ∈ arguments, a.value? s.symbols = none ∧ d = ⟨n, s.unresolved a.expr a.core⟩ := by
  unfold argumentDiagnostics
  rw [List.mem_flatMap]
  refine exists_congr fun a => and_congr_right fun _ => ?_
  unfold reportArgument reportUnresolved
  cases a.value? s.symbols with
  | some value => simp
  | none =>
    rw [eq_self, true_and]
    exact List.mem_singleton

variable {s : State} {n : Nat} {source : Text}

/-- A diagnostic of a line is about its label, an argument, or what makes it fail. -/
theorem mem_diagnostics_step {d : Diagnostic} :
    d ∈ Event.diagnostics (s.step ⟨.second, n⟩ source).events ↔
      d ∈ Event.diagnostics (s.lineLabelEvents ⟨.second, n⟩ (Line.parse source)) ∨
        (∃ a ∈ (Line.parse source).arguments,
          a.value? ((Line.parse source).mark s.pc s.symbols) = none ∧
            d = ⟨n, (s.labelled ⟨.second, n⟩ (Line.parse source)).unresolved a.expr a.core⟩) ∨
          ∃ e, s.attempt ⟨.second, n⟩ (Line.parse source) = .error e ∧ d = ⟨n, e⟩ := by
  unfold step
  rw [diagnostics_assemble, List.mem_append, List.mem_append, mem_argumentDiagnostics,
    symbols_labelled, or_assoc]
  refine or_congr_right (or_congr_right ?_)
  cases s.attempt ⟨.second, n⟩ (Line.parse source) with
  | ok effect => simp
  | error e => simp [diagnostics_report]

/-- The diagnostics of a line are under its number. -/
theorem line_of_mem_diagnostics {d : Diagnostic}
    (h : d ∈ Event.diagnostics (s.step ⟨.second, n⟩ source).events) : d.line = n := by
  rcases mem_diagnostics_step.mp h with hlabel | ⟨a, -, -, rfl⟩ | ⟨e, -, rfl⟩
  · exact line_of_labelDiagnostic hlabel
  · rfl
  · rfl

/-- A line reports the arguments without a value, and nothing else is such a report. -/
theorem freeOf_unresolved_step :
    Event.FreeOf .unresolved (s.step ⟨.second, n⟩ source).events ↔
      ∀ a ∈ (Line.parse source).arguments,
        (a.value? ((Line.parse source).mark s.pc s.symbols)).isSome := by
  constructor
  · intro h a ha
    rw [Option.isSome_iff_ne_none]
    intro hnone
    exact h _ (mem_diagnostics_step.mpr (.inr (.inl ⟨a, ha, hnone, rfl⟩)))
      (kind_unresolved _ a.expr a.core)
  · intro h d hd hkind
    rcases mem_diagnostics_step.mp hd with hlabel | ⟨a, ha, hnone, -⟩ | ⟨e, he, rfl⟩
    · rw [kind_of_labelDiagnostic hlabel] at hkind
      cases hkind
    · have := h a ha
      rw [hnone] at this
      cases this
    · exact kind_ne_of_attempt_error (by decide) (by decide) he hkind

/-- What a line reports of labels that moved is what its own label has to report. -/
theorem filter_labelMoved_step :
    (Event.diagnostics (s.step ⟨.second, n⟩ source).events).filter
        (fun d => d.fault.kind = .labelMoved) =
      Event.diagnostics (s.lineLabelEvents ⟨.second, n⟩ (Line.parse source)) := by
  have hlabel : ∀ d ∈ Event.diagnostics (s.lineLabelEvents ⟨.second, n⟩ (Line.parse source)),
      d.fault.kind = .labelMoved := fun d => kind_of_labelDiagnostic
  have harguments : ∀ d ∈ (s.labelled ⟨.second, n⟩ (Line.parse source)).argumentDiagnostics
      ⟨.second, n⟩ (Line.parse source).arguments, d.fault.kind ≠ .labelMoved := by
    intro d hd hkind
    obtain ⟨a, -, -, rfl⟩ := mem_argumentDiagnostics.mp hd
    rw [kind_unresolved] at hkind
    cases hkind
  unfold step
  rw [diagnostics_assemble, List.filter_append, List.filter_append,
    List.filter_eq_self.mpr (by simpa using hlabel),
    List.filter_eq_nil_iff.mpr (by simpa using harguments), List.append_nil]
  refine List.append_right_eq_self.mpr (List.filter_eq_nil_iff.mpr ?_)
  cases hattempt : s.attempt ⟨.second, n⟩ (Line.parse source) with
  | ok effect => exact fun d hd => nomatch hd
  | error e =>
    intro d hd
    obtain rfl := List.mem_singleton.mp hd
    have hkind : e.kind ≠ .labelMoved :=
      kind_ne_of_attempt_error (by decide) (by decide) hattempt
    simpa using hkind

/-- A label that moved is reported with the label and nowhere else. -/
theorem freeOf_labelMoved_step :
    Event.FreeOf .labelMoved (s.step ⟨.second, n⟩ source).events ↔
      Event.diagnostics (s.lineLabelEvents ⟨.second, n⟩ (Line.parse source)) = [] := by
  rw [← filter_labelMoved_step, List.filter_eq_nil_iff]
  simp [Event.FreeOf]

theorem attempt_ne_branchRange
    (h : Event.FreeOf .branchRange (s.step ⟨.second, n⟩ source).events) (distance : Value) :
    s.attempt ⟨.second, n⟩ (Line.parse source) ≠ .error (.branchRange distance) := by
  intro heq
  exact h ⟨n, .branchRange distance⟩ (mem_diagnostics_step.mpr (.inr (.inr ⟨_, heq, rfl⟩))) rfl

/-- A line without diagnostics has its effect. -/
theorem exists_effect_of_clean
    (h : Event.diagnostics (s.step ⟨.second, n⟩ source).events = []) :
    ∃ effect, s.attempt ⟨.second, n⟩ (Line.parse source) = .ok effect := by
  cases hattempt : s.attempt ⟨.second, n⟩ (Line.parse source) with
  | ok effect => exact ⟨effect, rfl⟩
  | error e =>
    have hmem := mem_diagnostics_step.mpr (.inr (.inr ⟨e, hattempt, rfl⟩))
    rw [h] at hmem
    cases hmem

theorem freeOf_of_nil {events : List Event} (h : Event.diagnostics events = [])
    (kind : FaultKind) : Event.FreeOf kind events := by
  intro d hd
  rw [h] at hd
  cases hd

/-- The diagnostics of a run are under the numbers of its lines. -/
theorem line_of_mem_run {lines : List Text} {d : Diagnostic}
    (h : d ∈ Event.diagnostics (s.run .second n lines).events) :
    n ≤ d.line ∧ d.line < n + lines.length := by
  induction lines generalizing s n with
  | nil => cases h
  | cons source rest ih =>
    rw [events_cons, Event.diagnostics_append, List.mem_append] at h
    rw [List.length_cons]
    rcases h with hline | hrest
    · have := line_of_mem_diagnostics hline
      omega
    · have := ih hrest
      omega

theorem argumentDiagnostics_eq_nil {site : Site} {arguments : List Argument}
    (values : ∀ a ∈ arguments, (a.value? s.symbols).isSome) :
    s.argumentDiagnostics site arguments = [] := by
  refine List.flatMap_eq_nil_iff.mpr fun a ha => ?_
  obtain ⟨v, hv⟩ := Option.isSome_iff_exists.mp (values a ha)
  rw [reportArgument, hv]
  rfl

/-- Without a label, and with values for its arguments, a line reports what makes it fail. -/
theorem diagnostics_of_values (site : Site) {r : Reading}
    (label : (Line.parse source).addressLabel? = none)
    (hread : (Line.parse source).reading = .ok r)
    (values : ∀ a ∈ r.arguments, (a.value? s.symbols).isSome) :
    Event.diagnostics (s.step site source).events =
      match s.attempt site (Line.parse source) with
      | .ok _ => []
      | .error e => Event.diagnostics (site.report e) := by
  have hlabel : s.lineLabelEvents site (Line.parse source) = [] := by
    rw [lineLabelEvents, label]
  have hsymbols : (s.labelled site (Line.parse source)).symbols = s.symbols := by
    rw [symbols_labelled, Line.mark, label]
  have harguments : (s.labelled site (Line.parse source)).argumentDiagnostics site
      (Line.parse source).arguments = [] := by
    apply argumentDiagnostics_eq_nil
    rwa [Line.arguments_of_reading hread, hsymbols]
  rw [step, diagnostics_assemble, hlabel, harguments]
  rfl

/-! ## Labels of the second pass -/

namespace Recalls

variable {t : State} {rest : List Text}

/-- The label of a line is reported if the first pass put it elsewhere. -/
theorem labelDiagnostics (h : Recalls s t n (source :: rest)) :
    Event.diagnostics (t.lineLabelEvents ⟨.second, n⟩ (Line.parse source)) =
      match (Line.parse source).addressLabel? with
      | some name => if s.pc = t.pc then [] else [⟨n, .labelMoved name s.pc.toValue t.pc.toValue⟩]
      | none => [] := by
  unfold lineLabelEvents
  cases hlabel : (Line.parse source).addressLabel? with
  | none => rfl
  | some name =>
    simp only [labelEvents, h.address hlabel]
    split
    · rfl
    · rfl

/-- A label that stands where the first pass put it is not reported. -/
theorem labelDiagnostics_eq_nil (h : Recalls s t n (source :: rest)) (hpc : s.pc = t.pc) :
    Event.diagnostics (t.lineLabelEvents ⟨.second, n⟩ (Line.parse source)) = [] := by
  rw [h.labelDiagnostics]
  split
  · exact if_pos hpc
  · rfl

/-- No label moves between passes that stand at one address before every line. -/
theorem freeOf_labelMoved {I : Nat → List Text → State → State → Prop}
    (level : ∀ n lines s t, I n lines s t → Recalls s t n lines ∧ s.pc = t.pc)
    (step : ∀ n source rest s t, I n (source :: rest) s t →
      I (n + 1) rest (s.step ⟨.first, n⟩ source).state (t.step ⟨.second, n⟩ source).state)
    {lines : List Text} (h : I n lines s t) :
    Event.FreeOf .labelMoved (t.run .second n lines).events := by
  induction lines generalizing s t n with
  | nil => exact freeOf_of_nil rfl .labelMoved
  | cons source rest ih =>
    obtain ⟨hrecalls, hpc⟩ := level n (source :: rest) s t h
    exact freeOf_cons.mpr
      ⟨freeOf_labelMoved_step.mpr (hrecalls.labelDiagnostics_eq_nil hpc),
        ih (step n source rest s t h)⟩

/-- Where no label is reported, labels have one address in both passes. -/
theorem pc_eq (h : Recalls s t n (source :: rest))
    (still : Event.FreeOf .labelMoved (t.step ⟨.second, n⟩ source).events)
    (label : (Line.parse source).addressLabel?.isSome) : s.pc = t.pc := by
  obtain ⟨name, hname⟩ := Option.isSome_iff_exists.mp label
  have hnil := freeOf_labelMoved_step.mp still
  rw [h.labelDiagnostics, hname] at hnil
  by_contra hne
  simp only [if_neg hne] at hnil
  cases hnil

end Recalls

end State

end Asm65
