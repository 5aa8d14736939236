-- SUMMARY: A line that fails does no more than bind its label: the rest of the assembly is as without it.
import Asm65.Proofs.Fault
import Asm65.Proofs.Fields

/-!
# Failures are local

A line that fails binds its label, reports, and does nothing else, whatever makes it fail. So
it may be replaced by its label alone: every other line of both passes meets the same states,
and nothing is missing in the end but what the line itself had reported.
-/
namespace Asm65

/-! ## Failing -/

/-- Processing the line ended in a fault. -/
def Entry.fails (pass : Pass) (e : Entry) : Bool :=
  let site : Site := ⟨pass, e.number⟩
  let line := Line.parse e.source
  !((e.before.labelled site line).effect site line).result.isOk

/-- The line at an index, counted from zero, fails in both passes. -/
def Assembly.FailsAt (a : Assembly) (i : Nat) : Prop :=
  a.first.entries[i]?.any (Entry.fails .first) ∧ a.second.entries[i]?.any (Entry.fails .second)

instance (a : Assembly) (i : Nat) : Decidable (a.FailsAt i) :=
  inferInstanceAs (Decidable (_ ∧ _))

namespace State

variable {s : State} {site : Site} {pass : Pass} {n : Nat} {source : Text}
  {before after : List Text}

/-- The line fails when it comes up in this state. -/
def FailsOn (s : State) (site : Site) (source : Text) : Prop :=
  ∃ fault, s.attempt site (Line.parse source) = .error fault

theorem failsOn_of_entry (h : (s.entry site source).fails site.pass) : s.FailsOn site source := by
  have hresult : (s.attempt site (Line.parse source)).isOk = false := by
    rw [attempt, ← result_effect]
    simpa [Entry.fails, entry] using h
  unfold FailsOn
  cases hattempt : s.attempt site (Line.parse source) with
  | ok effect =>
    rw [hattempt] at hresult
    cases hresult
  | error fault => exact ⟨fault, rfl⟩

theorem labelled_bare :
    s.labelled site (Line.parse (Line.bare source)) = s.labelled site (Line.parse source) := by
  unfold labelled
  rw [Line.addressLabel?_bare]

theorem attempt_bare : s.attempt site (Line.parse (Line.bare source)) = .ok .nothing := by
  refine attempt_of_reading (r := .nothing) ?_
  rw [Line.parse_bare]
  rfl

/-! ## One line -/

/-- The label alone leads to the same state. -/
theorem state_step_bare (h : s.FailsOn site source) :
    (s.step site (Line.bare source)).state = (s.step site source).state := by
  obtain ⟨fault, hfault⟩ := h
  unfold step
  rw [state_assemble, state_assemble, action, action, attempt_bare, hfault, labelled_bare]
  rfl

theorem bytes_step_bare (h : s.FailsOn site source) :
    (s.step site (Line.bare source)).bytes = (s.step site source).bytes := by
  obtain ⟨fault, hfault⟩ := h
  rw [bytes_step, bytes_step, action, action, attempt_bare, hfault]
  rfl

/-- It reports that the label moved, if it did, and nothing else. -/
theorem diagnostics_step_bare :
    Event.diagnostics (s.step ⟨.second, n⟩ (Line.bare source)).events =
      (Event.diagnostics (s.step ⟨.second, n⟩ source).events).filter
        fun d => d.fault.kind = .labelMoved := by
  have hlabel : s.lineLabelEvents ⟨.second, n⟩ (Line.parse (Line.bare source)) =
      s.lineLabelEvents ⟨.second, n⟩ (Line.parse source) := by
    unfold lineLabelEvents
    rw [Line.addressLabel?_bare]
  have harguments : (Line.parse (Line.bare source)).arguments = [] := by
    rw [Line.parse_bare]
    rfl
  rw [filter_labelMoved_step, step, diagnostics_assemble, hlabel, harguments, attempt_bare]
  exact (List.append_nil _).trans (List.append_nil _)

/-! ## Runs -/

/-- A run up to a line, the line, and the run from there on. -/
theorem run_middle (s : State) (pass : Pass) (n : Nat) (before after : List Text)
    (source : Text) :
    s.run pass n (before ++ source :: after) =
      let t := (s.run pass n before).final
      let site : Site := ⟨pass, n + before.length⟩
      let others := (t.step site source).state.run pass (n + before.length + 1) after
      ⟨(s.run pass n before).entries ++ t.entry site source :: others.entries,
        others.final⟩ := by
  rw [run_append, run_cons]

theorem entry_middle (s : State) (pass : Pass) (n : Nat) (before after : List Text)
    (source : Text) :
    (s.run pass n (before ++ source :: after)).entries[before.length]? =
      some ((s.run pass n before).final.entry ⟨pass, n + before.length⟩ source) := by
  have hlength := s.length_entries_run pass n before
  rw [run_middle, List.getElem?_append_right (Nat.le_of_eq hlength), hlength, Nat.sub_self]
  rfl

theorem run_bare (h : (s.run pass n before).final.FailsOn ⟨pass, n + before.length⟩ source)
    (after : List Text) :
    (s.run pass n (before ++ Line.bare source :: after)).final =
        (s.run pass n (before ++ source :: after)).final ∧
      (s.run pass n (before ++ Line.bare source :: after)).bytes =
        (s.run pass n (before ++ source :: after)).bytes := by
  simp only [run_middle, state_step_bare h, Run.bytes, List.flatMap_append, List.flatMap_cons,
    entry, bytes_step_bare h, and_self]

theorem diagnostics_run_middle (s : State) (before after : List Text) (source : Text) :
    Event.diagnostics (s.run .second n (before ++ source :: after)).events =
      Event.diagnostics (s.run .second n before).events ++
        (Event.diagnostics ((s.run .second n before).final.step
            ⟨.second, n + before.length⟩ source).events ++
          Event.diagnostics (((s.run .second n before).final.step
            ⟨.second, n + before.length⟩ source).state.run .second (n + before.length + 1)
              after).events) := by
  rw [run_middle]
  simp only [Run.events, List.flatMap_append, List.flatMap_cons, Event.diagnostics_append, entry]

/-- Only reports of the line itself are gone. -/
theorem diagnostics_run_bare
    (h : (s.run .second n before).final.FailsOn ⟨.second, n + before.length⟩ source)
    (after : List Text) :
    Event.diagnostics (s.run .second n (before ++ Line.bare source :: after)).events =
      (Event.diagnostics (s.run .second n (before ++ source :: after)).events).filter
        fun d => d.line ≠ n + before.length ∨ d.fault.kind = .labelMoved := by
  rw [diagnostics_run_middle, diagnostics_run_middle, diagnostics_step_bare,
    state_step_bare h, List.filter_append, List.filter_append]
  have hbefore : ∀ d ∈ Event.diagnostics (s.run .second n before).events,
      d.line ≠ n + before.length := by
    intro d hd
    have hline := line_of_mem_run hd
    omega
  have hafter : ∀ (t : State), ∀ d ∈ Event.diagnostics
      (t.run .second (n + before.length + 1) after).events, d.line ≠ n + before.length := by
    intro t d hd
    have hline := line_of_mem_run hd
    omega
  have hthis : ∀ d ∈ Event.diagnostics ((s.run .second n before).final.step
      ⟨.second, n + before.length⟩ source).events, d.line = n + before.length :=
    fun d => line_of_mem_diagnostics
  rw [List.filter_eq_self.mpr fun d hd => decide_eq_true (Or.inl (hbefore d hd)),
    List.filter_eq_self.mpr fun d hd => decide_eq_true (Or.inl (hafter _ d hd))]
  congr 2
  refine List.filter_congr fun d hd => ?_
  simp [hthis d hd]

/-- A line fails in the state that the lines before it lead to. -/
theorem failsOn_of_middle
    (h : (s.run pass n (before ++ source :: after)).entries[before.length]?.any
      (Entry.fails pass)) :
    (s.run pass n before).final.FailsOn ⟨pass, n + before.length⟩ source := by
  rw [entry_middle] at h
  exact failsOn_of_entry h

end State

namespace Assembly

/-- The lines of a source around one of them, and with that one replaced. -/
private theorem exists_around {lines : List Text} {i : Nat} {line : Text}
    (h : lines[i]? = some line) (other : Text) :
    ∃ before after, before.length = i ∧ lines = before ++ line :: after ∧
      lines.set i other = before ++ other :: after := by
  obtain ⟨hlt, rfl⟩ := List.getElem?_eq_some_iff.mp h
  refine ⟨lines.take i, lines.drop (i + 1), ?_, ?_, ?_⟩
  · exact List.length_take_of_le (Nat.le_of_lt hlt)
  · rw [List.getElem_cons_drop, List.take_append_drop]
  · rw [List.set_eq_take_append_cons_drop, if_pos hlt]

/-- If a line fails in both passes, the source in which only its label is left of it is
assembled to the same image at the same origin and with the same symbols, and all that is
reported less is what the line itself had reported, a label that moved apart. -/
theorem bare_of_failsAt (start : Address) (source : Text) {i : Nat} {line : Text}
    (get : source.lines[i]? = some line) (fails : (ofText start source).FailsAt i) :
    let rest := ofLines start (source.lines.set i (Line.bare line))
    rest.origin = (ofText start source).origin ∧
      rest.binary = (ofText start source).binary ∧
      rest.symbols = (ofText start source).symbols ∧
      rest.diagnostics = (ofText start source).diagnostics.filter
        fun d => d.line ≠ i + 1 ∨ d.fault.kind = .labelMoved := by
  obtain ⟨before, after, rfl, hlines, hset⟩ := exists_around get (Line.bare line)
  obtain ⟨hfirst, hsecond⟩ := fails
  unfold ofText at hfirst hsecond ⊢
  rw [hset]
  rw [hlines] at hfirst hsecond ⊢
  -- The first pass ends alike, so the second begins alike.
  have hstart := (State.run_bare (State.failsOn_of_middle hfirst) after).1
  have hfails := State.failsOn_of_middle hsecond
  have hrun : (ofLines start (before ++ Line.bare line :: after)).second =
      (ofLines start (before ++ line :: after)).first.final.runPass .second start
        (before ++ Line.bare line :: after) :=
    congrArg (State.runPass · .second start _) hstart
  obtain ⟨hfinal, hbytes⟩ := State.run_bare hfails after
  have hdiagnostics := State.diagnostics_run_bare hfails after
  rw [Nat.add_comm 1 before.length] at hdiagnostics
  dsimp only [origin, binary, symbols, diagnostics, final]
  rw [hrun]
  exact ⟨congrArg State.origin hfinal, hbytes, congrArg State.symbols hfinal, hdiagnostics⟩

/-- A labelled list of words: the label has moved, the first word has no value, and the second
cannot be read. -/
theorem words_bare :
    let source : Text := " BNE FAR\n DS 300\nFAR DA NONE,(2+)\n JMP FAR".toList
    let line : Text := "FAR DA NONE,(2+)".toList
    let rest := ofLines defaultOrigin (source.lines.set 2 (Line.bare line))
    source.lines[2]? = some line ∧ (ofText defaultOrigin source).FailsAt 2 ∧
      rest.origin = (ofText defaultOrigin source).origin ∧
      rest.binary = (ofText defaultOrigin source).binary ∧
      rest.symbols = (ofText defaultOrigin source).symbols ∧
      rest.diagnostics = (ofText defaultOrigin source).diagnostics.filter
        fun d => d.line ≠ 2 + 1 ∨ d.fault.kind = .labelMoved :=
  have get : (Text.lines _)[2]? = some _ := by decide +kernel
  have fails : (ofText _ _).FailsAt 2 := by decide +kernel
  ⟨get, fails, bare_of_failsAt _ _ get fails⟩

end Assembly

end Asm65
