-- SUMMARY: A clean assembly is a fixed point: one more second pass changes nothing.
import Asm65.Proofs.Passes

/-!
# Clean assemblies are final

The second pass mixes values of the first one with its own, so its image could hold values
that the table no longer has. It does not if nothing was reported. Another pass over the
same lines starts from a table that extends the one the second pass started from, and goes
on extending it line by line. Every operand has a value in the smaller table already, so
both passes do the same.
-/
namespace Asm65

namespace Assembly

/-- The second pass once more, from where the assembly ended. -/
def again (a : Assembly) (lines : List Text) : Run := a.final.runPass .second a.start lines

/-- Another second pass would change nothing. -/
structure IsFixed (a : Assembly) (lines : List Text) : Prop where
  /-- Every line keeps its bytes. -/
  listing : (a.again lines).entries.map Entry.toListing = a.listing
  clean : Event.diagnostics (a.again lines).events = []
  /-- The load address, the program counter and the table stay, as do the memories. -/
  final : (a.again lines).final = a.final

end Assembly

namespace State

variable {s t u : State} {n : Nat} {source : Text} {rest lines : List Text}

/-! ## Clean runs -/

theorem diagnostics_cons :
    Event.diagnostics (t.run .second n (source :: rest)).events = [] ↔
      Event.diagnostics (t.step ⟨.second, n⟩ source).events = [] ∧
        Event.diagnostics
          ((t.step ⟨.second, n⟩ source).state.run .second (n + 1) rest).events = [] := by
  rw [events_cons, Event.diagnostics_append, List.append_eq_nil_iff]

/-- In a clean line every argument has a value. -/
theorem values_of_clean (clean : Event.diagnostics (t.step ⟨.second, n⟩ source).events = []) :
    ∀ a ∈ (Line.parse source).arguments,
      (a.value? ((Line.parse source).mark t.pc t.symbols)).isSome :=
  freeOf_unresolved_step.mp (freeOf_of_nil clean .unresolved)

/-- Clean lines bind names and unbind none. -/
theorem isSome_get?_step_of_clean
    (clean : Event.diagnostics (t.step ⟨.second, n⟩ source).events = []) {name : Text}
    (h : (Line.parse source).bound? = some name ∨ (t.symbols.get? name).isSome) :
    ((t.step ⟨.second, n⟩ source).state.symbols.get? name).isSome := by
  rw [symbols_step]
  exact Line.isSome_get?_define (values_of_clean clean) h

theorem isSome_get?_run_of_clean (clean : Event.diagnostics (t.run .second n lines).events = [])
    {name : Text} (h : (t.symbols.get? name).isSome) :
    ((t.run .second n lines).final.symbols.get? name).isSome := by
  induction lines generalizing t n with
  | nil => exact h
  | cons source rest ih =>
    obtain ⟨hstep, hrest⟩ := diagnostics_cons.mp clean
    exact ih hrest (isSome_get?_step_of_clean hstep (.inr h))

theorem memories_run_second (t : State) (n : Nat) (lines : List Text) :
    (t.run .second n lines).final.wideLines = t.wideLines ∧
      (t.run .second n lines).final.labelAddresses = t.labelAddresses := by
  refine run_invariant
    (P := fun u => u.wideLines = t.wideLines ∧ u.labelAddresses = t.labelAddresses) ?_
    ⟨rfl, rfl⟩
  intro u k source h
  obtain ⟨hwide, haddresses⟩ := memories_step_second u k source
  exact ⟨hwide.trans h.1, haddresses.trans h.2⟩

theorem nodup_names_run {pass : Pass} (h : t.symbols.names.Nodup) :
    (t.run pass n lines).final.symbols.names.Nodup := by
  refine run_invariant (P := fun u => u.symbols.names.Nodup) ?_ h
  intro u k source hu
  rw [symbols_step]
  exact Line.nodup_names_define hu u.pc

/-! ## A pass repeated -/

/-- A pass in state `u` repeats a clean pass in state `t`. It knows all that the other does,
and no names but those that the other ends with. -/
structure Repeats (t u : State) (n : Nat) (lines : List Text) : Prop where
  pc : t.pc = u.pc
  origin : t.origin = u.origin
  wideLines : t.wideLines = u.wideLines
  labelAddresses : t.labelAddresses = u.labelAddresses
  symbols : t.symbols ≤ u.symbols
  names : u.symbols.names = (t.run .second n lines).final.symbols.names
  clean : Event.diagnostics (t.run .second n lines).events = []

namespace Repeats

theorem step_clean (h : Repeats t u n (source :: rest)) :
    Event.diagnostics (t.step ⟨.second, n⟩ source).events = [] :=
  (diagnostics_cons.mp h.clean).1

theorem marked (h : Repeats t u n (source :: rest)) :
    (Line.parse source).mark t.pc t.symbols ≤ (Line.parse source).mark u.pc u.symbols :=
  Line.mark_le_mark h.symbols fun _ => h.pc

/-- The arguments of a line have the same values in both passes. -/
theorem value?_eq (h : Repeats t u n (source :: rest)) {a : Argument}
    (ha : a ∈ (Line.parse source).arguments) :
    a.value? ((Line.parse source).mark t.pc t.symbols) =
      a.value? ((Line.parse source).mark u.pc u.symbols) := by
  obtain ⟨value, hvalue⟩ := Option.isSome_iff_exists.mp (values_of_clean h.step_clean a ha)
  exact hvalue.trans (Argument.value?_of_le h.marked hvalue).symm

/-- The line does the same in both passes. -/
theorem attempt_eq (h : Repeats t u n (source :: rest)) :
    t.attempt ⟨.second, n⟩ (Line.parse source) = u.attempt ⟨.second, n⟩ (Line.parse source) := by
  cases hread : (Line.parse source).reading with
  | error e => rw [attempt_of_error hread, attempt_of_error hread]
  | ok r =>
    rw [attempt_of_reading hread, attempt_of_reading hread]
    refine Reading.effect_congr ?_ ?_ ?_
    · rw [pc_labelled, pc_labelled, h.pc]
    · rw [isWide_labelled, isWide_labelled, isWide, isWide, h.wideLines]
    · intro a ha
      rw [← Line.arguments_of_reading hread] at ha
      rw [symbols_labelled, symbols_labelled]
      exact h.value?_eq ha

theorem action_eq (h : Repeats t u n (source :: rest)) :
    t.action ⟨.second, n⟩ (Line.parse source) = u.action ⟨.second, n⟩ (Line.parse source) := by
  unfold action
  rw [h.attempt_eq]

theorem bytes_eq (h : Repeats t u n (source :: rest)) :
    (t.step ⟨.second, n⟩ source).bytes = (u.step ⟨.second, n⟩ source).bytes := by
  rw [bytes_step, bytes_step, h.action_eq]

theorem lineLabelEvents_eq (h : Repeats t u n (source :: rest)) :
    t.lineLabelEvents ⟨.second, n⟩ (Line.parse source) =
      u.lineLabelEvents ⟨.second, n⟩ (Line.parse source) := by
  unfold lineLabelEvents labelEvents
  rw [h.pc, h.labelAddresses]

/-- The repeated line is clean as well. -/
theorem diagnostics_step (h : Repeats t u n (source :: rest)) :
    Event.diagnostics (u.step ⟨.second, n⟩ source).events = [] := by
  rw [List.eq_nil_iff_forall_not_mem]
  intro d hd
  rcases mem_diagnostics_step.mp hd with hlabel | ⟨a, ha, hnone, -⟩ | ⟨e, he, -⟩
  · rw [← h.lineLabelEvents_eq] at hlabel
    have hmem := mem_diagnostics_step.mpr (.inl hlabel)
    rw [h.step_clean] at hmem
    cases hmem
  · have hsome := values_of_clean h.step_clean a ha
    rw [h.value?_eq ha, hnone] at hsome
    cases hsome
  · obtain ⟨effect, heffect⟩ := exists_effect_of_clean h.step_clean
    rw [← h.attempt_eq, heffect] at he
    cases he

/-- The repeated line lists no new name. -/
theorem names_step (h : Repeats t u n (source :: rest)) :
    (u.step ⟨.second, n⟩ source).state.symbols.names = u.symbols.names := by
  rw [symbols_step]
  apply Line.names_define
  · intro a ha
    rw [← h.value?_eq ha]
    exact values_of_clean h.step_clean a ha
  · intro name hname
    obtain ⟨hstep, hrest⟩ := diagnostics_cons.mp h.clean
    rw [h.names, ← SymbolTable.isSome_get?_iff]
    exact isSome_get?_run_of_clean hrest (isSome_get?_step_of_clean hstep (.inl hname))

theorem step (h : Repeats t u n (source :: rest)) :
    Repeats (t.step ⟨.second, n⟩ source).state (u.step ⟨.second, n⟩ source).state (n + 1)
      rest where
  pc := by rw [pc_step, pc_step, h.action_eq, h.pc]
  origin := by rw [origin_step, origin_step, h.action_eq, h.origin]
  wideLines := by
    rw [(memories_step_second t n source).1, (memories_step_second u n source).1, h.wideLines]
  labelAddresses := by
    rw [(memories_step_second t n source).2, (memories_step_second u n source).2,
      h.labelAddresses]
  symbols := by
    rw [symbols_step, symbols_step]
    exact Line.define_le_define h.symbols fun _ => h.pc
  names := h.names_step.trans h.names
  clean := (diagnostics_cons.mp h.clean).2

/-- At the end both passes are in the same state. -/
theorem eq_of_done (h : Repeats t u n []) (nodup : t.symbols.names.Nodup) : u = t := by
  have hsymbols : u.symbols = t.symbols := SymbolTable.eq_of_le h.symbols h.names nodup
  obtain ⟨origin, pc, symbols, wideLines, labelAddresses⟩ := t
  obtain ⟨origin', pc', symbols', wideLines', labelAddresses'⟩ := u
  obtain rfl : origin = origin' := h.origin
  obtain rfl : pc = pc' := h.pc
  obtain rfl : wideLines = wideLines' := h.wideLines
  obtain rfl : labelAddresses = labelAddresses' := h.labelAddresses
  obtain rfl : symbols' = symbols := hsymbols
  rfl

/-- A repeated pass emits the same lines, without a diagnostic. -/
theorem run (h : Repeats t u n lines) :
    (u.run .second n lines).entries.map Entry.toListing =
        (t.run .second n lines).entries.map Entry.toListing ∧
      Event.diagnostics (u.run .second n lines).events = [] ∧
      Repeats (t.run .second n lines).final (u.run .second n lines).final (n + lines.length)
        [] := by
  induction lines generalizing t u n with
  | nil => exact ⟨rfl, rfl, h⟩
  | cons source rest ih =>
    obtain ⟨hlisting, hclean, hfinal⟩ := ih h.step
    refine ⟨?_, diagnostics_cons.mpr ⟨h.diagnostics_step, hclean⟩, ?_⟩
    · rw [run_cons, run_cons]
      simp only [List.map_cons, hlisting, Entry.toListing, entry, h.bytes_eq]
    · rw [List.length_cons, Nat.add_comm rest.length 1, ← Nat.add_assoc]
      exact hfinal

end Repeats

/-- A clean assembly is repeated by one more second pass. -/
theorem repeats_of_clean {start : Address} {lines : List Text}
    (clean : (Assembly.ofLines start lines).diagnostics = []) :
    Repeats ((Assembly.ofLines start lines).first.final.beginPass start)
      ((Assembly.ofLines start lines).final.beginPass start) 1 lines where
  pc := rfl
  origin := rfl
  wideLines := (memories_run_second _ 1 lines).1.symm
  labelAddresses := (memories_run_second _ 1 lines).2.symm
  symbols := (Trails.start (freeOf_of_nil clean .labelMoved)).final
  names := rfl
  clean := clean

end State

namespace Assembly

/-- If nothing was reported, one more second pass from the final state gives every line the
bytes it has, reports nothing, and ends in the same state. So nothing in the image is out of
date with respect to the final table. -/
theorem isFixed_of_clean (start : Address) (source : Text)
    (clean : (ofText start source).diagnostics = []) :
    (ofText start source).IsFixed source.lines := by
  obtain ⟨hlisting, hclean, hfinal⟩ := (State.repeats_of_clean clean).run
  refine ⟨hlisting, hclean, hfinal.eq_of_done ?_⟩
  exact State.nodup_names_run (State.nodup_names_run List.nodup_nil)

/-- A source that defines a name anew and refers forward. -/
theorem redefined_isFixed :
    let source : Text := "X EQU 1\n LDA X\nX EQU 2\n LDA X\n JMP END\nEND RTS".toList
    (ofText defaultOrigin source).diagnostics = [] ∧
      (ofText defaultOrigin source).IsFixed source.lines :=
  have clean : (ofText _ _).diagnostics = [] := by decide +kernel
  ⟨clean, isFixed_of_clean _ _ clean⟩

end Assembly

end Asm65
