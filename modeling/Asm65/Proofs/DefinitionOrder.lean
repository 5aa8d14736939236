-- SUMMARY: The order in which an assembly lists its symbols, and when that is the order of their definitions.
import Asm65.Proofs.FixedPoint

/-!
# Definition order

A table keeps a name at its place for as long as the name is bound, and gives it a new place
at the end when it is bound again after it was unbound. So over a run a name stands where it
was bound for the first time after it was unbound for the last time. In a clean assembly only
the first pass unbinds names: constants whose operand refers forward. Such a constant is
listed after all that the first pass left bound, wherever its definition stands.
-/
namespace Asm65

/-! ## First occurrences -/

section FirstOccurrences

variable {α : Type} [BEq α] [LawfulBEq α]

theorem eraseDups_filter (p : α → Bool) (xs : List α) :
    (xs.filter p).eraseDups = xs.eraseDups.filter p := by
  match xs with
  | [] => rfl
  | x :: rest =>
    have hrest := eraseDups_filter p (rest.filter fun b => !b == x)
    rw [List.eraseDups_cons, List.filter_cons, List.filter_cons, ← hrest, List.filter_filter]
    split
    · rw [List.eraseDups_cons, List.filter_filter]
      simp only [Bool.and_comm]
    · next hx =>
      refine congrArg List.eraseDups (List.filter_congr fun y _ => ?_)
      by_cases hy : y = x <;> simp_all
termination_by xs.length
decreasing_by
  -- The definition goes on with a part of the tail.
  exact Nat.lt_succ_of_le (List.length_filter_le _ _)

/-- What is left of a list without the elements that it shows first. -/
theorem eraseDups_removeAll {xs ys zs : List α} (h : ys.eraseDups = xs ++ zs) :
    (ys.removeAll xs).eraseDups = zs := by
  induction xs generalizing ys with
  | nil => simpa using h
  | cons x rest ih =>
    cases ys with
    | nil => cases h
    | cons y others =>
      rw [List.eraseDups_cons, List.cons_append, List.cons.injEq] at h
      obtain ⟨rfl, hrest⟩ := h
      rw [← ih hrest]
      simp [List.removeAll_cons]

/-- Putting a list in front keeps the order of first occurrences if it begins with them. -/
theorem eraseDups_append_eq_iff {xs ys : List α} :
    (xs ++ ys).eraseDups = ys.eraseDups ↔ xs.eraseDups <+: ys.eraseDups := by
  rw [List.eraseDups_append]
  constructor
  · intro h
    exact ⟨_, h⟩
  · rintro ⟨zs, h⟩
    have hremove : ys.removeAll xs = ys.removeAll xs.eraseDups := by
      refine List.filter_congr fun y _ => ?_
      simp
    rw [hremove, eraseDups_removeAll h.symm, h]

end FirstOccurrences

/-! ## What lines do to the list of names -/

namespace Line

variable {line : Line} {pc : Address} {symbols : SymbolTable}

/-- The name that the line leaves bound. -/
def binding? (line : Line) (pc : Address) (symbols : SymbolTable) : Option Text :=
  line.bound?.filter fun name => ((line.define pc symbols).get? name).isSome

/-- The name of a constant that the line leaves unbound, since its operand has no value. -/
def unbinding? (line : Line) (pc : Address) (symbols : SymbolTable) : Option Text :=
  line.bound?.filter fun name => !((line.define pc symbols).get? name).isSome

theorem binding?_of_isSome {name : Text} (hbound : line.bound? = some name)
    (h : ((line.define pc symbols).get? name).isSome) :
    line.binding? pc symbols = some name ∧ line.unbinding? pc symbols = none := by
  unfold binding? unbinding?
  rw [hbound, Option.filter_some, Option.filter_some, h]
  exact ⟨rfl, rfl⟩

theorem binding?_of_not_isSome {name : Text} (hbound : line.bound? = some name)
    (h : ¬ ((line.define pc symbols).get? name).isSome) :
    line.binding? pc symbols = none ∧ line.unbinding? pc symbols = some name := by
  unfold binding? unbinding?
  rw [hbound, Option.filter_some, Option.filter_some, Bool.eq_false_iff.mpr h]
  exact ⟨rfl, rfl⟩

theorem binding?_of_unbound (h : line.bound? = none) :
    line.binding? pc symbols = none ∧ line.unbinding? pc symbols = none := by
  unfold binding? unbinding?
  rw [h]
  exact ⟨rfl, rfl⟩

theorem names_define_of_unbound (h : line.bound? = none) :
    (line.define pc symbols).names = symbols.names := by
  rcases equate_or_label line with ⟨constant, a, hread⟩ | ⟨heq, hdefine⟩
  · rw [bound?_of_equate hread] at h
    cases h
  · rw [hdefine, mark, heq.symm.trans h]

theorem names_define_of_bound {name : Text} (hbound : line.bound? = some name) :
    (line.define pc symbols).names =
      if ((line.define pc symbols).get? name).isSome then
        if name ∈ symbols.names then symbols.names else symbols.names ++ [name]
      else symbols.names.filter fun other => other ≠ name := by
  rcases equate_or_label line with ⟨constant, a, hread⟩ | ⟨heq, hdefine⟩
  · obtain rfl : constant = name :=
      Option.some.inj ((bound?_of_equate hread).symm.trans hbound)
    rw [get?_define_constant hread, define_of_equate hread]
    cases a.value? symbols with
    | some value => exact symbols.names_insert constant value
    | none => exact symbols.names_erase constant
  · have hlabel := heq.symm.trans hbound
    rw [get?_define_label hlabel, hdefine, mark, hlabel]
    exact symbols.names_insert name pc.toValue

/-- A name that is unbound loses its place, and one that is bound gets the last one unless it
has one. -/
theorem names_define_eq {names : List Text} (h : symbols.names = names.eraseDups) :
    (line.define pc symbols).names =
      (names.filter (fun name => line.unbinding? pc symbols ≠ some name) ++
        (line.binding? pc symbols).toList).eraseDups := by
  cases hbound : line.bound? with
  | none =>
    have hbinding : line.binding? pc symbols = none := (binding?_of_unbound hbound).1
    have hunbinding : line.unbinding? pc symbols = none := (binding?_of_unbound hbound).2
    simp [names_define_of_unbound hbound, h, hbinding, hunbinding]
  | some name =>
    rw [names_define_of_bound hbound, h]
    by_cases hsome : ((line.define pc symbols).get? name).isSome
    · obtain ⟨hbinding, hunbinding⟩ := binding?_of_isSome hbound hsome
      rw [if_pos hsome, hbinding, hunbinding]
      by_cases hmem : name ∈ names <;>
        simp [hmem, List.eraseDups_append, List.removeAll, List.eraseDups_cons]
    · obtain ⟨hbinding, hunbinding⟩ := binding?_of_not_isSome hbound hsome
      rw [if_neg hsome, hbinding, hunbinding]
      simp [eraseDups_filter, eq_comm]

end Line

namespace Entry

def binding? (e : Entry) : Option Text :=
  (Line.parse e.source).binding? e.before.pc e.before.symbols

def unbinding? (e : Entry) : Option Text :=
  (Line.parse e.source).unbinding? e.before.pc e.before.symbols

end Entry

/-! ## What runs do to the list of names -/

/-- No line unbinds the name. -/
def keeps (entries : List Entry) (name : Text) : Bool :=
  entries.all fun e => e.unbinding? ≠ some name

/-- The names that lines leave bound and no later line unbinds, as often as they are bound. -/
def lasting : List Entry → List Text
  | [] => []
  | e :: rest => (e.binding?.filter (keeps rest)).toList ++ lasting rest

theorem Entry.binding?_eq_of_settled {e : Entry} (h : e.unbinding? = none) :
    e.binding? = (Line.parse e.source).bound? := by
  cases hbound : (Line.parse e.source).bound? with
  | none => exact (Line.binding?_of_unbound hbound).1
  | some name =>
    by_contra hne
    by_cases hsome : (((Line.parse e.source).define e.before.pc e.before.symbols).get? name).isSome
    · exact hne (Line.binding?_of_isSome hbound hsome).1
    · have hunbinding : e.unbinding? = some name := (Line.binding?_of_not_isSome hbound hsome).2
      rw [h] at hunbinding
      cases hunbinding

/-- Where nothing is unbound, every binding lasts. -/
theorem lasting_of_settled {entries : List Entry} (h : ∀ e ∈ entries, e.unbinding? = none) :
    lasting entries = entries.filterMap fun e => (Line.parse e.source).bound? := by
  induction entries with
  | nil => rfl
  | cons e rest ih =>
    obtain ⟨hhead, hrest⟩ := List.forall_mem_cons.mp h
    have hkeeps : keeps rest = fun _ => true := by
      funext name
      refine List.all_eq_true.mpr fun later hlater => ?_
      rw [hrest later hlater]
      rfl
    rw [lasting, ih hrest, hkeeps, Entry.binding?_eq_of_settled hhead, List.filterMap_cons]
    cases (Line.parse e.source).bound? <;> rfl

theorem mem_bound_of_mem_lasting {entries : List Entry} {name : Text} (h : name ∈ lasting entries) :
    name ∈ entries.filterMap fun e => (Line.parse e.source).bound? := by
  induction entries with
  | nil => cases h
  | cons e rest ih =>
    rw [List.filterMap_cons]
    rcases List.mem_append.mp h with hhead | hrest
    · have hbinding : e.binding? = some name := by
        have hfilter := Option.mem_toList.mp hhead
        exact (Option.mem_filter_iff.mp hfilter).1
      have hbound : (Line.parse e.source).bound? = some name :=
        (Option.mem_filter_iff.mp hbinding).1
      rw [hbound]
      exact .head _
    · cases (Line.parse e.source).bound? with
      | none => exact ih hrest
      | some other => exact .tail _ (ih hrest)

/-- The names that some line binds, in the order of the first lines that bind them. -/
def definitionOrder (lines : List Line) : List Text := (lines.filterMap Line.bound?).eraseDups

namespace State

variable {s t : State} {n : Nat} {pass : Pass} {lines : List Text} {names : List Text}

/-- After a run the names that it never unbound keep their order, and then the others follow in
the order of the lines since which they are bound. -/
theorem names_run (h : s.symbols.names = names.eraseDups) :
    (s.run pass n lines).final.symbols.names =
      (names.filter (keeps (s.run pass n lines).entries) ++
        lasting (s.run pass n lines).entries).eraseDups := by
  induction lines generalizing s n names with
  | nil =>
    have hkeeps : names.filter (keeps []) = names := List.filter_eq_self.mpr fun _ _ => rfl
    rw [run_nil, hkeeps, lasting, List.append_nil]
    exact h
  | cons source rest ih =>
    have hstep : (s.step ⟨pass, n⟩ source).state.symbols.names =
        (names.filter (fun name => (s.entry ⟨pass, n⟩ source).unbinding? ≠ some name) ++
          (s.entry ⟨pass, n⟩ source).binding?.toList).eraseDups := by
      rw [symbols_step]
      exact Line.names_define_eq h
    rw [final_cons, ih hstep, run_cons]
    simp only [lasting, List.filter_append, List.filter_filter, List.append_assoc,
      Option.toList_filter]
    congr 2
    refine List.filter_congr fun name _ => ?_
    simp [keeps, Bool.and_comm]

/-- The names that lines of a run bind are bound by lines of the source. -/
theorem bound_run (s : State) (pass : Pass) (n : Nat) (lines : List Text) :
    (s.run pass n lines).entries.filterMap (fun e => (Line.parse e.source).bound?) =
      (lines.map Line.parse).filterMap Line.bound? := by
  conv_rhs => rw [← s.sources_run pass n lines]
  rw [List.map_map, List.filterMap_map]
  rfl

theorem unbinding?_of_clean (clean : Event.diagnostics (t.run .second n lines).events = []) :
    ∀ e ∈ (t.run .second n lines).entries, e.unbinding? = none := by
  induction lines generalizing t n with
  | nil => exact fun e he => nomatch he
  | cons source rest ih =>
    obtain ⟨hline, hrest⟩ := diagnostics_cons.mp clean
    intro e he
    rcases List.mem_cons.mp he with rfl | he
    · cases hbound : (Line.parse source).bound? with
      | none => exact (Line.binding?_of_unbound hbound).2
      | some name =>
        have hsome := isSome_get?_step_of_clean hline (.inl hbound)
        rw [symbols_step] at hsome
        exact (Line.binding?_of_isSome hbound hsome).2
    · exact ih hrest e he

end State

namespace Assembly

/-- How the symbols of a clean assembly are listed. -/
structure ListsNames (a : Assembly) (lines : List Line) : Prop where
  once : a.symbols.names.Nodup
  /-- The names that some line binds are listed. -/
  bound : ∀ name, name ∈ a.symbols.names ↔ ∃ line ∈ lines, line.bound? = some name
  /-- What the first pass left bound comes first, and the rest in definition order. -/
  order : a.symbols.names = (lasting a.first.entries ++ lines.filterMap Line.bound?).eraseDups
  /-- So all of it is in definition order just if the names of the first pass are, with none
  left out between them. -/
  definitionOrder_iff : a.symbols.names = definitionOrder lines ↔
    (lasting a.first.entries).eraseDups <+: definitionOrder lines
  /-- In particular it is if every constant had a value in the first pass. -/
  settled : (∀ e ∈ a.first.entries, e.unbinding? = none) →
    a.symbols.names = definitionOrder lines

variable {start : Address} {source : Text}

theorem names_eq_of_clean (clean : (ofText start source).diagnostics = []) :
    (ofText start source).symbols.names =
      (lasting (ofText start source).first.entries ++
        (source.lines.map Line.parse).filterMap Line.bound?).eraseDups := by
  have hempty : ((State.initial start).beginPass start).symbols.names =
      ([] : List Text).eraseDups := rfl
  have hfirst : (ofText start source).first.final.symbols.names =
      (lasting (ofText start source).first.entries).eraseDups :=
    State.names_run hempty
  have hsecond : (ofText start source).symbols.names =
      ((lasting (ofText start source).first.entries).filter
          (keeps (ofText start source).second.entries) ++
        lasting (ofText start source).second.entries).eraseDups :=
    State.names_run hfirst
  have hsettled : ∀ e ∈ (ofText start source).second.entries, e.unbinding? = none :=
    State.unbinding?_of_clean clean
  have hkeeps : ∀ name ∈ lasting (ofText start source).first.entries,
      keeps (ofText start source).second.entries name := by
    intro name _
    refine List.all_eq_true.mpr fun e he => ?_
    rw [hsettled e he]
    rfl
  have hbound := State.bound_run ((ofText start source).first.final.beginPass start) .second 1
    source.lines
  rw [hsecond, List.filter_eq_self.mpr hkeeps, lasting_of_settled hsettled, ← hbound]
  rfl

/-- In a clean assembly the symbols are listed as the first pass left them, and then those that
it left unbound; this is the order of their definitions just if it is so for the first pass. -/
theorem listsNames_of_clean (start : Address) (source : Text)
    (clean : (ofText start source).diagnostics = []) :
    (ofText start source).ListsNames (source.lines.map Line.parse) := by
  have hnames := names_eq_of_clean clean
  have hbound := State.bound_run ((State.initial start).beginPass start) .first 1 source.lines
  have horder : (ofText start source).symbols.names =
      definitionOrder (source.lines.map Line.parse) ↔
        (lasting (ofText start source).first.entries).eraseDups <+:
          definitionOrder (source.lines.map Line.parse) := by
    rw [hnames]
    exact eraseDups_append_eq_iff
  refine ⟨?_, ?_, hnames, horder, ?_⟩
  · exact State.nodup_names_run (State.nodup_names_run List.nodup_nil)
  · intro name
    rw [hnames, List.mem_eraseDups, List.mem_append, ← List.mem_filterMap, or_iff_right_of_imp]
    intro hlasting
    exact hbound ▸ mem_bound_of_mem_lasting hlasting
  · intro hsettled
    refine horder.mpr ?_
    rw [lasting_of_settled hsettled]
    exact hbound ▸ List.prefix_rfl

/-- A constant that refers forward, before a label and the constant it refers to. -/
def forwardConstant : Text := "X EQU Y\nL NOP\nY EQU 1".toList

theorem forwardConstant_listsNames :
    (ofText defaultOrigin forwardConstant).diagnostics = [] ∧
      (ofText defaultOrigin forwardConstant).ListsNames
        (forwardConstant.lines.map Line.parse) :=
  have clean : (ofText _ forwardConstant).diagnostics = [] := by decide +kernel
  ⟨clean, listsNames_of_clean _ _ clean⟩

/-- Nothing needs to be reported about a source whose symbols are listed in another order. -/
theorem not_definitionOrder_of_clean :
    ¬ ∀ (start : Address) (source : Text), (ofText start source).diagnostics = [] →
        (ofText start source).symbols.names =
          definitionOrder (source.lines.map Line.parse) := by
  intro h
  have hnames : (ofText defaultOrigin forwardConstant).symbols.names =
      ["L".toList, "Y".toList, "X".toList] := by decide +kernel
  have hdefinitions : definitionOrder (forwardConstant.lines.map Line.parse) =
      ["X".toList, "L".toList, "Y".toList] := by decide +kernel
  have horder := h defaultOrigin forwardConstant (by decide +kernel)
  rw [hnames, hdefinitions] at horder
  exact absurd horder (by decide)

end Assembly

end Asm65
