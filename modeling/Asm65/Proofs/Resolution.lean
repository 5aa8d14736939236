-- SUMMARY: Which forward references the two passes resolve: names that the first pass can give a value.
import Asm65.Proofs.Fault
import Mathlib.Logic.Relation

/-!
# Forward references

The second pass finds a name if an earlier line of its own bound it, or if the first pass
ended with it. The first pass ends with every label, but with a constant only if its
definition looks back: at names that earlier lines bind and that the first pass could
itself give a value. A constant whose definition refers to a later constant is unbound when
the first pass ends, and lines before it find nothing.
-/
namespace Asm65

/-! ## Names and their lines -/

namespace Line

/-- The names in the operands of the line. -/
def mentions (line : Line) : List Text := line.arguments.flatMap fun a => a.expr.names

/-- A constant that the line defines, with each of the names in its definition. -/
def dependencies (line : Line) : List (Text × Text) :=
  match line.reading with
  | .ok (.equate name a) => a.expr.names.map (name, ·)
  | _ => []

theorem bound?_of_label {line : Line} {name : Text} (h : line.addressLabel? = some name) :
    line.bound? = some name := by
  rcases equate_or_label line with ⟨constant, a, hread⟩ | ⟨heq, -⟩
  · rw [addressLabel?_of_equate hread] at h
    cases h
  · exact heq.trans h

theorem mem_mentions {line : Line} {a : Argument} (ha : a ∈ line.arguments) {name : Text}
    (hname : name ∈ a.expr.names) : name ∈ line.mentions :=
  List.mem_flatMap.mpr ⟨a, ha, hname⟩

theorem isSome_get?_mark_iff {line : Line} {pc : Address} {symbols : SymbolTable} {name : Text} :
    ((line.mark pc symbols).get? name).isSome ↔
      line.addressLabel? = some name ∨ (symbols.get? name).isSome := by
  by_cases hlabel : line.addressLabel? = some name
  · simp only [get?_mark_label hlabel, hlabel, Option.isSome_some, true_or]
  · simp only [get?_mark_of_ne hlabel, hlabel, false_or]

/-- If a line leaves its name bound, that is a label, or a constant with a value. -/
theorem bound_cases {line : Line} {pc : Address} {symbols : SymbolTable} {name : Text}
    (hbound : line.bound? = some name) (h : ((line.define pc symbols).get? name).isSome) :
    line.addressLabel? = some name ∨
      ∃ a value, line.reading = .ok (.equate name a) ∧ a.value? symbols = some value := by
  rcases equate_or_label line with ⟨constant, a, hread⟩ | ⟨heq, -⟩
  · obtain rfl : constant = name :=
      Option.some.inj ((bound?_of_equate hread).symm.trans hbound)
    rw [get?_define_constant hread] at h
    obtain ⟨value, hvalue⟩ := Option.isSome_iff_exists.mp h
    exact .inr ⟨a, value, hread, hvalue⟩
  · exact .inl (heq.symm.trans hbound)

end Line

/-- A line before the one at an index binds the name. -/
def BoundBefore (lines : List Line) (i : Nat) (name : Text) : Prop :=
  name ∈ (lines.take i).filterMap Line.bound?

/-- The first pass can give the name a value: it is a label, or a constant defined by names
that it can give a value and that lines before it bind. -/
inductive Backward (lines : List Line) : Text → Prop where
  | label {line : Line} {name : Text} (mem : line ∈ lines)
      (label : line.addressLabel? = some name) : Backward lines name
  | constant {i : Nat} {line : Line} {name : Text} {a : Argument} (get : lines[i]? = some line)
      (read : line.reading = .ok (.equate name a))
      (before : ∀ other ∈ a.expr.names, BoundBefore lines i other)
      (names : ∀ other ∈ a.expr.names, Backward lines other) : Backward lines name

/-- Every name in an operand is bound by one line, and operands are built from numbers, names
and the operators that are always defined. -/
structure WellBound (lines : List Line) : Prop where
  once : ∀ line ∈ lines, ∀ name ∈ line.mentions,
    (lines.filterMap Line.bound?).count name = 1
  total : ∀ line ∈ lines, ∀ a ∈ line.arguments, a.expr.isTotal

/-- Every name that a line mentions is bound before it, or the first pass can give it a
value. -/
def Resolves (lines : List Line) : Prop :=
  ∀ i line, lines[i]? = some line → ∀ name ∈ line.mentions,
    BoundBefore lines i name ∨ Backward lines name

/-- The definition of a constant mentions a name. -/
def DependsOn (lines : List Line) (name other : Text) : Prop :=
  (name, other) ∈ lines.flatMap Line.dependencies

/-- No constant is defined by itself, directly or through others. -/
def Acyclic (lines : List Line) : Prop :=
  ∀ name, ¬ Relation.TransGen (DependsOn lines) name name

/-! ## Positions -/

section Positions

variable {lines : List Line} {i : Nat} {line : Line} {name : Text}

theorem boundBefore_succ_iff (h : lines[i]? = some line) :
    BoundBefore lines (i + 1) name ↔ BoundBefore lines i name ∨ line.bound? = some name := by
  unfold BoundBefore
  rw [List.take_add_one, h, List.filterMap_append, List.mem_append]
  refine or_congr_right ?_
  simp only [Option.toList_some, List.mem_filterMap, List.mem_singleton, exists_eq_left]

theorem boundBefore_length_iff :
    BoundBefore lines lines.length name ↔ name ∈ lines.filterMap Line.bound? := by
  rw [BoundBefore, List.take_length]

theorem mem_bound_of_get? (h : lines[i]? = some line) (hbound : line.bound? = some name) :
    name ∈ lines.filterMap Line.bound? :=
  List.mem_filterMap.mpr ⟨line, List.mem_of_getElem? h, hbound⟩

theorem count_pos_of_get? (h : lines[i]? = some line) (hbound : line.bound? = some name) :
    0 < (lines.filterMap Line.bound?).count name :=
  List.count_pos_iff.mpr (mem_bound_of_get? h hbound)

/-- A name that is bound once is bound at one position. -/
theorem index_eq_of_count {other : Line} {k : Nat}
    (once : (lines.filterMap Line.bound?).count name = 1)
    (hi : lines[i]? = some line) (hk : lines[k]? = some other)
    (hline : line.bound? = some name) (hother : other.bound? = some name) : i = k := by
  induction lines generalizing i k with
  | nil => cases hi
  | cons first rest ih =>
    cases i with
    | zero =>
      cases k with
      | zero => rfl
      | succ k =>
        obtain rfl : first = line := Option.some.inj hi
        rw [List.filterMap_cons_some hline, List.count_cons_self] at once
        have hpos : 0 < (rest.filterMap Line.bound?).count name := count_pos_of_get? hk hother
        omega
    | succ i =>
      cases k with
      | zero =>
        obtain rfl : first = other := Option.some.inj hk
        rw [List.filterMap_cons_some hother, List.count_cons_self] at once
        have hpos : 0 < (rest.filterMap Line.bound?).count name := count_pos_of_get? hi hline
        omega
      | succ k =>
        have hpos : 0 < (rest.filterMap Line.bound?).count name := count_pos_of_get? hi hline
        have hrest : (rest.filterMap Line.bound?).count name = 1 := by
          cases hfirst : first.bound? with
          | none => rwa [List.filterMap_cons_none hfirst] at once
          | some bound =>
            rw [List.filterMap_cons_some hfirst, List.count_cons] at once
            omega
        rw [ih hrest hi hk]

/-- A backward name is bound somewhere. -/
theorem Backward.mem_bound (h : Backward lines name) : name ∈ lines.filterMap Line.bound? := by
  cases h with
  | label mem label => exact List.mem_filterMap.mpr ⟨_, mem, Line.bound?_of_label label⟩
  | constant get read before names => exact mem_bound_of_get? get (Line.bound?_of_equate read)

/-- If one line alone binds a constant, it is backward by the definition there. -/
theorem Backward.names_of_equate {a : Argument} (h : Backward lines name)
    (once : (lines.filterMap Line.bound?).count name = 1) (hi : lines[i]? = some line)
    (hread : line.reading = .ok (.equate name a)) :
    ∀ other ∈ a.expr.names, BoundBefore lines i other ∧ Backward lines other := by
  have hbound := Line.bound?_of_equate hread
  cases h with
  | @label source _ mem label =>
    obtain ⟨k, hk⟩ := List.getElem?_of_mem mem
    obtain rfl := index_eq_of_count once hi hk hbound (Line.bound?_of_label label)
    obtain rfl : line = source := Option.some.inj (hi.symm.trans hk)
    rw [Line.addressLabel?_of_equate hread] at label
    cases label
  | @constant k source _ b get read before names =>
    obtain rfl := index_eq_of_count once hi get hbound (Line.bound?_of_equate read)
    obtain rfl : line = source := Option.some.inj (hi.symm.trans get)
    obtain ⟨-, rfl⟩ : name = name ∧ a = b := by
      simpa using hread.symm.trans read
    exact fun other hother => ⟨before other hother, names other hother⟩

end Positions

/-! ## The first pass -/

namespace State

variable {lines : List Line} {s : State} {i n : Nat} {source : Text} {rest : List Text}

/-- Before the line at an index the first pass has bound the names that it can give a value,
as far as lines before this one bind them. -/
structure Collects (lines : List Line) (s : State) (i : Nat) : Prop where
  sound : ∀ name, (s.symbols.get? name).isSome → BoundBefore lines i name ∧ Backward lines name
  complete : ∀ line ∈ lines, ∀ name ∈ line.mentions, BoundBefore lines i name →
    Backward lines name → (s.symbols.get? name).isSome

theorem Collects.sound_step {site : Site} (hget : lines[i]? = some (Line.parse source))
    (h : Collects lines s i) {name : Text}
    (hname : ((s.step site source).state.symbols.get? name).isSome) :
    BoundBefore lines (i + 1) name ∧ Backward lines name := by
  rw [symbols_step] at hname
  by_cases hbound : (Line.parse source).bound? = some name
  · refine ⟨(boundBefore_succ_iff hget).mpr (.inr hbound), ?_⟩
    rcases Line.bound_cases hbound hname with hlabel | ⟨a, value, hread, hvalue⟩
    · exact .label (List.mem_of_getElem? hget) hlabel
    · have hnames : ∀ other ∈ a.expr.names,
          BoundBefore lines i other ∧ Backward lines other :=
        fun other hother => h.sound other (Expr.isSome_get?_of_eval? hvalue hother)
      exact .constant hget hread (fun other hother => (hnames other hother).1)
        fun other hother => (hnames other hother).2
  · rw [Line.get?_define_of_ne hbound] at hname
    obtain ⟨hbefore, hbackward⟩ := h.sound name hname
    exact ⟨(boundBefore_succ_iff hget).mpr (.inl hbefore), hbackward⟩

theorem Collects.complete_step {site : Site} (wellBound : WellBound lines)
    (hget : lines[i]? = some (Line.parse source)) (h : Collects lines s i) {line : Line}
    (hline : line ∈ lines) {name : Text} (hname : name ∈ line.mentions)
    (hbefore : BoundBefore lines (i + 1) name) (hbackward : Backward lines name) :
    ((s.step site source).state.symbols.get? name).isSome := by
  have hmem : Line.parse source ∈ lines := List.mem_of_getElem? hget
  rw [symbols_step]
  by_cases hbound : (Line.parse source).bound? = some name
  · rcases Line.equate_or_label (Line.parse source) with ⟨constant, a, hread⟩ | ⟨heq, -⟩
    · obtain rfl : constant = name :=
        Option.some.inj ((Line.bound?_of_equate hread).symm.trans hbound)
      have ha : a ∈ (Line.parse source).arguments := by
        rw [Line.arguments_of_reading hread]
        exact .head _
      rw [Line.get?_define_constant hread]
      apply Expr.isSome_eval? (wellBound.total _ hmem a ha)
      intro other hother
      obtain ⟨hother_before, hother_backward⟩ := hbackward.names_of_equate
        (wellBound.once line hline constant hname) hget hread other hother
      exact h.complete _ hmem other (Line.mem_mentions ha hother) hother_before hother_backward
    · rw [Line.get?_define_label (heq.symm.trans hbound)]
      rfl
  · rw [Line.get?_define_of_ne hbound]
    exact h.complete line hline name hname
      (((boundBefore_succ_iff hget).mp hbefore).resolve_right hbound) hbackward

theorem Collects.step {site : Site} (wellBound : WellBound lines)
    (hget : lines[i]? = some (Line.parse source)) (h : Collects lines s i) :
    Collects lines (s.step site source).state (i + 1) where
  sound _ hname := h.sound_step hget hname
  complete _ hline _ hname hbefore hbackward :=
    h.complete_step wellBound hget hline hname hbefore hbackward

/-- The lines from an index on are the ones to come. -/
theorem get?_of_drop (h : lines.drop i = (source :: rest).map Line.parse) :
    lines[i]? = some (Line.parse source) ∧ lines.drop (i + 1) = rest.map Line.parse := by
  constructor
  · have hhead : (lines.drop i)[0]? = some (Line.parse source) := by
      rw [h]
      rfl
    rwa [List.getElem?_drop, Nat.add_zero] at hhead
  · rw [← List.drop_drop, h]
    rfl

theorem Collects.run {pass : Pass} (wellBound : WellBound lines)
    (hdrop : lines.drop i = rest.map Line.parse) (h : Collects lines s i) :
    Collects lines (s.run pass n rest).final (i + rest.length) := by
  induction rest generalizing s i n with
  | nil => exact h
  | cons source rest ih =>
    obtain ⟨hget, hrest⟩ := get?_of_drop hdrop
    rw [List.length_cons, Nat.add_comm rest.length 1, ← Nat.add_assoc]
    exact ih hrest (h.step wellBound hget)

/-- What the first pass ends with. -/
theorem Collects.first {sources : List Text} (wellBound : WellBound (sources.map Line.parse))
    (origin : Address) :
    Collects (sources.map Line.parse)
      ((State.initial origin).runPass .first origin sources).final sources.length := by
  have hstart : Collects (sources.map Line.parse) ((State.initial origin).beginPass origin) 0 := by
    constructor
    · intro name hname
      cases hname
    · intro line _ name _ hbefore
      cases hbefore
  have hrun : Collects (sources.map Line.parse)
      ((State.initial origin).runPass .first origin sources).final (0 + sources.length) :=
    hstart.run wellBound rfl
  rwa [Nat.zero_add] at hrun

/-! ## The second pass -/

/-- What the second pass knows before the line at an index is bound before that line or
backward. -/
def Draws (lines : List Line) (t : State) (i : Nat) : Prop :=
  ∀ name, (t.symbols.get? name).isSome → BoundBefore lines i name ∨ Backward lines name

/-- And it knows all of that, as long as no line was without a value. -/
def Supplies (lines : List Line) (t : State) (i : Nat) : Prop :=
  ∀ line ∈ lines, ∀ name ∈ line.mentions, BoundBefore lines i name ∨ Backward lines name →
    (t.symbols.get? name).isSome

variable {t : State}

theorem Draws.step {site : Site} (hget : lines[i]? = some (Line.parse source))
    (h : Draws lines t i) : Draws lines (t.step site source).state (i + 1) := by
  intro name hname
  rw [symbols_step] at hname
  rw [boundBefore_succ_iff hget]
  by_cases hbound : (Line.parse source).bound? = some name
  · exact .inl (.inr hbound)
  · rw [Line.get?_define_of_ne hbound] at hname
    exact (h name hname).imp_left .inl

theorem Supplies.step {site : Site} (hget : lines[i]? = some (Line.parse source))
    (values : ∀ a ∈ (Line.parse source).arguments,
      (a.value? ((Line.parse source).mark t.pc t.symbols)).isSome)
    (h : Supplies lines t i) : Supplies lines (t.step site source).state (i + 1) := by
  intro line hline name hname hknown
  rw [symbols_step]
  apply Line.isSome_get?_define values
  rw [boundBefore_succ_iff hget] at hknown
  rcases hknown with (hbefore | hbound) | hbackward
  · exact .inr (h line hline name hname (.inl hbefore))
  · exact .inl hbound
  · exact .inr (h line hline name hname (.inr hbackward))

/-- Where the names of a line are resolved, its arguments have values. -/
theorem Supplies.values (wellBound : WellBound lines) (resolves : Resolves lines)
    (hget : lines[i]? = some (Line.parse source)) (h : Supplies lines t i) :
    ∀ a ∈ (Line.parse source).arguments,
      (a.value? ((Line.parse source).mark t.pc t.symbols)).isSome := by
  intro a ha
  have hmem : Line.parse source ∈ lines := List.mem_of_getElem? hget
  apply Expr.isSome_eval? (wellBound.total _ hmem a ha)
  intro name hname
  have hmention := Line.mem_mentions ha hname
  exact Line.isSome_get?_mark_iff.mpr
    (.inr (h _ hmem name hmention (resolves i _ hget name hmention)))

theorem Supplies.freeOf_unresolved (wellBound : WellBound lines) (resolves : Resolves lines)
    (hdrop : lines.drop i = rest.map Line.parse) (h : Supplies lines t i) :
    Event.FreeOf .unresolved (t.run .second n rest).events := by
  induction rest generalizing t i n with
  | nil => exact freeOf_of_nil rfl .unresolved
  | cons source rest ih =>
    obtain ⟨hget, hrest⟩ := get?_of_drop hdrop
    have hvalues := h.values wellBound resolves hget
    exact freeOf_cons.mpr
      ⟨freeOf_unresolved_step.mpr hvalues, ih hrest (h.step hget hvalues)⟩

/-- If nothing is unresolved, every name was found where the second pass draws from. -/
theorem Draws.resolves (hdrop : lines.drop i = rest.map Line.parse) (h : Draws lines t i)
    (resolved : Event.FreeOf .unresolved (t.run .second n rest).events) :
    ∀ k line, i ≤ k → lines[k]? = some line → ∀ name ∈ line.mentions,
      BoundBefore lines k name ∨ Backward lines name := by
  induction rest generalizing t i n with
  | nil =>
    intro k line hk hget
    have hlength := List.length_eq_zero_iff.mpr hdrop
    rw [List.length_drop] at hlength
    have hlt := (List.getElem?_eq_some_iff.mp hget).1
    omega
  | cons source rest ih =>
    obtain ⟨hget, hrest⟩ := get?_of_drop hdrop
    obtain ⟨hline, hothers⟩ := freeOf_cons.mp resolved
    intro k line hk hgetk name hname
    rcases Nat.eq_or_lt_of_le hk with rfl | hlt
    · obtain rfl : Line.parse source = line := Option.some.inj (hget.symm.trans hgetk)
      obtain ⟨a, ha, hmem⟩ := List.mem_flatMap.mp hname
      obtain ⟨value, hvalue⟩ :=
        Option.isSome_iff_exists.mp (freeOf_unresolved_step.mp hline a ha)
      rcases Line.isSome_get?_mark_iff.mp (Expr.isSome_get?_of_eval? hvalue hmem) with
        hlabel | hknown
      · exact .inr (.label (List.mem_of_getElem? hget) hlabel)
      · exact h name hknown
    · exact ih hrest (h.step hget) hothers k line hlt hgetk name hname

end State

/-! ## The result -/

namespace Assembly

/-- Where every name in an operand is bound by one line, the two passes resolve exactly the
sources in which every name is bound before its use or can be given a value by the first
pass. -/
theorem resolved_iff (start : Address) (source : Text)
    (wellBound : WellBound (source.lines.map Line.parse)) :
    (∀ d ∈ (ofText start source).diagnostics, d.fault.kind ≠ .unresolved) ↔
      Resolves (source.lines.map Line.parse) := by
  have hfirst := State.Collects.first wellBound start
  have hdraws : State.Draws (source.lines.map Line.parse)
      ((ofText start source).first.final.beginPass start) 0 :=
    fun name hname => .inr (hfirst.sound name hname).2
  have hsupplies : State.Supplies (source.lines.map Line.parse)
      ((ofText start source).first.final.beginPass start) 0 := by
    intro line hline name hname hknown
    rcases hknown with hbefore | hbackward
    · cases hbefore
    · refine hfirst.complete line hline name hname ?_ hbackward
      have hbound := boundBefore_length_iff.mpr hbackward.mem_bound
      rwa [List.length_map] at hbound
  constructor
  · intro resolved i line hget
    exact hdraws.resolves rfl resolved i line (Nat.zero_le i) hget
  · intro resolves
    exact hsupplies.freeOf_unresolved wellBound resolves rfl

/-- Constants that are defined in reverse, with a use before both. -/
def reversedConstants : Text := " LDA Y\nY EQU X\nX EQU 1".toList

theorem reversedConstants_resolved_iff :
    WellBound (reversedConstants.lines.map Line.parse) ∧
      ((∀ d ∈ (ofText defaultOrigin reversedConstants).diagnostics,
          d.fault.kind ≠ .unresolved) ↔
        Resolves (reversedConstants.lines.map Line.parse)) :=
  have wellBound : WellBound _ := ⟨by decide +kernel, by decide +kernel⟩
  ⟨wellBound, resolved_iff _ _ wellBound⟩

/-- One definition for every name and no circle among them do not suffice. -/
theorem not_resolved_of_acyclic :
    ¬ ∀ (start : Address) (source : Text),
      (∀ line ∈ source.lines.map Line.parse, line.reading.isOk) →
        WellBound (source.lines.map Line.parse) → Acyclic (source.lines.map Line.parse) →
          ∀ d ∈ (ofText start source).diagnostics, d.fault.kind ≠ .unresolved := by
  intro h
  have hdependencies : (reversedConstants.lines.map Line.parse).flatMap Line.dependencies =
      [("Y".toList, "X".toList)] := by decide +kernel
  have hacyclic : Acyclic (reversedConstants.lines.map Line.parse) := by
    intro name hcircle
    obtain ⟨next, hnext, -⟩ := Relation.TransGen.head'_iff.mp hcircle
    obtain ⟨last, -, hlast⟩ := Relation.TransGen.tail'_iff.mp hcircle
    unfold DependsOn at hnext hlast
    rw [hdependencies, List.mem_singleton, Prod.mk.injEq] at hnext hlast
    exact absurd (hnext.1.symm.trans hlast.2) (by decide)
  have hresolved := h defaultOrigin reversedConstants (by decide +kernel)
    ⟨by decide +kernel, by decide +kernel⟩ hacyclic
  exact absurd hresolved (by decide +kernel)

end Assembly

end Asm65
