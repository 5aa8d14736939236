-- SUMMARY: Code whose operands all have a value in the first pass is left alone by what follows it.
import Asm65.Proofs.Agreement

/-!
# Closed code

Code is closed if the first pass finds a value for every operand in it. Lines that are
appended to closed code may bind, rebind and unbind any name, and the second pass begins
with all of that. It does not matter: what the first pass knew before a line, the second
knows again when it comes to that line, and an operand that has a value needs no more. So
the second pass over closed code is settled by the first.
-/
namespace Asm65

/-! ## Complete lines -/

namespace Text

/-- Every line is ended by a line feed, so that more lines may follow. -/
def Complete (t : Text) : Prop := t.getLast?.all (· == '\n')

instance (t : Text) : Decidable t.Complete :=
  inferInstanceAs (Decidable (t.getLast?.all (· == '\n') = true))

theorem Complete.tail {c d : Char} {t : Text} (h : Complete (c :: d :: t)) :
    Complete (d :: t) := by
  unfold Complete at h ⊢
  rwa [List.getLast?_cons_cons] at h

/-- The lines of a text, the first of which has begun with some characters already. -/
private theorem lines_continue {t more : Text} (complete : t.Complete) (nonempty : t ≠ [])
    (begun : Text) :
    linesOfPieces (begun ++ (cut '\n' (t ++ more)).1) (cut '\n' (t ++ more)).2 =
      linesOfPieces (begun ++ (cut '\n' t).1) (cut '\n' t).2 ++ more.lines := by
  induction t generalizing begun with
  | nil => exact absurd rfl nonempty
  | cons c rest ih =>
    cases rest with
    | nil =>
      obtain rfl : c = '\n' := by simpa [Complete] using complete
      simp [cut_cons, linesOfPieces, lines]
    | cons d rest =>
      rw [List.cons_append, cut_cons, cut_cons]
      split
      · have hrest := ih complete.tail (List.cons_ne_nil d rest) []
        exact congrArg (dropReturn (begun ++ []) :: ·) hrest
      · have hrest := ih complete.tail (List.cons_ne_nil d rest) (begun ++ [c])
        simpa only [List.append_assoc, List.singleton_append] using hrest

theorem lines_append {t : Text} (complete : t.Complete) (more : Text) :
    (t ++ more).lines = t.lines ++ more.lines := by
  by_cases hnil : t = []
  · rw [hnil]
    rfl
  · exact lines_continue complete hnil []

end Text

/-! ## Closed runs -/

/-- Every operand that is evaluated has a value. -/
def Run.Closed (r : Run) : Prop :=
  ∀ e ∈ r.entries, ∀ a ∈ (Line.parse e.source).arguments,
    (a.value? ((Line.parse e.source).mark e.before.pc e.before.symbols)).isSome

instance (r : Run) : Decidable r.Closed :=
  inferInstanceAs (Decidable (∀ e ∈ r.entries, ∀ a ∈ (Line.parse e.source).arguments,
    (a.value? ((Line.parse e.source).mark e.before.pc e.before.symbols)).isSome))

namespace Entry

/-- What is seen of a line in the end: its listing and its diagnostics. -/
def shown (e : Entry) : ListingEntry × List Diagnostic :=
  (e.toListing, Event.diagnostics e.events)

/-- What the first pass lets expect of a line: its bytes, and the fault it failed with. -/
def expected (e : Entry) : ListingEntry × List Diagnostic :=
  (e.toListing,
    match e.before.attempt ⟨.first, e.number⟩ (Line.parse e.source) with
    | .ok _ => []
    | .error fault => [⟨e.number, fault⟩])

end Entry

theorem Run.diagnostics_events (r : Run) :
    Event.diagnostics r.events = (r.entries.map Entry.shown).flatMap Prod.snd := by
  unfold Run.events
  induction r.entries with
  | nil => rfl
  | cons e rest ih =>
    rw [List.flatMap_cons, Event.diagnostics_append, ih]
    rfl

namespace State

variable {s t : State} {n : Nat} {source : Text} {rest lines more : List Text}

/-- The second pass in state `t` comes to closed lines that the first pass took from state
`s`; more lines followed. It stands at the same address and knows what that state knew. -/
structure Settled (s t : State) (n : Nat) (lines more : List Text) : Prop
    extends Recalls s t n (lines ++ more) where
  pc : s.pc = t.pc
  symbols : s.symbols ≤ t.symbols
  closed : (s.run .first n lines).Closed

namespace Settled

theorem start {origin : Address}
    (closed : (Assembly.ofLines origin lines).first.Closed) (more : List Text) :
    Settled ((State.initial origin).beginPass origin)
      (((State.initial origin).runPass .first origin (lines ++ more)).final.beginPass origin) 1
      lines more where
  toRecalls := Recalls.start origin (lines ++ more)
  pc := rfl
  symbols := SymbolTable.empty_le _
  closed := closed

/-- The values that the operands of a line have in the first pass stay in the second. -/
theorem exists_value (h : Settled s t n (source :: rest) more) {a : Argument}
    (ha : a ∈ (Line.parse source).arguments) :
    ∃ value, a.value? ((Line.parse source).mark s.pc s.symbols) = some value ∧
      a.value? ((Line.parse source).mark t.pc t.symbols) = some value := by
  have hline := h.closed (s.entry ⟨.first, n⟩ source) (.head _)
  obtain ⟨value, hvalue⟩ := Option.isSome_iff_exists.mp (hline a ha)
  have hle : (Line.parse source).mark s.pc s.symbols ≤ (Line.parse source).mark t.pc t.symbols :=
    Line.mark_le_mark h.symbols fun _ => h.pc
  exact ⟨value, hvalue, Argument.value?_of_le hle hvalue⟩

theorem value?_eq (h : Settled s t n (source :: rest) more) {a : Argument}
    (ha : a ∈ (Line.parse source).arguments) :
    a.value? ((Line.parse source).mark s.pc s.symbols) =
      a.value? ((Line.parse source).mark t.pc t.symbols) := by
  obtain ⟨value, hfirst, hsecond⟩ := h.exists_value ha
  rw [hfirst, hsecond]

theorem step (h : Settled s t n (source :: rest) more) :
    Settled (s.step ⟨.first, n⟩ source).state (t.step ⟨.second, n⟩ source).state (n + 1)
      rest more where
  toRecalls := h.toRecalls.step
  pc := by
    have haction := h.toRecalls.action_eq h.pc fun _ => h.value?_eq
    rw [pc_step, pc_step, haction, Effect.move_released, h.pc]
  symbols := by
    rw [symbols_step, symbols_step]
    exact Line.define_le_define h.symbols fun _ => h.pc
  closed := fun e he => h.closed e (.tail _ he)

/-- A line shows in the second pass what the first one lets expect. -/
theorem shown_entry (h : Settled s t n (source :: rest) more) :
    (t.entry ⟨.second, n⟩ source).shown = (s.entry ⟨.first, n⟩ source).expected := by
  have hattempt := h.toRecalls.attempt_eq h.pc fun _ => h.value?_eq
  have haction := h.toRecalls.action_eq h.pc fun _ => h.value?_eq
  refine Prod.ext ?_ ?_
  · simp only [Entry.shown, Entry.expected, Entry.toListing, entry, bytes_step, haction,
      Effect.bytes_released]
  · have harguments : (t.labelled ⟨.second, n⟩ (Line.parse source)).argumentDiagnostics
        ⟨.second, n⟩ (Line.parse source).arguments = [] := by
      refine argumentDiagnostics_eq_nil fun a ha => ?_
      obtain ⟨value, -, hvalue⟩ := h.exists_value ha
      rw [symbols_labelled, hvalue]
      rfl
    simp only [Entry.shown, Entry.expected, entry, State.step, diagnostics_assemble,
      h.toRecalls.labelDiagnostics_eq_nil h.pc, harguments, hattempt, List.nil_append]
    cases s.attempt ⟨.first, n⟩ (Line.parse source) <;> rfl

/-- So does the whole of the closed lines, whatever followed them. -/
theorem shown_run (h : Settled s t n lines more) :
    (t.run .second n lines).entries.map Entry.shown =
      (s.run .first n lines).entries.map Entry.expected := by
  induction lines generalizing s t n with
  | nil => rfl
  | cons source rest ih =>
    rw [run_cons, run_cons, List.map_cons, List.map_cons, h.shown_entry, ih h.step]

end Settled

end State

namespace Assembly

theorem listing_eq (a : Assembly) :
    a.listing = (a.second.entries.map Entry.shown).map Prod.fst := by
  rw [List.map_map]
  rfl

theorem diagnostics_eq (a : Assembly) :
    a.diagnostics = (a.second.entries.map Entry.shown).flatMap Prod.snd :=
  a.second.diagnostics_events

/-- The closed lines show the same with more lines after them; all diagnostics of those are
under later numbers. -/
theorem shown_append {start : Address} {lines : List Text}
    (closed : (ofLines start lines).first.Closed) (more : List Text) :
    ∃ others : Run, (∀ d ∈ Event.diagnostics others.events, lines.length < d.line) ∧
      (ofLines start (lines ++ more)).second.entries.map Entry.shown =
        (ofLines start lines).second.entries.map Entry.shown ++
          others.entries.map Entry.shown := by
  have hwhole := (State.Settled.start closed more).shown_run
  have halone := (State.Settled.start closed []).shown_run
  rw [List.append_nil] at halone
  let t := ((State.initial start).runPass .first start (lines ++ more)).final.beginPass start
  refine ⟨(t.run .second 1 lines).final.run .second (1 + lines.length) more, ?_, ?_⟩
  · intro d hd
    have hline := State.line_of_mem_run hd
    omega
  · change (t.run .second 1 (lines ++ more)).entries.map Entry.shown = _
    rw [State.run_append, List.map_append]
    exact congrArg (· ++ _) (hwhole.trans halone.symm)

/-- Closed code that is complete keeps its bytes and its diagnostics, line by line, whatever
is appended to it. -/
theorem unchanged_of_closed (start : Address) (code more : Text) (complete : code.Complete)
    (closed : (ofText start code).first.Closed) :
    (ofText start (code ++ more)).listing.take code.lines.length = (ofText start code).listing ∧
      (ofText start (code ++ more)).diagnostics.filter (fun d => d.line ≤ code.lines.length) =
        (ofText start code).diagnostics := by
  obtain ⟨others, hlater, hshown⟩ := shown_append closed more.lines
  have hwhole : ofText start (code ++ more) = ofLines start (code.lines ++ more.lines) := by
    rw [ofText, Text.lines_append complete]
  have hcount : (ofText start code).listing.length = code.lines.length := by
    rw [listing, List.length_map]
    exact State.length_entries_run _ _ _ _
  refine ⟨?_, ?_⟩
  · rw [hwhole, listing_eq, hshown, List.map_append, ← listing_eq, ← hcount]
    exact List.take_left
  · rw [hwhole, diagnostics_eq, hshown, List.flatMap_append, ← diagnostics_eq,
      ← Run.diagnostics_events, List.filter_append]
    have hcode : ∀ d ∈ (ofLines start code.lines).diagnostics, d.line ≤ code.lines.length := by
      intro d hd
      have hline := State.line_of_mem_run hd
      omega
    have hothers : ∀ d ∈ Event.diagnostics others.events, ¬ d.line ≤ code.lines.length :=
      fun d hd => Nat.not_le.mpr (hlater d hd)
    rw [List.filter_eq_self.mpr, List.filter_eq_nil_iff.mpr, List.append_nil, ofText]
    · simpa using hothers
    · simpa using hcode

/-- Code with a branch out of range, before lines that bind its names to other values and
unbind one of them. -/
theorem far_branch_unchanged :
    let code : Text := "X EQU 2\nL LDA X\n DS 200\n BNE L\n".toList
    let more : Text := "X EQU 300\nL NOP\nX EQU NONE".toList
    code.Complete ∧ (ofText defaultOrigin code).first.Closed ∧
      (ofText defaultOrigin (code ++ more)).listing.take code.lines.length =
        (ofText defaultOrigin code).listing ∧
      (ofText defaultOrigin (code ++ more)).diagnostics.filter
          (fun d => d.line ≤ code.lines.length) =
        (ofText defaultOrigin code).diagnostics :=
  have complete : Text.Complete _ := by decide +kernel
  have closed : (ofText _ _).first.Closed := by decide +kernel
  ⟨complete, closed, unchanged_of_closed _ _ _ complete closed⟩

end Assembly

end Asm65
