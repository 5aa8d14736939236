-- SUMMARY: Sources whose layout looks back only are laid out alike by both passes.
import Asm65.Proofs.Encoding
import Asm65.Proofs.Fault

/-!
# Layout

Three directives settle where lines stand: an origin, storage of a size, and a constant,
which the other two may mention. If these look back only, both passes give every line the
same place, however far instructions and words refer forward. A name has one value in both
passes at a line, or the first pass lacks it and the second has it from the end of the
first; and a directive that looks back meets no name of the second kind.
-/
namespace Asm65

/-! ## Looking back -/

namespace Line

/-- The names in the operand of an `ORG`, `DS` or `EQU`. -/
def layoutNames (line : Line) : List Text :=
  match line.reading with
  | .ok (.equate _ a) => a.expr.names
  | .ok (.origin a) => a.expr.names
  | .ok (.storage a) => a.expr.names
  | _ => []

/-- The layout does not hang on what another line binds. -/
def IndependentOf (line other : Line) : Prop :=
  ∀ name ∈ line.layoutNames, other.bound? ≠ some name

instance (line other : Line) : Decidable (line.IndependentOf other) :=
  inferInstanceAs (Decidable (∀ name ∈ line.layoutNames, other.bound? ≠ some name))

end Line

/-- No operand of an `ORG`, `DS` or `EQU` mentions a name that its line or a later one
binds. -/
structure LooksBack (lines : List Line) : Prop where
  own : ∀ line ∈ lines, line.IndependentOf line
  later : lines.Pairwise Line.IndependentOf

theorem LooksBack.tail {line : Line} {rest : List Line} (h : LooksBack (line :: rest)) :
    LooksBack rest :=
  ⟨fun other hother => h.own other (.tail _ hother), (List.pairwise_cons.mp h.later).2⟩

/-- The names of the first line are bound by none. -/
theorem LooksBack.unbound {line : Line} {rest : List Line} (h : LooksBack (line :: rest))
    {name : Text} (hname : name ∈ line.layoutNames) :
    ∀ other ∈ line :: rest, other.bound? ≠ some name := by
  intro other hother
  rcases List.mem_cons.mp hother with rfl | hrest
  · exact h.own other (.head _) name hname
  · exact (List.pairwise_cons.mp h.later).1 other hrest name hname

/-- Two effects take as much space and end at the same address. -/
def Effect.SamePlace (pc : Address) (e e' : Effect) : Prop :=
  e.bytes.length = e'.bytes.length ∧ e.move pc = e'.move pc

namespace Effect.SamePlace

theorem refl {pc : Address} {e : Effect} : SamePlace pc e e := ⟨rfl, rfl⟩

theorem emit {pc : Address} {bytes bytes' : List UInt8} {held held' : Bool}
    (h : bytes.length = bytes'.length) :
    SamePlace pc (.emit bytes held) (.emit bytes' held') :=
  ⟨h, congrArg pc.advance h⟩

end Effect.SamePlace

namespace State

variable {s t : State} {n : Nat} {source : Text} {rest lines : List Text}

/-- Lines leave a name alone that none of them binds. -/
theorem get?_run_of_unbound {pass : Pass} {name : Text}
    (h : ∀ line ∈ lines.map Line.parse, line.bound? ≠ some name) :
    (s.run pass n lines).final.symbols.get? name = s.symbols.get? name := by
  induction lines generalizing s n with
  | nil => rfl
  | cons source rest ih =>
    rw [final_cons, ih fun line hline => h line (.tail _ hline), symbols_step]
    exact Line.get?_define_of_ne (h _ (.head _)) s.pc s.symbols

/-! ## Passes that keep step -/

/-- The second pass in state `t` keeps step with the first pass in state `s`: it stands at
the same address, and knows no name otherwise, but all that are bound in the end. -/
structure KeepsStep (s t : State) (n : Nat) (lines : List Text) : Prop
    extends Recalls s t n lines where
  pc : s.pc = t.pc
  value : ∀ name, t.symbols.get? name = s.symbols.get? name ∨
    s.symbols.get? name = none ∧
      t.symbols.get? name = (s.run .first n lines).final.symbols.get? name
  looksBack : LooksBack (lines.map Line.parse)
  reach : Event.FreeOf .branchRange (t.run .second n lines).events

namespace KeepsStep

theorem start {origin : Address} {lines : List Text}
    (looksBack : LooksBack (lines.map Line.parse))
    (reach : Event.FreeOf .branchRange (Assembly.ofLines origin lines).second.events) :
    KeepsStep ((State.initial origin).beginPass origin)
      (((State.initial origin).runPass .first origin lines).final.beginPass origin) 1 lines where
  toRecalls := Recalls.start origin lines
  pc := rfl
  value _ := .inr ⟨rfl, rfl⟩
  looksBack := looksBack
  reach := reach

theorem symbols_le (h : KeepsStep s t n lines) : s.symbols ≤ t.symbols :=
  SymbolTable.FilledFrom.le h.value

theorem marked (h : KeepsStep s t n (source :: rest)) :
    (Line.parse source).mark s.pc s.symbols ≤ (Line.parse source).mark t.pc t.symbols :=
  Line.mark_le_mark h.symbols_le fun _ => h.pc

/-- A name that is bound neither here nor later has one value in both passes. -/
theorem get?_eq (h : KeepsStep s t n lines) {name : Text}
    (unbound : ∀ line ∈ lines.map Line.parse, line.bound? ≠ some name) :
    s.symbols.get? name = t.symbols.get? name := by
  rcases h.value name with heq | ⟨hnone, hfinal⟩
  · exact heq.symm
  · rw [hfinal, get?_run_of_unbound unbound]

/-- So the operand of a layout directive has one value in both passes. -/
theorem value?_eq (h : KeepsStep s t n (source :: rest)) {a : Argument}
    (ha : ∀ name ∈ a.expr.names, name ∈ (Line.parse source).layoutNames) :
    a.value? ((Line.parse source).mark s.pc s.symbols) =
      a.value? ((Line.parse source).mark t.pc t.symbols) := by
  apply Argument.value?_congr
  intro name hname
  have unbound := h.looksBack.unbound (ha name hname)
  rw [Line.get?_mark_of_unbound (unbound _ (.head _)),
    Line.get?_mark_of_unbound (unbound _ (.head _))]
  exact h.get?_eq unbound

/-! ## One line -/

/-- Instructions have one size. A branch that did not reach in the first pass does not
reach in the second either, since it has the same value at the same address. -/
theorem samePlace_instruction (h : KeepsStep s t n (source :: rest)) {m : Mnemonic}
    {wide : Encoding} {argument : Option Argument}
    (hread : (Line.parse source).reading = .ok (.instruction m wide argument)) :
    Effect.SamePlace s.pc (s.action ⟨.first, n⟩ (Line.parse source))
      (t.action ⟨.second, n⟩ (Line.parse source)) := by
  have hencoding := h.toRecalls.narrow_eq hread h.marked
  cases hbytes' : (m.narrow wide (s.instructionValue (Line.parse source) argument)
      (s.isWide n)).mode.operandBytes t.pc
        (t.instructionValue (Line.parse source) argument) with
  | error e =>
    obtain ⟨distance, rfl⟩ := Mode.exists_of_operandBytes_error hbytes'
    have hattempt : t.attempt ⟨.second, n⟩ (Line.parse source) =
        .error (.branchRange distance) := by
      rw [attempt_instruction hread hencoding, hbytes']
      rfl
    exact absurd hattempt (attempt_ne_branchRange (freeOf_cons.mp h.reach).1 distance)
  | ok bytes' =>
    have hok : ∃ bytes, (m.narrow wide (s.instructionValue (Line.parse source) argument)
        (s.isWide n)).mode.operandBytes s.pc
          (s.instructionValue (Line.parse source) argument) = .ok bytes := by
      cases hvalue : s.instructionValue (Line.parse source) argument with
      | none => exact exists_operandBytes_none _ s.pc
      | some v =>
        rw [instructionValue_of_le h.marked hvalue, hvalue, ← h.pc] at hbytes'
        exact ⟨bytes', hbytes'⟩
    obtain ⟨bytes, hbytes⟩ := hok
    rw [action_instruction hread rfl hbytes, action_instruction hread hencoding hbytes']
    apply Effect.SamePlace.emit
    rw [List.length_cons, List.length_cons, Mode.length_operandBytes hbytes,
      Mode.length_operandBytes hbytes']

/-- The line takes as much space in both passes and ends at the same address. -/
theorem samePlace (h : KeepsStep s t n (source :: rest)) :
    Effect.SamePlace s.pc (s.action ⟨.first, n⟩ (Line.parse source))
      (t.action ⟨.second, n⟩ (Line.parse source)) := by
  cases hread : (Line.parse source).reading with
  | error e =>
    rw [action_of_error hread, action_of_error hread]
    exact .refl
  | ok r =>
    have hvalue : ∀ a : Argument, (r = .origin a ∨ r = .storage a ∨ ∃ name, r = .equate name a) →
        a.value? ((Line.parse source).mark s.pc s.symbols) =
          a.value? ((Line.parse source).mark t.pc t.symbols) := by
      intro a ha
      apply h.value?_eq
      intro name hname
      unfold Line.layoutNames
      rcases ha with rfl | rfl | ⟨constant, rfl⟩ <;> rwa [hread]
    cases r with
    | instruction m wide argument => exact h.samePlace_instruction hread
    | words arguments =>
      simp only [action, attempt_of_reading hread, Reading.effect]
      refine Effect.SamePlace.emit ?_
      simp only [List.length_flatMap, Argument.length_wordBytes]
    | nothing =>
      simp only [action, attempt_of_reading hread, Reading.effect]
      exact .refl
    | data bytes =>
      simp only [action, attempt_of_reading hread, Reading.effect]
      exact .refl
    | equate name a =>
      simp only [action, attempt_of_reading hread, Reading.effect, symbols_labelled,
        hvalue a (.inr (.inr ⟨name, rfl⟩))]
      exact .refl
    | origin a =>
      simp only [action, attempt_of_reading hread, Reading.effect, symbols_labelled,
        hvalue a (.inl rfl)]
      exact .refl
    | storage a =>
      simp only [action, attempt_of_reading hread, Reading.effect, symbols_labelled,
        hvalue a (.inr (.inl rfl))]
      exact .refl

/-- The name that the line binds, or does not bind for want of a value, is alike in both
passes. -/
theorem get?_define_bound (h : KeepsStep s t n (source :: rest)) {name : Text}
    (hbound : (Line.parse source).bound? = some name) :
    ((Line.parse source).define t.pc t.symbols).get? name =
      ((Line.parse source).define s.pc s.symbols).get? name := by
  refine Line.get?_define_bound hbound h.pc fun a hread => ?_
  have hvalue := h.value?_eq (a := a) (by
    intro other hother
    unfold Line.layoutNames
    rwa [hread])
  rwa [Line.mark_of_equate hread, Line.mark_of_equate hread] at hvalue

theorem step (h : KeepsStep s t n (source :: rest)) :
    KeepsStep (s.step ⟨.first, n⟩ source).state (t.step ⟨.second, n⟩ source).state (n + 1)
      rest where
  toRecalls := h.toRecalls.step
  pc := by
    rw [pc_step, pc_step, ← h.pc]
    exact h.samePlace.2
  value := by
    simp only [symbols_step]
    exact Line.define_filledFrom h.value fun name => h.get?_define_bound
  looksBack := h.looksBack.tail
  reach := (freeOf_cons.mp h.reach).2

/-! ## Whole passes -/

/-- No label moves while the passes keep step. -/
theorem labels_still (h : KeepsStep s t n lines) :
    Event.FreeOf .labelMoved (t.run .second n lines).events :=
  Recalls.freeOf_labelMoved (I := fun n lines s t => KeepsStep s t n lines)
    (fun _ _ _ _ h => ⟨h.toRecalls, h.pc⟩) (fun _ _ _ _ _ h => h.step) h

end KeepsStep

end State

namespace Assembly

/-- Both passes went over the same lines and gave each one address and one size. -/
def SameLayout (a : Assembly) : Prop :=
  List.Forall₂
    (fun first second : Entry =>
      first.number = second.number ∧ first.source = second.source ∧
        first.before.pc = second.before.pc ∧ first.bytes.length = second.bytes.length)
    a.first.entries a.second.entries

/-- If the layout looks back only and all branches reach, both passes lay the source out
alike, and so no label is reported to have moved. -/
theorem sameLayout_of_looksBack (start : Address) (source : Text)
    (looksBack : LooksBack (source.lines.map Line.parse))
    (reach : ∀ d ∈ (ofText start source).diagnostics, d.fault.kind ≠ .branchRange) :
    (ofText start source).SameLayout ∧
      ∀ d ∈ (ofText start source).diagnostics, d.fault.kind ≠ .labelMoved := by
  have hstart := State.KeepsStep.start looksBack reach
  refine ⟨?_, hstart.labels_still⟩
  refine (State.run_forall₂ (I := fun n lines s t => State.KeepsStep s t n lines) ?_ hstart).1
  intro n line rest s t h
  refine ⟨⟨rfl, rfl, h.pc, ?_⟩, h.step⟩
  simp only [State.entry, State.bytes_step]
  exact h.samePlace.1

/-- Instructions and words that refer forward, past storage of a constant size. -/
theorem forward_references_sameLayout :
    let source : Text :=
      "SIZE EQU 2\n LDA LATER\n BNE LATER\n DS SIZE*2\n DA LATER\nLATER RTS".toList
    LooksBack (source.lines.map Line.parse) ∧
      (∀ d ∈ (ofText defaultOrigin source).diagnostics, d.fault.kind ≠ .branchRange) ∧
      (ofText defaultOrigin source).SameLayout ∧
      ∀ d ∈ (ofText defaultOrigin source).diagnostics, d.fault.kind ≠ .labelMoved :=
  have looksBack : LooksBack _ := ⟨by decide +kernel, by decide +kernel⟩
  have reach : ∀ d ∈ (ofText _ _).diagnostics, d.fault.kind ≠ .branchRange := by decide +kernel
  ⟨looksBack, reach, sameLayout_of_looksBack _ _ looksBack reach⟩

end Assembly

end Asm65
