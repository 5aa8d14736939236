-- SUMMARY: Passes between which no label moves: the second one knows all that the first one knew.
import Asm65.Proofs.Fault

/-!
# Passes whose labels stay

The second pass begins with every name that the first one bound at its end, but goes on to
bind them again, perhaps to other values. As long as no label is reported to have moved,
the table before a line in the second pass extends the one before it in the first.
-/
namespace Asm65

namespace State

/-- The second pass in state `t` goes over lines that the first pass took from state `s`,
knows what that state knew, and reports no label. -/
structure Trails (s t : State) (n : Nat) (lines : List Text) : Prop
    extends Recalls s t n lines where
  symbols : s.symbols ≤ t.symbols
  still : Event.FreeOf .labelMoved (t.run .second n lines).events

namespace Trails

variable {s t : State} {n : Nat} {source : Text} {rest : List Text}

theorem start {origin : Address} {lines : List Text}
    (still : Event.FreeOf .labelMoved (Assembly.ofLines origin lines).second.events) :
    Trails ((State.initial origin).beginPass origin)
      (((State.initial origin).runPass .first origin lines).final.beginPass origin) 1 lines where
  toRecalls := Recalls.start origin lines
  symbols := SymbolTable.empty_le _
  still := still

/-- The line to come puts its label where the first pass put it. -/
theorem label_pc_eq (h : Trails s t n (source :: rest))
    (label : (Line.parse source).addressLabel?.isSome) : s.pc = t.pc :=
  h.toRecalls.pc_eq (freeOf_cons.mp h.still).1 label

/-- Operands are evaluated in a table that extends the one of the first pass. -/
theorem marked (h : Trails s t n (source :: rest)) :
    (Line.parse source).mark s.pc s.symbols ≤ (Line.parse source).mark t.pc t.symbols :=
  Line.mark_le_mark h.symbols h.label_pc_eq

theorem step (h : Trails s t n (source :: rest)) :
    Trails (s.step ⟨.first, n⟩ source).state (t.step ⟨.second, n⟩ source).state (n + 1)
      rest where
  toRecalls := h.toRecalls.step
  symbols := by
    rw [symbols_step, symbols_step]
    exact Line.define_le_define h.symbols h.label_pc_eq
  still := (freeOf_cons.mp h.still).2

/-- Where no label moved, the first pass ends with a part of the table that the second one
ends with. -/
theorem final {lines : List Text} (h : Trails s t n lines) :
    (s.run .first n lines).final.symbols ≤ (t.run .second n lines).final.symbols := by
  have hruns := run_forall₂ (I := fun n lines s t => Trails s t n lines) (R := fun _ _ => True)
    (p := .first) (q := .second) (fun n source rest s t h => ⟨trivial, h.step⟩) h
  exact hruns.2.symbols

end Trails

end State

end Asm65
