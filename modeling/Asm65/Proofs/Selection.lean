-- SUMMARY: Narrowing is stable: both passes select the same modes unless a label moved.
import Asm65.Proofs.Encoding
import Asm65.Proofs.Passes

/-!
# Stable selections

An instruction is given its mode by value, and the two passes see different values. Where
no label is reported to have moved they still select the same mode, whatever else differs:
names may be bound again or unbound, and lines without a label may stand elsewhere. Branches
are left out, since their bytes hang on where they stand.
-/
namespace Asm65

namespace Line

def isDirective (line : Line) : Bool :=
  match line.body with
  | .ok (.directive _ _) => true
  | _ => false

/-- The line holds an instruction with a branch mnemonic. -/
def isBranch (line : Line) : Bool :=
  match line.body with
  | .ok (.instruction mnemonic _) => (Mnemonic.ofText? mnemonic).any Mnemonic.isBranch
  | _ => false

theorem isBranch_of_reading {line : Line} {m : Mnemonic} {wide : Encoding}
    {argument : Option Argument} (h : line.reading = .ok (.instruction m wide argument)) :
    line.isBranch = m.isBranch := by
  obtain ⟨mnemonic, operand, hbody, hm, -⟩ := body_of_instruction h
  unfold isBranch
  rw [hbody]
  simp only [hm, Option.any_some]

/-- Directives apart, a line holds an instruction or does nothing. -/
theorem reading_cases {line : Line} (h : line.isDirective = false) :
    (∃ e, line.reading = .error e) ∨ line.reading = .ok .nothing ∨
      ∃ m wide argument, line.reading = .ok (.instruction m wide argument) := by
  unfold isDirective at h
  unfold reading
  split
  · exact .inl ⟨_, rfl⟩
  · exact .inr (.inl rfl)
  · next mnemonic operand hbody =>
    cases hread : Reading.ofInstruction mnemonic operand with
    | error e => exact .inl ⟨e, rfl⟩
    | ok r =>
      obtain ⟨m, wide, argument, rfl, -, -⟩ := Reading.ofInstruction_ok hread
      exact .inr (.inr ⟨m, wide, argument, rfl⟩)
  · next d operand hbody =>
    rw [hbody] at h
    cases h

end Line

/-- Two passes gave a line the same encoding. -/
structure Entry.SameEncoding (first second : Entry) : Prop where
  modes : (Event.selections first.events).map Selection.mode =
    (Event.selections second.events).map Selection.mode
  size : first.bytes.length = second.bytes.length
  /-- The bytes are final already if every operand had its value. -/
  bytes : (∀ selection ∈ Event.selections first.events,
    selection.mode.takesOperand → selection.value.isSome) → first.bytes = second.bytes

namespace State

variable {s t : State} {n : Nat} {source : Text} {rest : List Text}

/-- What an instruction selects and emits once its encoding is known. -/
theorem step_instruction (pass : Pass) {m : Mnemonic} {wide encoding : Encoding}
    {argument : Option Argument}
    (hread : (Line.parse source).reading = .ok (.instruction m wide argument))
    (hencoding :
      m.narrow wide (s.instructionValue (Line.parse source) argument) (s.isWide n) = encoding)
    (hmode : encoding.mode ≠ .relative) :
    Event.selections (s.step ⟨pass, n⟩ source).events =
        [⟨m, encoding.mode, s.instructionValue (Line.parse source) argument⟩] ∧
      ∃ bytes,
        (∀ pc, encoding.mode.operandBytes pc (s.instructionValue (Line.parse source) argument) =
          .ok bytes) ∧
        (s.step ⟨pass, n⟩ source).bytes = encoding.opcode :: bytes := by
  obtain ⟨bytes, hbytes⟩ :=
    Mode.exists_operandBytes hmode (s.instructionValue (Line.parse source) argument)
  refine ⟨?_, bytes, hbytes, ?_⟩
  · subst hencoding
    unfold step
    rw [selections_assemble, selections_effect, hread]
    simp only [symbols_labelled, isWide_labelled, instructionValue]
  · rw [bytes_step, action_instruction hread hencoding (hbytes s.pc)]
    rfl

/-- A line without an instruction is not encoded in either pass. -/
theorem sameEncoding_of_silent
    (silent : ∀ (u : State) (pass : Pass),
      Event.selections (u.step ⟨pass, n⟩ source).events = [] ∧
        (u.step ⟨pass, n⟩ source).bytes = []) :
    Entry.SameEncoding (s.entry ⟨.first, n⟩ source) (t.entry ⟨.second, n⟩ source) := by
  refine ⟨?_, ?_, ?_⟩
  · simp only [entry, (silent s .first).1, (silent t .second).1]
  · simp only [entry, (silent s .first).2, (silent t .second).2]
  · intro _
    simp only [entry, (silent s .first).2, (silent t .second).2]

/-- A line is encoded alike in both passes as long as no label moved. -/
theorem Trails.sameEncoding (h : Trails s t n (source :: rest))
    (noDirective : (Line.parse source).isDirective = false)
    (noBranch : (Line.parse source).isBranch = false) :
    Entry.SameEncoding (s.entry ⟨.first, n⟩ source) (t.entry ⟨.second, n⟩ source) := by
  rcases Line.reading_cases noDirective with ⟨e, hread⟩ | hread | ⟨m, wide, argument, hread⟩
  · refine sameEncoding_of_silent fun u pass => ⟨?_, ?_⟩
    · rw [State.step, selections_assemble, selections_effect, hread]
    · rw [bytes_step, action_of_error hread]
      rfl
  · refine sameEncoding_of_silent fun u pass => ⟨?_, ?_⟩
    · rw [State.step, selections_assemble, selections_effect, hread]
    · rw [bytes_step, action, attempt_of_reading hread]
      rfl
  · -- The encoding of the first pass is the one of the second.
    have hmode := Mnemonic.mode_ne_relative (Line.isBranch_of_reading hread ▸ noBranch)
      (Mnemonic.narrow_mem_encodings (Line.mem_encodings_of_reading hread)
        (s.instructionValue (Line.parse source) argument) (s.isWide n))
    obtain ⟨hselect, bytes, hbytes, hstep⟩ := step_instruction .first hread rfl hmode
    obtain ⟨hselect', bytes', hbytes', hstep'⟩ :=
      step_instruction .second hread (h.toRecalls.narrow_eq hread h.marked) hmode
    have hlength := Mode.length_operandBytes (hbytes s.pc)
    have hlength' := Mode.length_operandBytes (hbytes' s.pc)
    refine ⟨?_, ?_, ?_⟩
    · simp only [entry, hselect, hselect', List.map_cons, List.map_nil]
    · simp only [entry, hstep, hstep', List.length_cons, hlength, hlength']
    · intro resolved
      simp only [entry, hselect, List.mem_singleton, forall_eq] at resolved
      simp only [entry, hstep, hstep']
      refine congrArg (_ :: ·) ?_
      by_cases takes : (m.narrow wide (s.instructionValue (Line.parse source) argument)
        (s.isWide n)).mode.takesOperand
      · obtain ⟨v, hv⟩ := Option.isSome_iff_exists.mp (resolved takes)
        rw [instructionValue_of_le h.marked hv, ← hv] at hbytes'
        exact Except.ok.inj ((hbytes s.pc).symm.trans (hbytes' s.pc))
      · simp only [Mode.takesOperand, decide_eq_true_eq, Nat.not_lt, Nat.le_zero_eq] at takes
        rw [takes] at hlength hlength'
        rw [List.eq_nil_of_length_eq_zero hlength, List.eq_nil_of_length_eq_zero hlength']

end State

/-- The two passes went over the same lines, and directives and branches apart, gave them the
same encoding. -/
def Assembly.EncodesAlike (a : Assembly) : Prop :=
  List.Forall₂
    (fun first second : Entry =>
      first.number = second.number ∧ first.source = second.source ∧
        ((Line.parse first.source).isDirective = false →
          (Line.parse first.source).isBranch = false → first.SameEncoding second))
    a.first.entries a.second.entries

/-- If no label is reported to have moved, every instruction but a branch is encoded in the
same mode in both passes, and takes as many bytes; and they are the same bytes if its
operand had a value in the first pass. -/
theorem Assembly.encodesAlike_of_labels_still (start : Address) (source : Text)
    (still : ∀ d ∈ (ofText start source).diagnostics, d.fault.kind ≠ .labelMoved) :
    (ofText start source).EncodesAlike := by
  refine (State.run_forall₂ (I := fun n lines s t => State.Trails s t n lines) ?_
    (State.Trails.start still)).1
  intro n line rest s t h
  exact ⟨⟨rfl, rfl, h.sameEncoding⟩, h.step⟩

/-- A constant in page zero that is defined after its first use. -/
theorem Assembly.forward_constant_encodesAlike :
    let source : Text := " LDA ZP\nZP EQU $10\n STA ZP\nEND JMP END".toList
    (∀ d ∈ (ofText defaultOrigin source).diagnostics, d.fault.kind ≠ .labelMoved) ∧
      (ofText defaultOrigin source).EncodesAlike :=
  have still : ∀ d ∈ (ofText _ _).diagnostics, d.fault.kind ≠ .labelMoved := by decide +kernel
  ⟨still, encodesAlike_of_labels_still _ _ still⟩

end Asm65
