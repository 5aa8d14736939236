-- SUMMARY: One-byte addresses: narrowing loses no bits, a mode without a wide form may.
import Asm65.Proofs.Disassembly

/-!
# One-byte addresses

An instruction comes to a mode with a one-byte address in two ways. Where it has the absolute
mode as well, that one is preferred, and it is narrowed for a value in page zero only. Where it
has not, the shape of the operand leaves no other mode, and the byte is the low one of the
value, as it is for an immediate operand: values beyond page zero are cut, and nothing is
reported.
-/
namespace Asm65

/-- The mode has a one-byte address. -/
def Mode.isZeroPage : Mode → Bool
  | zeroPage | zeroPageX | zeroPageY | zeroPageIndirect | zeroPageXIndirect | zeroPageIndirectX
  | zeroPageIndirectY => true
  | _ => false

theorem Value.inZeroPage_iff (v : Value) : v.inZeroPage ↔ 0 ≤ v.toInt ∧ v.toInt ≤ 255 := by
  have hlow : (0 : Value).toInt = 0 := rfl
  have hhigh : (256 : Value).toInt = 256 := rfl
  rw [inZeroPage, Bool.and_eq_true, decide_eq_true_eq, decide_eq_true_eq, Int32.le_iff_toInt_le,
    Int32.lt_iff_toInt_lt, hlow, hhigh]
  omega

/-! ## Modes with and without a wide form -/

namespace Mnemonic

variable {m : Mnemonic} {wide : Encoding} {v : Value} {held : Bool}

/-- The instruction also has the wide mode that the mode is the page-zero form of. -/
def hasWideForm (m : Mnemonic) (mode : Mode) : Bool :=
  m.encodings.any fun e => e.mode.zeroPageForm? == some mode

/-- The instruction has the mode but no wide form of it: the indirect modes have none, and
`STX` and `STY` lack one for their index register. -/
def isShortOnly (m : Mnemonic) (mode : Mode) : Bool :=
  match m, mode with
  | _, .zeroPageXIndirect => true
  | _, .zeroPageIndirectY => true
  | stx, .zeroPageY => true
  | sty, .zeroPageX => true
  | _, _ => false

theorem hasWideForm_eq_not_isShortOnly {e : Encoding} (h : e ∈ m.encodings)
    (short : e.mode.isZeroPage) : m.hasWideForm e.mode = !m.isShortOnly e.mode := by
  have hall : ∀ m ∈ Mnemonic.all, ∀ e ∈ m.encodings, e.mode.isZeroPage →
      m.hasWideForm e.mode = !m.isShortOnly e.mode := by decide +kernel
  exact hall m m.mem_all e h short

/-- A mode is listed after its wide form, so that it is selected as it stands only where the
wide form is lacking. -/
theorem hasWideForm_of_select? {operand : Option Operand}
    (h : m.select? (Operand.modes operand) = some wide) (short : wide.mode.isZeroPage) :
    m.hasWideForm wide.mode = false := by
  have hall : ∀ m ∈ Mnemonic.all, ∀ wide ∈ m.select? (Operand.modes operand),
      wide.mode.isZeroPage → m.hasWideForm wide.mode = false := by
    cases operand with
    | none => decide +kernel
    | some operand =>
      change ∀ m ∈ Mnemonic.all, ∀ wide ∈ m.select? operand.shape.modes, _
      cases operand.shape <;> decide +kernel
  exact hall m m.mem_all wide h short

/-- A one-byte address that has a wide form came from it, by a value that fits. -/
theorem inZeroPage_of_narrow {operand : Option Operand}
    (h : m.select? (Operand.modes operand) = some wide)
    (short : (m.narrow wide (some v) held).mode.isZeroPage)
    (form : m.hasWideForm (m.narrow wide (some v) held).mode) : v.inZeroPage := by
  -- Beyond page zero the mode stays the one selected, and then it has no wide form.
  by_contra hbeyond
  have hsame : m.narrow wide (some v) held = wide := by
    unfold narrow
    split
    · next hvalue =>
      cases hvalue
      rw [if_neg (by simp [hbeyond])]
    · rfl
  rw [hsame] at short form
  rw [hasWideForm_of_select? h short] at form
  cases form

end Mnemonic

/-- The operand bytes of such a mode are the low byte of the value. -/
theorem Mode.operandBytes_of_isZeroPage {m : Mode} (short : m.isZeroPage) (pc : Address)
    (v : Value) : m.operandBytes pc (some v) = .ok [v.lowByte] := by
  cases m <;> first | rfl | cases short

/-! ## Lines that select such a mode -/

/-- What a line emits and reports whose instruction was given a one-byte address for a
value. -/
structure Entry.AddressesByte (e : Entry) (selection : Selection) (v : Value) : Prop where
  /-- The opcode is that of the mode, and the address is the value modulo 256. -/
  bytes : ∃ opcode b, ⟨selection.mode, opcode⟩ ∈ selection.mnemonic.encodings ∧
    e.bytes = [opcode, b] ∧ (b.toNat : Int) = v.toInt % 256
  /-- No bit is lost where there is a wide form. -/
  fits : 0 ≤ v.toInt ∧ v.toInt ≤ 255 ∨ selection.mnemonic.isShortOnly selection.mode
  /-- A value that does not fit is not reported; at most the label of the line is. -/
  reports : ∀ d ∈ Event.diagnostics e.events, d.fault.kind = .labelMoved

namespace State

variable {s : State} {n : Nat} {source : Text}

/-- Only an instruction selects a mode, for the value of its operand. -/
theorem reading_of_selection {site : Site} {selection : Selection}
    (h : selection ∈ Event.selections (s.step site source).events) :
    ∃ wide argument,
      (Line.parse source).reading = .ok (.instruction selection.mnemonic wide argument) ∧
        selection.mode = (selection.mnemonic.narrow wide
          (s.instructionValue (Line.parse source) argument) (s.isWide site.line)).mode := by
  unfold step at h
  rw [selections_assemble, selections_effect] at h
  split at h
  · next m wide argument hread =>
    obtain rfl := List.mem_singleton.mp h
    refine ⟨wide, argument, hread, ?_⟩
    simp only [symbols_labelled, isWide_labelled, instructionValue]
  · cases h

/-- On an instruction whose operand has a value and can be encoded, there is nothing to report
but its label. -/
theorem kind_of_instruction_diagnostic {m : Mnemonic} {wide : Encoding}
    {argument : Option Argument} {v : Value} {effect : Effect} {d : Diagnostic}
    (hread : (Line.parse source).reading = .ok (.instruction m wide argument))
    (value : s.instructionValue (Line.parse source) argument = some v)
    (done : s.attempt ⟨.second, n⟩ (Line.parse source) = .ok effect)
    (h : d ∈ Event.diagnostics (s.step ⟨.second, n⟩ source).events) :
    d.fault.kind = .labelMoved := by
  rcases mem_diagnostics_step.mp h with hlabel | ⟨a, ha, hnone, -⟩ | ⟨e, he, -⟩
  · exact kind_of_labelDiagnostic hlabel
  · rw [Line.arguments_of_reading hread] at ha
    obtain rfl : argument = some a := Option.mem_toList.mp ha
    exact absurd (hnone.symm.trans value) nofun
  · rw [done] at he
    cases he

end State

/-- Whatever the state: an instruction of the second pass that is given a one-byte address for
a value has one that fits, unless it has no wide form of the mode. It emits the low byte of
the value in either case and does not report it. -/
theorem State.addressesByte_of_isZeroPage (s : State) (n : Nat) (source : Text)
    (selection : Selection)
    (selected : selection ∈ Event.selections (s.entry ⟨.second, n⟩ source).events)
    (short : selection.mode.isZeroPage) (v : Value)
    (value : (s.entry ⟨.second, n⟩ source).operandValue? selection.mode = some v) :
    (s.entry ⟨.second, n⟩ source).AddressesByte selection v := by
  obtain ⟨m, mode, found⟩ := selection
  obtain ⟨wide, argument, hread, hmode⟩ := reading_of_selection selected
  obtain ⟨-, operand, -, -, hselect⟩ := Line.body_of_instruction hread
  dsimp only at hread hmode short value
  generalize hencoding : m.narrow wide (s.instructionValue (Line.parse source) argument)
    (s.isWide n) = encoding at hmode
  subst hmode
  have takes : encoding.mode.takesOperand = wide.mode.takesOperand :=
    hencoding ▸ m.takesOperand_narrow wide _ _
  rw [operandValue?_entry hread takes] at value
  have hmem : encoding ∈ m.encodings :=
    hencoding ▸ m.narrow_mem_encodings (Line.mem_encodings_of_reading hread) _ _
  have hbytes : encoding.mode.operandBytes s.pc
      (s.instructionValue (Line.parse source) argument) = .ok [v.lowByte] :=
    value ▸ Mode.operandBytes_of_isZeroPage short s.pc v
  obtain ⟨held, hattempt⟩ : ∃ held, s.attempt ⟨.second, n⟩ (Line.parse source) =
      .ok (.emit [encoding.opcode, v.lowByte] held) :=
    ⟨_, (attempt_instruction hread hencoding).trans (congrArg _ hbytes)⟩
  refine ⟨⟨encoding.opcode, v.lowByte, hmem, ?_, v.toNat_lowByte⟩, ?_, ?_⟩
  · refine (s.bytes_step ⟨.second, n⟩ source).trans ?_
    rw [action, hattempt]
    rfl
  · cases hform : m.hasWideForm encoding.mode with
    | true =>
      rw [value] at hencoding
      subst hencoding
      exact .inl (v.inZeroPage_iff.mp (Mnemonic.inZeroPage_of_narrow hselect short hform))
    | false =>
      rw [Mnemonic.hasWideForm_eq_not_isShortOnly hmem short, Bool.not_eq_false'] at hform
      exact .inr hform
  · intro d hd
    exact kind_of_instruction_diagnostic hread value hattempt hd

/-- A label that moved is reported, the address that is cut is not. -/
theorem State.indirect_addressesByte :
    let s : State := { State.initial defaultOrigin with
      symbols := SymbolTable.empty.insert "TABLE".toList 0x1234
      labelAddresses := [(3, 0x7FFE)] }
    let entry := s.entry ⟨.second, 3⟩ "L STA (TABLE),Y".toList
    let selection : Selection := ⟨.sta, .zeroPageIndirectY, some 0x1234⟩
    selection ∈ Event.selections entry.events ∧ selection.mode.isZeroPage ∧
      entry.operandValue? selection.mode = some 0x1234 ∧
      entry.AddressesByte selection 0x1234 := by
  intro s entry selection
  have selected : selection ∈ Event.selections entry.events := by decide +kernel
  have value : entry.operandValue? selection.mode = some 0x1234 := by decide +kernel
  exact ⟨selected, rfl, value, s.addressesByte_of_isZeroPage 3 _ selection selected rfl _ value⟩

/-- So a one-byte address may lose bits in silence. -/
theorem Assembly.not_fits_of_isZeroPage :
    ¬ ∀ (start : Address) (source : Text), ∀ e ∈ (ofText start source).second.entries,
      ∀ selection ∈ Event.selections e.events, selection.mode.isZeroPage → e.bytes ≠ [] →
        ∀ v, e.operandValue? selection.mode = some v →
          0 ≤ v.toInt ∧ v.toInt ≤ 255 ∨ Event.diagnostics e.events ≠ [] := by
  intro h
  have hcut : ∃ e ∈ (ofText defaultOrigin " STX $1234,Y".toList).second.entries,
      ⟨.stx, .zeroPageY, some 0x1234⟩ ∈ Event.selections e.events ∧ e.bytes = [0x96, 0x34] ∧
        e.operandValue? .zeroPageY = some 0x1234 ∧ Event.diagnostics e.events = [] := by
    decide +kernel
  obtain ⟨e, he, hselection, hbytes, hvalue, hquiet⟩ := hcut
  rcases h _ _ e he _ hselection rfl (by simp [hbytes]) _ hvalue with ⟨-, hhigh⟩ | hreport
  · exact absurd hhigh (by decide)
  · exact hreport hquiet

end Asm65
