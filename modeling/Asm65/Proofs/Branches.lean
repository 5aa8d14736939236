-- SUMMARY: Branches to an address, and the ends of the address space they do not cross.
import Asm65.Proofs.Encoding
import Asm65.Proofs.Fault
import Asm65.Proofs.WrittenLine

/-!
# Branches

A branch counts from the byte after it, one byte in either direction. The program counter goes
round the 64K of the address space, but the distance of a branch is a difference of values, which
does not. So a branch reaches every address that a displacement leads to, apart from those that
lie beyond the end of the address space: there it is rejected, even if the target is the very
next line.
-/
namespace Asm65

/-! ## Displacements -/

/-- The displacement leads from a branch at `pc` to the target, in the address space that the
program counter goes round. -/
def Leads (pc : Address) (d : Int) (target : Address) : Prop :=
  -128 ≤ d ∧ d ≤ 127 ∧ (pc.toNat + 2 + d) % 65536 = target.toNat

/-- The way leads across an end of the address space. -/
def Crosses (pc : Address) (d : Int) : Prop :=
  pc.toNat + 2 + d < 0 ∨ 65536 ≤ pc.toNat + 2 + d

instance (pc : Address) (d : Int) (target : Address) : Decidable (Leads pc d target) :=
  inferInstanceAs (Decidable (_ ∧ _))

instance (pc : Address) (d : Int) : Decidable (Crosses pc d) :=
  inferInstanceAs (Decidable (_ ∨ _))

/-- Only one displacement can be the distance, and it is within the address space. -/
theorem leads_within_iff {pc target : Address} {d : Int} :
    Leads pc d target ∧ ¬ Crosses pc d ↔
      (-128 ≤ branchDistance pc target.toValue ∧ branchDistance pc target.toValue ≤ 127) ∧
        d = (branchDistance pc target.toValue).toInt := by
  have htarget := target.toNat_lt
  rw [Value.isInt8_iff, toInt_branchDistance_toValue]
  unfold Leads Crosses
  omega

/-! ## A line with a name for its operand -/

namespace Mnemonic

variable {m : Mnemonic}

theorem isSymbol_name (m : Mnemonic) : isSymbol m.name.toList := by cases m <;> decide

theorem upper_name (m : Mnemonic) : Text.upper m.name.toList = m.name.toList := by
  cases m <;> decide

theorem ofText?_directive_name (m : Mnemonic) : Directive.ofText? m.name.toList = none := by
  cases m <;> decide

/-- The mode of a branch is one that an operand without punctuation can mean. -/
theorem select?_direct {opcode : UInt8} (h : m.encodings = [⟨.relative, opcode⟩]) :
    m.select? Shape.direct.modes = some ⟨.relative, opcode⟩ := by
  simp [select?, encoding?, h, Shape.modes]

end Mnemonic

theorem Operand.parse_symbol {name : Text} (h : isSymbol name) :
    Operand.parse name = .ok ⟨name, .direct⟩ := by
  have hcore : ∀ c ∈ name, OperandParts.isCore c := fun c hc =>
    OperandParts.isCore_of_isNameChar (isNameChar_of_isSymbol h c hc)
  have hparts := OperandParts.ofText_core (ne_nil_of_isSymbol h) hcore
  have hname : name ≠ ['A'] := bne_iff_ne.mp (Bool.and_eq_true_iff.mp h).2
  rw [Operand.parse, hparts]
  simp [OperandParts.shape?, Text.upper, hname, bind, Except.bind]

theorem Expr.parse_symbol {name : Text} (h : isSymbol name) :
    Expr.parse name = .ok (.symbol name) := by
  have hchars := isNameChar_of_isSymbol h
  have hblank : ∀ c ∈ name, isBlank c = false := fun c hc => isBlank_of_isNameChar (hchars c hc)
  have hscan := scan_first (fun c hc => isTermChar_of_isNameChar (hchars c hc)) []
  rw [Expr.parse, Text.trim_of_not_blank hblank, if_neg (ne_nil_of_isSymbol h), hscan]
  exact congrArg (· >>= _) (parseTerm_symbol h)

namespace Line

/-- The source of a line that holds a mnemonic with a name for its operand. -/
def ofSymbol (m : Mnemonic) (name : Text) : Text := ' ' :: m.name.toList ++ ' ' :: name

/-- It is read as the instruction with the name as it stands, and without a label. -/
theorem parse_ofSymbol (m : Mnemonic) {name : Text} (h : isSymbol name) :
    parse (ofSymbol m name) = ⟨none, .ok (.instruction m.name.toList (some ⟨name, .direct⟩))⟩ := by
  have hstatement : parseStatement m.name.toList (some name) =
      .ok (.instruction m.name.toList (some ⟨name, .direct⟩)) := by
    simp only [parseStatement, m.ofText?_directive_name, Operand.parse_symbol h]
    rfl
  have hparse := parse_unlabelled (.of_symbol m.isSymbol_name) (IsToken.of_symbol h).isOperandText
  rwa [m.upper_name, hstatement] at hparse

/-- A branch to a name evaluates the name. -/
theorem reading_ofSymbol {m : Mnemonic} {opcode : UInt8}
    (h : m.encodings = [⟨.relative, opcode⟩]) {name : Text} (symbol : isSymbol name) :
    (parse (ofSymbol m name)).reading =
      .ok (.instruction m ⟨.relative, opcode⟩ (some ⟨name, .symbol name⟩)) := by
  have hcore : Argument.ofCore name = .ok ⟨name, .symbol name⟩ := by
    rw [Argument.ofCore, Expr.parse_symbol symbol]
  have takes : Mode.relative.takesOperand = true := rfl
  rw [parse_ofSymbol m symbol]
  simp only [reading, Reading.ofInstruction, m.ofText?_name, Operand.modes,
    Mnemonic.select?_direct h, takes, hcore, if_true]
  rfl

end Line

/-! ## Branches to a name that is bound -/

namespace State

variable {s : State} {m : Mnemonic} {opcode : UInt8} {name : Text} {v : Value}

/-- All that can fail is the displacement. -/
theorem attempt_branch (site : Site) (h : m.encodings = [⟨.relative, opcode⟩])
    (symbol : isSymbol name) (bound : s.symbols.get? name = some v) :
    s.attempt site (Line.parse (Line.ofSymbol m name)) =
      (fun bytes => .emit (opcode :: bytes) false) <$>
        Mode.relative.operandBytes s.pc (some v) := by
  have hvalue : s.instructionValue (Line.parse (Line.ofSymbol m name))
      (some ⟨name, .symbol name⟩) = some v := by
    rw [Line.parse_ofSymbol m symbol]
    exact bound
  rw [attempt_instruction (Line.reading_ofSymbol h symbol) rfl, hvalue]
  rfl

/-- All there is to report is the displacement. -/
theorem diagnostics_branch (site : Site) (h : m.encodings = [⟨.relative, opcode⟩])
    (symbol : isSymbol name) (bound : s.symbols.get? name = some v) :
    Event.diagnostics (s.step site (Line.ofSymbol m name)).events =
      match s.attempt site (Line.parse (Line.ofSymbol m name)) with
      | .ok _ => []
      | .error e => Event.diagnostics (site.report e) := by
  have hlabel : (Line.parse (Line.ofSymbol m name)).addressLabel? = none := by
    rw [Line.parse_ofSymbol m symbol]
    rfl
  refine diagnostics_of_values site hlabel (Line.reading_ofSymbol h symbol) ?_
  intro a ha
  obtain rfl := List.mem_singleton.mp ha
  exact Option.isSome_of_eq_some bound

end State

/-- A branch to an address, in any state and either pass: it emits the displacement that leads
there within the address space. If there is none, even if one leads there across its end, then
the branch emits nothing, and the second pass reports the distance. -/
theorem State.branch_to_address (s : State) (site : Site) (m : Mnemonic) (name : Text)
    (target : Address) (branch : m.isBranch) (symbol : isSymbol name)
    (bound : s.symbols.get? name = some target.toValue) :
    let outcome := s.step site (Line.ofSymbol m name)
    (∀ d, Leads s.pc d target → ¬ Crosses s.pc d →
      (∃ opcode b, m.encodings = [⟨.relative, opcode⟩] ∧ outcome.bytes = [opcode, b] ∧
        (b.toNat : Int) = d % 256) ∧
        Event.diagnostics outcome.events = []) ∧
    ((∀ d, Leads s.pc d target → Crosses s.pc d) →
      outcome.bytes = [] ∧
        Event.diagnostics outcome.events =
          match site.pass with
          | .first => []
          | .second => [⟨site.line, .branchRange (branchDistance s.pc target.toValue)⟩]) := by
  obtain ⟨opcode, hencodings⟩ := Mnemonic.exists_encodings_of_isBranch branch
  have hattempt := attempt_branch site hencodings symbol bound
  have hdiagnostics := diagnostics_branch site hencodings symbol bound
  intro outcome
  have hbytes : outcome.bytes = (s.action site (Line.parse (Line.ofSymbol m name))).bytes :=
    s.bytes_step site _
  refine ⟨fun d leads within => ?_, fun crossing => ?_⟩
  · obtain ⟨reaches, rfl⟩ := leads_within_iff.mp ⟨leads, within⟩
    have hoperand : Mode.relative.operandBytes s.pc (some target.toValue) =
        .ok [(branchDistance s.pc target.toValue).lowByte] := if_pos reaches
    rw [hoperand] at hattempt
    rw [hattempt] at hdiagnostics
    refine ⟨⟨opcode, _, hencodings, ?_, Value.toNat_lowByte _⟩, hdiagnostics⟩
    rw [hbytes, action, hattempt]
    rfl
  · -- A distance within reach would lead to the target without crossing.
    have beyond : ¬ (-128 ≤ branchDistance s.pc target.toValue ∧
        branchDistance s.pc target.toValue ≤ 127) := by
      intro reaches
      obtain ⟨leads, within⟩ := leads_within_iff.mpr ⟨reaches, rfl⟩
      exact within (crossing _ leads)
    have hoperand : Mode.relative.operandBytes s.pc (some target.toValue) =
        .error (.branchRange (branchDistance s.pc target.toValue)) := if_neg beyond
    rw [hoperand] at hattempt
    rw [hattempt] at hdiagnostics
    refine ⟨?_, ?_⟩
    · rw [hbytes, action, hattempt]
      rfl
    · refine hdiagnostics.trans ?_
      obtain ⟨pass, n⟩ := site
      cases pass <;> rfl

/-- The farthest branch back. -/
theorem State.farthest_branch_to_address :
    let s : State := { State.initial 0x807E with
      symbols := SymbolTable.empty.insert "BACK".toList 0x8000 }
    let outcome := s.step ⟨.second, 1⟩ (Line.ofSymbol .bne "BACK".toList)
    Mnemonic.isBranch .bne ∧ isSymbol "BACK".toList ∧
      s.symbols.get? "BACK".toList = some (Address.toValue 0x8000) ∧
      Leads s.pc (-128) 0x8000 ∧ ¬ Crosses s.pc (-128) ∧
      (∃ opcode b, Mnemonic.bne.encodings = [⟨.relative, opcode⟩] ∧ outcome.bytes = [opcode, b] ∧
        (b.toNat : Int) = -128 % 256) ∧
      Event.diagnostics outcome.events = [] := by
  intro s outcome
  have branch : Mnemonic.isBranch .bne := by decide
  have symbol : isSymbol "BACK".toList := by decide
  have bound : s.symbols.get? "BACK".toList = some (Address.toValue 0x8000) := by decide
  have leads : Leads s.pc (-128) 0x8000 := by decide
  have within : ¬ Crosses s.pc (-128) := by decide
  have hbranch := s.branch_to_address ⟨.second, 1⟩ .bne _ 0x8000 branch symbol bound
  exact ⟨branch, symbol, bound, leads, within, hbranch.1 _ leads within⟩

/-- So a displacement may lead to the target and the branch is rejected all the same: at the
end of the address space even a branch to the next line is. -/
theorem State.not_branch_of_leads :
    ¬ ∀ (s : State) (site : Site) (m : Mnemonic) (name : Text) (target : Address), m.isBranch →
      isSymbol name → s.symbols.get? name = some target.toValue → ∀ d, Leads s.pc d target →
        ∃ opcode b, m.encodings = [⟨.relative, opcode⟩] ∧
          (s.step site (Line.ofSymbol m name)).bytes = [opcode, b] ∧ (b.toNat : Int) = d % 256 := by
  intro h
  let s : State := { State.initial 0xFFFE with
    symbols := SymbolTable.empty.insert "NEXT".toList 0 }
  have hrejected : (s.step ⟨.second, 1⟩ (Line.ofSymbol .bne "NEXT".toList)).bytes = [] := by
    decide +kernel
  obtain ⟨opcode, b, -, hbytes, -⟩ := h s ⟨.second, 1⟩ .bne "NEXT".toList 0 (by decide)
    (by decide) (by decide) 0 (by decide)
  rw [hrejected] at hbytes
  cases hbytes

end Asm65
