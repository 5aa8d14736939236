-- SUMMARY: Images without data disassemble back into the instructions that were assembled.
import Asm65.Proofs.Selection

/-!
# Disassembly

An opcode byte stands for one mnemonic in one mode, and the mode settles how many bytes follow.
So an image that holds nothing but instructions can be read back from its start, however long
it is: each instruction is followed by the next one, and lines that fail leave no bytes
between them.
-/
namespace Asm65

/-! ## Reading an image -/

/-- An instruction as it stands in an image. -/
structure Decoded where
  mnemonic : Mnemonic
  mode : Mode
  /-- The bytes after the opcode. -/
  operand : List UInt8
  deriving DecidableEq

namespace Decoded

/-- The mnemonic and the mode that have the opcode in the table. -/
def ofOpcode? (opcode : UInt8) : Option (Mnemonic × Mode) :=
  Mnemonic.all.findSome? fun m =>
    (m.encodings.find? fun e => e.opcode == opcode).map fun e => (m, e.mode)

/-- Read instructions one after the other; fails at a byte that is no opcode, and where operand
bytes are missing at the end. -/
def ofImage : List UInt8 → Option (List Decoded)
  | [] => some []
  | opcode :: rest =>
    match ofOpcode? opcode with
    | none => none
    | some (m, mode) =>
      if rest.length < mode.operandLength then none
      else
        (ofImage (rest.drop mode.operandLength)).map
          (⟨m, mode, rest.take mode.operandLength⟩ :: ·)
termination_by bytes => bytes.length
decreasing_by
  rw [List.length_drop, List.length_cons]
  omega

end Decoded

/-- The number that bytes spell, the low one first. -/
def littleEndian : List UInt8 → Nat
  | [] => 0
  | b :: rest => b.toNat + 256 * littleEndian rest

/-- How many numbers the bytes after an opcode can spell. -/
def Mode.capacity (m : Mode) : Int :=
  match m.operandLength with
  | 0 => 1
  | 1 => 256
  | _ => 65536

/-- The bytes after an opcode stand for the value of the operand, zero if it has none. A branch
to a target spells its distance, from the address after its two bytes and with a sign. -/
def Mode.Denotes (m : Mode) (pc : Address) (value : Option Value) (bytes : List UInt8) : Prop :=
  match m, value with
  | relative, some target => ∃ b, bytes = [b] ∧ b.toInt8.toInt + pc.toNat + 2 = target.toInt
  | m, value =>
    bytes.length = m.operandLength ∧
      (littleEndian bytes : Int) = (value.getD 0).toInt % m.capacity

/-! ## The opcode table -/

namespace Decoded

/-- No two encodings share an opcode. -/
theorem ofOpcode?_opcode {m : Mnemonic} {e : Encoding} (h : e ∈ m.encodings) :
    ofOpcode? e.opcode = some (m, e.mode) := by
  have hall : ∀ m ∈ Mnemonic.all, ∀ e ∈ m.encodings,
      ofOpcode? e.opcode = some (m, e.mode) := by decide +kernel
  exact hall m m.mem_all e h

/-- So an opcode is read as the one mnemonic and mode that have it. -/
theorem ofOpcode?_eq_some_iff {opcode : UInt8} {m : Mnemonic} {mode : Mode} :
    ofOpcode? opcode = some (m, mode) ↔ ⟨mode, opcode⟩ ∈ m.encodings := by
  constructor
  · intro h
    obtain ⟨other, -, hfind⟩ := List.exists_of_findSome?_eq_some h
    obtain ⟨e, he, heq⟩ := Option.map_eq_some_iff.mp hfind
    obtain ⟨rfl, rfl⟩ : other = m ∧ e.mode = mode := Prod.mk.inj heq
    have hopcode : e.opcode = opcode := by simpa using List.find?_some he
    exact hopcode ▸ List.mem_of_find?_eq_some he
  · exact fun h => ofOpcode?_opcode h

/-- An instruction in front of an image is read first, and its bytes are those after its
opcode. -/
theorem ofImage_cons {m : Mnemonic} {e : Encoding} {operand : List UInt8} (h : e ∈ m.encodings)
    (size : operand.length = e.mode.operandLength) (more : List UInt8) :
    ofImage (e.opcode :: operand ++ more) = (ofImage more).map (⟨m, e.mode, operand⟩ :: ·) := by
  have enough : ¬ (operand ++ more).length < e.mode.operandLength := by
    rw [List.length_append]
    omega
  rw [List.cons_append, ofImage, ofOpcode?_opcode h]
  dsimp only
  rw [if_neg enough, List.drop_left' size, List.take_left' size]

end Decoded

/-! ## Operands -/

namespace Value

theorem littleEndian_lowByte (v : Value) : (littleEndian [v.lowByte] : Int) = v.toInt % 256 := by
  have hlow := v.toNat_lowByte
  simp only [littleEndian]
  omega

theorem littleEndian_wordBytes (v : Value) :
    (littleEndian v.wordBytes : Int) = v.toInt % 65536 := by
  have hlow := v.toNat_lowByte
  have hhigh := v.toNat_highByte
  simp only [wordBytes, littleEndian]
  omega

end Value

namespace Mode

/-- Operand bytes stand for the value that they were made of. -/
theorem denotes_of_operandBytes {m : Mode} {pc : Address} {value : Option Value}
    {bytes : List UInt8} (h : m.operandBytes pc value = .ok bytes) :
    m.Denotes pc value bytes := by
  cases m with
  | relative =>
    cases value with
    | none =>
      cases h
      exact ⟨rfl, rfl⟩
    | some target =>
      dsimp only [operandBytes] at h
      split at h
      · next reaches =>
        cases h
        refine ⟨_, rfl, ?_⟩
        rw [Value.toInt_lowByte reaches]
        exact toInt_branchDistance reaches
      · cases h
  | implied | accumulator =>
    cases h
    exact ⟨rfl, (Int.emod_one _).symm⟩
  | absolute | absoluteX | absoluteY | indirect | indirectX | indirectY =>
    cases h
    exact ⟨rfl, (value.getD 0).littleEndian_wordBytes⟩
  | _ =>
    cases h
    exact ⟨rfl, (value.getD 0).littleEndian_lowByte⟩

end Mode

/-- Narrowing does not change whether there is an operand. -/
theorem Mnemonic.takesOperand_narrow (m : Mnemonic) (wide : Encoding) (value : Option Value)
    (held : Bool) : (m.narrow wide value held).mode.takesOperand = wide.mode.takesOperand := by
  unfold narrow
  split
  · next short v hshort =>
    split
    · obtain ⟨mode, hmode, hencoding⟩ := Option.bind_eq_some_iff.mp hshort
      rw [mode_of_encoding? hencoding]
      cases hwide : wide.mode <;> rw [hwide] at hmode <;> cases hmode <;> rfl
    · rfl
  · rfl

namespace Line

/-- The line holds an instruction. -/
def isInstruction (line : Line) : Bool :=
  match line.body with
  | .ok (.instruction _ _) => true
  | _ => false

/-- The line is a directive for data: a literal, words or storage. -/
def isData (line : Line) : Bool :=
  match line.body with
  | .ok (.directive (.data _) _) => true
  | .ok (.directive .da _) => true
  | .ok (.directive .ds _) => true
  | _ => false

end Line

namespace Entry

/-- The value that the second pass finds for the operand of an instruction, with the label of
the line bound; none if the mode takes no operand. -/
def operandValue? (e : Entry) (mode : Mode) : Option Value :=
  let site : Site := ⟨.second, e.number⟩
  let line := Line.parse e.source
  match line.body with
  | .ok (.instruction _ operand) =>
    let evaluation := (e.before.labelled site line).evaluateOperand site mode operand
    evaluation.result.toOption.join.bind Evaluation.value
  | _ => none

/-- The line holds an instruction and left bytes. -/
def isCode (e : Entry) : Bool := (Line.parse e.source).isInstruction && !e.bytes.isEmpty

end Entry

/-- The decoded instruction is the one that the second pass assembled on the line. -/
structure Decoded.StandsFor (d : Decoded) (e : Entry) : Prop where
  /-- The line holds the mnemonic, in upper case. -/
  mnemonic : ∃ operand, (Line.parse e.source).body =
    .ok (.instruction d.mnemonic.name.toList operand)
  /-- The mode is the one that was selected for the value of the operand. -/
  selection : Event.selections e.events = [⟨d.mnemonic, d.mode, e.operandValue? d.mode⟩]
  operand : d.mode.Denotes e.before.pc (e.operandValue? d.mode) d.operand

/-! ## Lines without data -/

namespace Line

variable {line : Line}

/-- Data apart, a directive binds a constant, sets the origin or does nothing. -/
theorem reading_of_not_isData (h : line.isData = false) :
    (∃ e, line.reading = .error e) ∨ line.reading = .ok .nothing ∨
      (∃ name a, line.reading = .ok (.equate name a)) ∨
      (∃ a, line.reading = .ok (.origin a)) ∨
      ∃ m wide argument, line.reading = .ok (.instruction m wide argument) := by
  cases hdirective : line.isDirective with
  | false =>
    rcases reading_cases hdirective with herror | hnothing | hinstruction
    · exact .inl herror
    · exact .inr (.inl hnothing)
    · exact .inr (.inr (.inr (.inr hinstruction)))
  | true =>
    obtain ⟨d, operand, hbody⟩ : ∃ d operand, line.body = .ok (.directive d operand) := by
      unfold isDirective at hdirective
      split at hdirective
      · next d operand hbody => exact ⟨d, operand, hbody⟩
      · cases hdirective
    have hread : line.reading = Reading.ofDirective line.label d operand := by
      rw [reading, hbody]
    rw [isData, hbody] at h
    cases hresult : Reading.ofDirective line.label d operand with
    | error e => exact .inl ⟨e, hread.trans hresult⟩
    | ok r =>
      rw [hread, hresult]
      cases d with
      | data kind | da | ds => cases h
      | equ =>
        dsimp only [Reading.ofDirective] at hresult
        split at hresult
        · cases hresult
        · obtain ⟨a, -, rfl⟩ := exists_of_map_ok hresult
          exact .inr (.inr (.inl ⟨_, a, rfl⟩))
      | org =>
        obtain ⟨a, -, rfl⟩ := exists_of_map_ok hresult
        exact .inr (.inr (.inr (.inl ⟨a, rfl⟩)))
      | chk | skipped kind =>
        cases hresult
        exact .inr (.inl rfl)

/-- The operand of an instruction that can be read evaluates to the value of its argument. -/
theorem value_evaluateOperand {mnemonic : Text} {operand : Option Operand} {m : Mnemonic}
    {wide : Encoding} {argument : Option Argument}
    (h : Reading.ofInstruction mnemonic operand = .ok (.instruction m wide argument))
    (s : State) (site : Site) :
    (s.evaluateOperand site wide.mode operand).result.toOption.join.bind Evaluation.value =
      argument.bind (Argument.value? · s.symbols) := by
  unfold Reading.ofInstruction at h
  split at h
  · cases h
  · split at h
    · cases h
    · split at h
      · next operand =>
        split at h
        · next takes =>
          obtain ⟨a, hargument, heq⟩ := exists_of_map_ok h
          cases heq
          simp only [State.evaluateOperand, if_pos takes, State.evaluate_eq, hargument]
          rfl
        · next takes =>
          cases h
          simp only [State.evaluateOperand, if_neg takes]
          rfl
      · cases h
        rfl

end Line

namespace State

variable {s : State} {n : Nat} {source : Text}

theorem evaluateOperand_congr (site : Site) {mode other : Mode}
    (h : mode.takesOperand = other.takesOperand) (operand : Option Operand) :
    s.evaluateOperand site mode operand = s.evaluateOperand site other operand := by
  unfold evaluateOperand
  rw [h]

/-- The value of the operand is the one that the instruction is encoded with. -/
theorem operandValue?_entry {m : Mnemonic} {wide : Encoding} {argument : Option Argument}
    (hread : (Line.parse source).reading = .ok (.instruction m wide argument)) {mode : Mode}
    (takes : mode.takesOperand = wide.mode.takesOperand) :
    (s.entry ⟨.second, n⟩ source).operandValue? mode =
      s.instructionValue (Line.parse source) argument := by
  obtain ⟨mnemonic, operand, hbody, -, -⟩ := Line.body_of_instruction hread
  rw [Line.reading, hbody] at hread
  have hvalue := Line.value_evaluateOperand hread
    (s.labelled ⟨.second, n⟩ (Line.parse source)) ⟨.second, n⟩
  simp only [Entry.operandValue?, entry, hbody, evaluateOperand_congr _ takes operand]
  rw [hvalue, symbols_labelled]
  rfl

/-- An instruction that can be encoded is what its encoding and its operand bytes are read
back as. -/
theorem standsFor_entry {m : Mnemonic} {wide encoding : Encoding} {argument : Option Argument}
    {bytes : List UInt8}
    (hread : (Line.parse source).reading = .ok (.instruction m wide argument))
    (hencoding :
      m.narrow wide (s.instructionValue (Line.parse source) argument) (s.isWide n) = encoding)
    (hbytes : encoding.mode.operandBytes s.pc
      (s.instructionValue (Line.parse source) argument) = .ok bytes) :
    Decoded.StandsFor ⟨m, encoding.mode, bytes⟩ (s.entry ⟨.second, n⟩ source) := by
  have takes : encoding.mode.takesOperand = wide.mode.takesOperand :=
    hencoding ▸ m.takesOperand_narrow wide _ _
  have hoperand := operandValue?_entry (s := s) (n := n) hread takes
  obtain ⟨mnemonic, operand, hbody, hm, -⟩ := Line.body_of_instruction hread
  refine ⟨⟨operand, ?_⟩, ?_, ?_⟩
  · rw [Mnemonic.name_of_ofText? hm]
    exact hbody
  · rw [hoperand]
    dsimp only [entry]
    rw [step, selections_assemble, selections_effect, hread]
    simp only [symbols_labelled, isWide_labelled]
    rw [← hencoding]
    rfl
  · rw [hoperand]
    exact Mode.denotes_of_operandBytes hbytes

/-- A line without data leaves no bytes, or the bytes of the one instruction on it. -/
theorem instruction_of_bytes (noData : (Line.parse source).isData = false) :
    (s.step ⟨.second, n⟩ source).bytes = [] ∨
      ∃ d : Decoded, ∃ e ∈ d.mnemonic.encodings,
        e.mode = d.mode ∧ d.operand.length = d.mode.operandLength ∧
        (s.step ⟨.second, n⟩ source).bytes = e.opcode :: d.operand ∧
        d.StandsFor (s.entry ⟨.second, n⟩ source) := by
  rw [bytes_step]
  rcases Line.reading_of_not_isData noData with
    ⟨e, hread⟩ | hread | ⟨name, a, hread⟩ | ⟨a, hread⟩ | ⟨m, wide, argument, hread⟩
  · rw [action_of_error hread]
    exact .inl rfl
  · rw [action, attempt_of_reading hread]
    exact .inl rfl
  · rw [action, attempt_of_reading hread, Reading.effect]
    split <;> exact .inl rfl
  · rw [action, attempt_of_reading hread, Reading.effect]
    split <;> exact .inl rfl
  · generalize hencoding : m.narrow wide (s.instructionValue (Line.parse source) argument)
      (s.isWide n) = encoding
    have hmem : encoding ∈ m.encodings :=
      hencoding ▸ Mnemonic.narrow_mem_encodings (Line.mem_encodings_of_reading hread) _ _
    cases hbytes : encoding.mode.operandBytes s.pc
        (s.instructionValue (Line.parse source) argument) with
    | error e =>
      rw [action, attempt_instruction hread hencoding, hbytes]
      exact .inl rfl
    | ok bytes =>
      have hstands := standsFor_entry hread hencoding hbytes
      have hlength := Mode.length_operandBytes hbytes
      rw [action_instruction hread hencoding hbytes]
      exact .inr ⟨_, encoding, hmem, rfl, hlength, rfl, hstands⟩

/-- What a run over lines without data emits is read back as its instructions. -/
theorem ofImage_run {lines : List Text}
    (noData : ∀ text ∈ lines, (Line.parse text).isData = false) :
    ∃ instructions, Decoded.ofImage (s.run .second n lines).bytes = some instructions ∧
      List.Forall₂ Decoded.StandsFor instructions
        ((s.run .second n lines).entries.filter Entry.isCode) := by
  induction lines generalizing s n with
  | nil => exact ⟨[], by rw [run_nil]; unfold Decoded.ofImage; rfl, .nil⟩
  | cons source rest ih =>
    rw [List.forall_mem_cons] at noData
    obtain ⟨others, hothers, hrest⟩ := ih (s := (s.step ⟨.second, n⟩ source).state)
      (n := n + 1) noData.2
    have hbytes : (s.run .second n (source :: rest)).bytes =
        (s.step ⟨.second, n⟩ source).bytes ++
          ((s.step ⟨.second, n⟩ source).state.run .second (n + 1) rest).bytes := by
      rw [run_cons, Run.bytes, List.flatMap_cons]
      rfl
    rw [hbytes, run_cons]
    rcases instruction_of_bytes noData.1 with hnone | ⟨d, e, he, hmode, hsize, hsome, hstands⟩
    · have silent : (s.entry ⟨.second, n⟩ source).isCode = false := by
        unfold Entry.isCode entry
        rw [hnone]
        exact Bool.and_false _
      refine ⟨others, ?_, ?_⟩
      · rw [hnone]
        exact hothers
      · rw [List.filter_cons_of_neg (by rw [silent]; exact Bool.false_ne_true)]
        exact hrest
    · have hcode : (s.entry ⟨.second, n⟩ source).isCode = true := by
        obtain ⟨operand, hbody⟩ := hstands.mnemonic
        unfold Entry.isCode Line.isInstruction
        rw [hbody, entry, hsome]
        rfl
      refine ⟨d :: others, ?_, ?_⟩
      · rw [hsome, Decoded.ofImage_cons he (hsize.trans (congrArg _ hmode.symm)), hothers, hmode]
        rfl
      · rw [List.filter_cons_of_pos hcode]
        exact .cons hstands hrest

end State

/-! ## The image -/

/-- The image is read back as instructions, from its first byte to its last: one for each
line with an instruction that left bytes in the second pass, in order. -/
def Assembly.Disassembles (a : Assembly) : Prop :=
  ∃ instructions, Decoded.ofImage a.binary = some instructions ∧
    List.Forall₂ Decoded.StandsFor instructions (a.second.entries.filter Entry.isCode)

/-- A source without data can be disassembled, whatever else is wrong with it. -/
theorem Assembly.disassembles_of_noData (start : Address) (source : Text)
    (noData : ∀ text ∈ source.lines, (Line.parse text).isData = false) :
    (ofText start source).Disassembles :=
  State.ofImage_run noData

/-- Names that are used before they are bound or never, lines that fail, branches both ways. -/
theorem Assembly.faulty_disassembles :
    let source : Text :=
      "START LDA ZP,X\nZP EQU $10\n FOO 1\n ORG $0300\nBACK ldx #0-1\n JMP NOWHERE\n BNE BACK\n BNE START\n BEQ BACK+30\n ASL A".toList
    (∀ text ∈ source.lines, (Line.parse text).isData = false) ∧
      (ofText defaultOrigin source).Disassembles :=
  have noData : ∀ text ∈ Text.lines _, (Line.parse text).isData = false := by decide +kernel
  ⟨noData, disassembles_of_noData _ _ noData⟩

end Asm65
