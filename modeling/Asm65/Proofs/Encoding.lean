-- SUMMARY: The encoding of an instruction: sizes, independence of the address, agreement of the passes.
import Asm65.Proofs.Run

/-!
# Encodings

The mode of an instruction settles its size, and branches apart, its bytes do not hang on
where it stands. Narrowing is the one choice made by value. The memory of wide lines makes
the second pass choose what the first one chose, as long as values are only gained.
-/
namespace Asm65

/-! ## Bytes of values -/

namespace Value

theorem toNat_toUInt32 (v : Value) : (v.toUInt32.toNat : Int) = v.toInt % 4294967296 := by
  have hbits : v.toInt = (v.toUInt32.toNat : Int).bmod (2 ^ 32) := v.toBitVec.toInt_eq_toNat_bmod
  have hlt := v.toUInt32.toNat_lt
  rw [hbits]
  simp only [Int.bmod]
  split <;> omega

theorem toNat_lowByte (v : Value) : (v.lowByte.toNat : Int) = v.toInt % 256 := by
  have hbits := toNat_toUInt32 v
  rw [lowByte, UInt32.toNat_toUInt8]
  omega

theorem toNat_highByte (v : Value) : (v.highByte.toNat : Int) = v.toInt / 256 % 256 := by
  have hbits := toNat_toUInt32 v
  have hshift : (8 : UInt32).toNat % 32 = 8 := rfl
  rw [highByte, UInt32.toNat_toUInt8, UInt32.toNat_shiftRight, hshift,
    Nat.shiftRight_eq_div_pow]
  omega

/-- The value fits a signed byte. -/
theorem isInt8_iff (v : Value) : -128 ≤ v ∧ v ≤ 127 ↔ -128 ≤ v.toInt ∧ v.toInt ≤ 127 := by
  have hlow : (-128 : Value).toInt = -128 := rfl
  have hhigh : (127 : Value).toInt = 127 := rfl
  rw [Int32.le_iff_toInt_le, Int32.le_iff_toInt_le, hlow, hhigh]

/-- Such a value is its low byte with the sign extended. -/
theorem toInt_lowByte {v : Value} (h : -128 ≤ v ∧ v ≤ 127) :
    v.lowByte.toInt8.toInt = v.toInt := by
  have hsigned : v.lowByte.toInt8.toInt = (v.lowByte.toNat : Int).bmod (2 ^ 8) :=
    v.lowByte.toInt8.toBitVec.toInt_eq_toNat_bmod
  rw [isInt8_iff] at h
  rw [hsigned, toNat_lowByte]
  simp only [Int.bmod]
  split <;> omega

end Value

theorem Address.toInt_toValue (a : Address) : a.toValue.toInt = a.toNat :=
  Int32.toInt_ofNat_of_lt (by have := a.toNat_lt; omega)

theorem toInt_branchDistance_eq_bmod (pc : Address) (target : Value) :
    (branchDistance pc target).toInt = (target.toInt - (pc.toNat + 2)).bmod 4294967296 := by
  rw [branchDistance, Int32.toInt_sub, Int32.toInt_add, pc.toInt_toValue]
  simp

/-- The distance of a branch that reaches is exact: nothing wraps. -/
theorem toInt_branchDistance {pc : Address} {target : Value}
    (h : -128 ≤ branchDistance pc target ∧ branchDistance pc target ≤ 127) :
    (branchDistance pc target).toInt + pc.toNat + 2 = target.toInt := by
  have hdistance := toInt_branchDistance_eq_bmod pc target
  have hpc := pc.toNat_lt
  have hlow := target.le_toInt
  have hhigh := target.toInt_lt
  rw [Value.isInt8_iff, hdistance] at h
  rw [hdistance]
  simp only [Int.bmod] at h ⊢
  split at h <;> split <;> omega

/-- The distance between addresses is exact as well, whether or not the branch reaches. -/
theorem toInt_branchDistance_toValue (pc target : Address) :
    (branchDistance pc target.toValue).toInt = target.toNat - (pc.toNat + 2) := by
  have hpc := pc.toNat_lt
  have htarget := target.toNat_lt
  rw [toInt_branchDistance_eq_bmod, target.toInt_toValue]
  simp only [Int.bmod]
  split <;> omega

/-! ## Operand bytes -/

namespace Mode

theorem length_operandBytes {m : Mode} {pc : Address} {value : Option Value}
    {bytes : List UInt8} (h : m.operandBytes pc value = .ok bytes) :
    bytes.length = m.operandLength := by
  cases m with
  | relative =>
    cases value with
    | none =>
      cases h
      rfl
    | some target =>
      dsimp only [operandBytes] at h
      split at h
      · cases h
        rfl
      · cases h
  | _ =>
    cases h
    rfl

/-- Branches apart, an operand is encoded wherever it stands, and alike. -/
theorem exists_operandBytes {m : Mode} (h : m ≠ .relative) (value : Option Value) :
    ∃ bytes, ∀ pc, m.operandBytes pc value = .ok bytes := by
  cases m with
  | relative => exact absurd rfl h
  | _ => exact ⟨_, fun pc => rfl⟩

end Mode

/-! ## Encodings of a mnemonic -/

namespace Mnemonic

variable {m : Mnemonic} {wide e : Encoding}

/-- The instruction is a branch. -/
def isBranch (m : Mnemonic) : Bool := m.supports .relative

theorem mem_encodings_of_select? {modes : List Mode} (h : m.select? modes = some wide) :
    wide ∈ m.encodings := by
  obtain ⟨mode, -, hmode⟩ := List.exists_of_findSome?_eq_some h
  exact mem_encodings_of_encoding? hmode

theorem narrow_mem_encodings (h : wide ∈ m.encodings) (value : Option Value) (held : Bool) :
    m.narrow wide value held ∈ m.encodings := by
  unfold narrow
  split
  · next short v hshort =>
    split
    · obtain ⟨mode, -, hmode⟩ := Option.bind_eq_some_iff.mp hshort
      exact mem_encodings_of_encoding? hmode
    · exact h
  · exact h

/-- A branch has one mode. -/
theorem exists_encodings_of_isBranch (h : m.isBranch) :
    ∃ opcode, m.encodings = [⟨.relative, opcode⟩] := by
  cases m <;> first | exact ⟨_, rfl⟩ | cases h

theorem mode_ne_relative (branch : m.isBranch = false) (h : e ∈ m.encodings) :
    e.mode ≠ .relative := by
  intro hmode
  unfold isBranch supports encoding? at branch
  rw [Option.isSome_eq_false_iff, Option.isNone_iff_eq_none, List.find?_eq_none] at branch
  exact branch e h (by rw [hmode]; rfl)

/-- The second pass narrows where the first one did: a value that the first pass has, the
second has too, and a line that lacks one is held. -/
theorem narrow_stable {first second : Option Value}
    (h : ∀ v, first = some v → second = some v) :
    m.narrow wide second (m.staysWide wide first .first) = m.narrow wide first false := by
  cases first with
  | some v =>
    rw [h v rfl]
    unfold staysWide
    rw [Option.isNone_some, Bool.and_false, Bool.false_and]
  | none =>
    unfold narrow staysWide
    cases m.zeroPageForm? wide.mode with
    | none => rfl
    | some short =>
      cases second with
      | none => rfl
      | some v => simp

end Mnemonic

/-! ## Instructions of a line -/

namespace Line

/-- An instruction takes a mode that its mnemonic has. -/
theorem mem_encodings_of_reading {line : Line} {m : Mnemonic} {wide : Encoding}
    {argument : Option Argument} (h : line.reading = .ok (.instruction m wide argument)) :
    wide ∈ m.encodings := by
  obtain ⟨mnemonic, operand, -, -, hselect⟩ := body_of_instruction h
  exact Mnemonic.mem_encodings_of_select? hselect

end Line

namespace State

variable {s t : State} {n : Nat} {site : Site} {source : Text} {rest : List Text} {line : Line}

/-- The value of an instruction's operand, with the label of the line bound. -/
def instructionValue (s : State) (line : Line) (argument : Option Argument) : Option Value :=
  argument.bind (Argument.value? · (line.mark s.pc s.symbols))

theorem instructionValue_of_le
    (h : line.mark s.pc s.symbols ≤ line.mark t.pc t.symbols) {argument : Option Argument}
    {v : Value} (hv : s.instructionValue line argument = some v) :
    t.instructionValue line argument = some v := by
  cases argument with
  | none => cases hv
  | some a => exact Argument.value?_of_le h hv

/-- An instruction fails only where its operand bytes are lacking. -/
theorem attempt_instruction {m : Mnemonic} {wide encoding : Encoding}
    {argument : Option Argument} (hread : line.reading = .ok (.instruction m wide argument))
    (hencoding :
      m.narrow wide (s.instructionValue line argument) (s.isWide site.line) = encoding) :
    s.attempt site line =
      (fun bytes => .emit (encoding.opcode :: bytes)
        (m.staysWide wide (s.instructionValue line argument) site.pass)) <$>
        encoding.mode.operandBytes s.pc (s.instructionValue line argument) := by
  subst hencoding
  rw [attempt_of_reading hread]
  simp only [Reading.effect, symbols_labelled, isWide_labelled, pc_labelled, instructionValue]

theorem action_instruction {m : Mnemonic} {wide encoding : Encoding}
    {argument : Option Argument} {bytes : List UInt8}
    (hread : line.reading = .ok (.instruction m wide argument))
    (hencoding :
      m.narrow wide (s.instructionValue line argument) (s.isWide site.line) = encoding)
    (hbytes :
      encoding.mode.operandBytes s.pc (s.instructionValue line argument) = .ok bytes) :
    s.action site line = .emit (encoding.opcode :: bytes)
      (m.staysWide wide (s.instructionValue line argument) site.pass) := by
  rw [action, attempt_instruction hread hencoding, hbytes]
  rfl

/-- Both passes narrow an instruction alike where the second knows what the first knew. -/
theorem Recalls.narrow_eq (h : Recalls s t n (source :: rest)) {m : Mnemonic} {wide : Encoding}
    {argument : Option Argument}
    (hread : (Line.parse source).reading = .ok (.instruction m wide argument))
    (hle : (Line.parse source).mark s.pc s.symbols ≤ (Line.parse source).mark t.pc t.symbols) :
    m.narrow wide (t.instructionValue (Line.parse source) argument) (t.isWide n) =
      m.narrow wide (s.instructionValue (Line.parse source) argument) (s.isWide n) := by
  have hheld : t.isWide n =
      m.staysWide wide (s.instructionValue (Line.parse source) argument) .first := by
    rw [h.held, holds_action, hread]
    rfl
  rw [hheld, h.fresh n (Nat.le_refl n)]
  apply Mnemonic.narrow_stable
  intro v hv
  exact instructionValue_of_le hle hv

end State

end Asm65
