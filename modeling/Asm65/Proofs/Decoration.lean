-- SUMMARY: The grammar of operands: what is a core with the punctuation of a shape, and what fails in which way.
import Asm65.Proofs.Terms

/-!
# Decorated cores

An operand is a core with the punctuation of a shape around it. The letters `X` and `Y` may stand
at the end of a core as well as in the punctuation behind it, so a text can be divided in more
than one way, and the reader gives the core every character that it can take. This finds each
core that is decorated, because the punctuation of a shape begins with a character that no core
holds. So there is one way to read an operand, and a text that has none fails in one of two ways:
it is divided, but its punctuation means no shape, or it cannot be divided at all.
-/
namespace Asm65

/-! ## The characters of cores -/

namespace OperandParts

theorem isCore_of_isNameChar {c : Char} (h : Expr.isNameChar c) : isCore c := by
  unfold Expr.isNameChar at h
  unfold isCore
  rw [Bool.or_eq_true] at h ⊢
  rcases h with h | h
  · exact .inl h
  · rw [beq_iff_eq] at h
    rw [h]
    exact .inr rfl

/-- A character of a core belongs to a name, starts a number or is of an operator. -/
theorem isCore_cases {c : Char} (h : isCore c) :
    Expr.isNameChar c ∨ c = '$' ∨ c = '%' ∨ Operator.isChar c := by
  unfold isCore at h
  rw [Bool.or_eq_true] at h
  rcases h with h | h
  · left
    rw [Expr.isNameChar, h, Bool.true_or]
  · have hmem : c = '_' ∨ c = '$' ∨ c = '%' ∨ c = '+' ∨ c = '-' ∨ c = '*' ∨ c = '/' ∨ c = '<' ∨
        c = '>' := by simpa using h
    rcases hmem with rfl | rfl | rfl | rfl | rfl | rfl | rfl | rfl | rfl
    · exact .inl rfl
    · exact .inr (.inl rfl)
    · exact .inr (.inr (.inl rfl))
    all_goals exact .inr (.inr (.inr rfl))

theorem isBlank_of_isCore {c : Char} (h : isCore c) : isBlank c = false := by
  rcases isCore_cases h with h | rfl | rfl | h
  · exact isBlank_of_isNameChar h
  · rfl
  · rfl
  · exact Operator.isBlank_of_isChar h

theorem isOpening_of_isCore {c : Char} (h : isCore c) : isOpening c = false := by
  unfold isOpening
  rw [Bool.or_eq_false_iff, beq_eq_false_iff_ne, beq_eq_false_iff_ne]
  constructor
  · rintro rfl
    cases h
  · rintro rfl
    cases h

end OperandParts

/-! ## The punctuation of shapes -/

namespace Shape

/-- What stands before the core. -/
def opening : Shape → Text
  | immediate => ['#']
  | accumulator | direct | directX | directY => []
  | indirect | indexedIndirectX | indirectIndexedX | indirectIndexedY | indexedIndirectY => ['(']

/-- What stands behind the core, in upper case. -/
def closing : Shape → Text
  | accumulator | immediate | direct => []
  | directX => [',', 'X']
  | directY => [',', 'Y']
  | indirect => [')']
  | indexedIndirectX => [',', 'X', ')']
  | indirectIndexedX => [')', ',', 'X']
  | indirectIndexedY => [')', ',', 'Y']
  | indexedIndirectY => [',', 'Y', ')']

theorem isOpening_opening (shape : Shape) : ∀ c ∈ shape.opening, OperandParts.isOpening c := by
  cases shape <;> simp [opening, OperandParts.isOpening]

theorem isClosing_closing (shape : Shape) : ∀ c ∈ shape.closing, OperandParts.isClosing c := by
  cases shape <;> simp [closing, OperandParts.isClosing]

/-- A text that closes a shape ends the core before it. -/
theorem head?_closing (shape : Shape) :
    ∀ c ∈ shape.closing.head?, c = ',' ∨ c = ')' := by
  cases shape <;> simp [closing]

end Shape

/-- The text is an operand, and this is what it denotes: a core with the punctuation of a shape
around it, index letters in either case. -/
structure Operand.Denotes (t : Text) (operand : Operand) : Prop where
  core_ne_nil : operand.core ≠ []
  isCore_core : ∀ c ∈ operand.core, OperandParts.isCore c
  /-- The register is the bare `A` and no other core. -/
  accumulator : operand.shape = .accumulator → operand.core = ['A']
  direct : operand.shape = .direct → operand.core ≠ ['A']
  decorated : ∃ closing, Text.upper closing = operand.shape.closing ∧
    t = operand.shape.opening ++ operand.core ++ closing

namespace OperandParts

/-! ## Letters of either case -/

/-- A character is the upper-case one or the lower-case form of that. -/
theorem eq_of_toUpper (c : Char) : c = c.toUpper ∨ c = c.toUpper.toLower := by
  by_cases hlower : 'a'.val ≤ c.val ∧ c.val ≤ 'z'.val
  · have hval : c.toUpper.val = c.val + ('A'.val - 'a'.val) := by
      unfold Char.toUpper
      rw [dif_pos hlower]
    have hupper : 'A'.val ≤ c.toUpper.val ∧ c.toUpper.val ≤ 'Z'.val := by grind
    right
    apply Char.ext
    have hback : c.toUpper.toLower.val = c.toUpper.val + ('a'.val - 'A'.val) := by
      unfold Char.toLower
      rw [dif_pos hupper]
    rw [hback, hval, UInt32.add_assoc]
    exact (UInt32.add_zero c.val).symm
  · left
    unfold Char.toUpper
    rw [dif_neg hlower]

theorem isClosing_of_toUpper {c : Char} (h : isClosing c.toUpper) : isClosing c := by
  have hupper : c.toUpper = ')' ∨ c.toUpper = ',' ∨ c.toUpper = 'X' ∨ c.toUpper = 'Y' ∨
      c.toUpper = 'x' ∨ c.toUpper = 'y' := by
    simpa [isClosing] using h
  rcases eq_of_toUpper c with hc | hc
  · rwa [← hc] at h
  · rw [hc]
    rcases hupper with h | h | h | h | h | h <;> rw [h] <;> rfl

/-- What closes a shape in upper case closes it as it is written. -/
theorem isCore_eq_false_of_toUpper {c : Char} (h : c.toUpper = ',' ∨ c.toUpper = ')') :
    isCore c = false := by
  rcases eq_of_toUpper c with hc | hc <;> rcases h with h | h <;> rw [hc, h] <;> rfl

/-! ## Divisions of a text -/

/-- The text divided into opening punctuation, a core and closing punctuation. -/
structure Divides (parts : OperandParts) (t : Text) : Prop where
  text : t = parts.opening ++ parts.core ++ parts.closing
  isOpening_opening : ∀ c ∈ parts.opening, isOpening c
  core_ne_nil : parts.core ≠ []
  isCore_core : ∀ c ∈ parts.core, isCore c
  isClosing_closing : ∀ c ∈ parts.closing, isClosing c

/-- Another division of the text: the core takes every character that it can. -/
def munched (parts : OperandParts) : OperandParts where
  opening := parts.opening
  core := parts.core ++ parts.closing.takeWhile isCore
  closing := parts.closing.dropWhile isCore

variable {parts : OperandParts} {t : Text}

theorem munched_eq_self (h : parts.closing.head?.map isCore ≠ some true) :
    parts.munched = parts := by
  have htake := Text.takeWhile_append (List.forall_mem_nil _) h
  have hdrop := Text.dropWhile_append (List.forall_mem_nil _) h
  rw [List.nil_append] at htake hdrop
  rw [munched, htake, hdrop, List.append_nil]

/-- However a text is divided, the reader finds the division with the longest core. -/
theorem Divides.ofText_eq (h : parts.Divides t.trim) : ofText t = .ok parts.munched := by
  obtain ⟨htext, hopening, hne, hcore, hclosing⟩ := h
  obtain ⟨c, others, hcons⟩ := List.exists_cons_of_ne_nil hne
  have hopens : (parts.core ++ parts.closing).head?.map isOpening ≠ some true := by
    rw [hcons]
    exact Text.head?_cons_ne (isOpening_of_isCore (hcore c (hcons ▸ List.mem_cons_self ..))) _
  have hcloses : (parts.closing.dropWhile isCore).all isClosing :=
    List.all_eq_true.mpr fun c hc => hclosing c ((List.dropWhile_suffix _).subset hc)
  have hne' : parts.core ++ parts.closing.takeWhile isCore ≠ [] := by simp [hne]
  unfold ofText
  simp only [htext, List.append_assoc, Text.takeWhile_append hopening hopens,
    Text.dropWhile_append hopening hopens, List.takeWhile_append_of_pos hcore,
    List.dropWhile_append_of_pos hcore]
  rw [if_pos ⟨hne', hcloses⟩]
  rfl

/-- A core is an operand without punctuation. -/
theorem ofText_core {core : Text} (hne : core ≠ []) (hcore : ∀ c ∈ core, isCore c) :
    ofText core = .ok ⟨[], core, []⟩ := by
  have htrim : core.trim = core :=
    Text.trim_of_not_blank fun c hc => isBlank_of_isCore (hcore c hc)
  have hdivides : Divides ⟨[], core, []⟩ core.trim :=
    ⟨by simp [htrim], List.forall_mem_nil _, hne, hcore, List.forall_mem_nil _⟩
  rw [hdivides.ofText_eq, munched_eq_self (by simp)]

theorem divides_of_ofText (h : ofText t = .ok parts) : parts.Divides t.trim := by
  unfold ofText at h
  dsimp only at h
  split at h
  · next hread =>
    cases h
    refine ⟨?_, fun _ => List.mem_takeWhile_imp, hread.1, fun _ => List.mem_takeWhile_imp,
      List.all_eq_true.mp hread.2⟩
    rw [List.append_assoc, List.takeWhile_append_dropWhile, List.takeWhile_append_dropWhile]
  · cases h

theorem ofText_of_not_divides (h : ¬ ∃ parts : OperandParts, parts.Divides t.trim) :
    ofText t = .error (.parse ("bad operand `" ++ String.ofList t.trim ++ "`")) := by
  cases hread : ofText t with
  | ok parts => exact absurd ⟨parts, divides_of_ofText hread⟩ h
  | error e =>
    unfold ofText at hread
    dsimp only at hread
    split at hread
    · cases hread
    · exact hread.symm

/-- The shapes are told apart by their punctuation, and the register by its core. -/
theorem shape?_eq_some_iff {shape : Shape} :
    parts.shape? = some shape ↔
      (shape = .accumulator → parts.core = ['A']) ∧ (shape = .direct → parts.core ≠ ['A']) ∧
        parts.opening = shape.opening ∧ parts.closing.upper = shape.closing := by
  constructor
  · intro h
    unfold shape? at h
    split at h
    · next hopening hclosing =>
      cases h
      exact ⟨nofun, nofun, hopening, hclosing⟩
    · next hopening hclosing =>
      cases h
      split
      · next hcore => exact ⟨fun _ => hcore, nofun, hopening, hclosing⟩
      · next hcore => exact ⟨nofun, fun _ => hcore, hopening, hclosing⟩
    all_goals
      cases h
    all_goals
      next hopening hclosing => exact ⟨nofun, nofun, hopening, hclosing⟩
  · rintro ⟨haccumulator, hdirect, hopening, hclosing⟩
    rw [shape?, hopening, hclosing]
    cases shape with
    | accumulator => exact congrArg some (if_pos (haccumulator rfl))
    | direct => exact congrArg some (if_neg (hdirect rfl))
    | _ => rfl

end OperandParts

namespace Operand

variable {t : Text} {operand : Operand}

/-- The division of an operand that shows its shape is the one that is found. -/
theorem Denotes.exists_parts (h : Denotes t operand) :
    ∃ parts : OperandParts, parts.Divides t ∧ parts.munched = parts ∧
      parts.core = operand.core ∧ parts.shape? = some operand.shape := by
  obtain ⟨hne, hcore, haccumulator, hdirect, closing, hupper, ht⟩ := h
  have hclosing : ∀ c ∈ closing, OperandParts.isClosing c := by
    intro c hc
    apply OperandParts.isClosing_of_toUpper
    apply operand.shape.isClosing_closing
    rw [← hupper]
    exact List.mem_map_of_mem hc
  have hends : closing.head?.map OperandParts.isCore ≠ some true := by
    cases closing with
    | nil => simp
    | cons c closing =>
      have hhead := operand.shape.head?_closing c.toUpper (by rw [← hupper]; rfl)
      exact Text.head?_cons_ne (OperandParts.isCore_eq_false_of_toUpper hhead) closing
  let parts : OperandParts := ⟨operand.shape.opening, operand.core, closing⟩
  exact ⟨parts, ⟨ht, operand.shape.isOpening_opening, hne, hcore, hclosing⟩,
    OperandParts.munched_eq_self hends, rfl,
    OperandParts.shape?_eq_some_iff.mpr ⟨haccumulator, hdirect, rfl, hupper⟩⟩

theorem parse_of_parts {parts : OperandParts} (h : OperandParts.ofText t = .ok parts) :
    parse t =
      match parts.shape? with
      | some shape => .ok ⟨parts.core, shape⟩
      | none => .error (.unknownOperand t.trim) := by
  rw [parse, h]
  rfl

theorem parse_of_error {e : Fault} (h : OperandParts.ofText t = .error e) :
    parse t = .error e := by
  rw [parse, h]
  rfl

theorem parse_ok_iff_denotes : parse t = .ok operand ↔ Denotes t.trim operand := by
  constructor
  · intro h
    cases hparts : OperandParts.ofText t with
    | error e =>
      rw [parse_of_error hparts] at h
      cases h
    | ok parts =>
      obtain ⟨ht, -, hne, hcore, -⟩ := OperandParts.divides_of_ofText hparts
      rw [parse_of_parts hparts] at h
      split at h
      · next shape hshape =>
        cases h
        obtain ⟨haccumulator, hdirect, hopening, hclosing⟩ :=
          OperandParts.shape?_eq_some_iff.mp hshape
        exact ⟨hne, hcore, haccumulator, hdirect, parts.closing, hclosing, hopening ▸ ht⟩
      · cases h
  · intro h
    obtain ⟨parts, hdivides, hmunched, hcore, hshape⟩ := h.exists_parts
    have hparts := hdivides.ofText_eq
    rw [hmunched] at hparts
    rw [parse_of_parts hparts, hshape, hcore]

/-- A text that can be divided fails for its punctuation only. -/
theorem parse_eq_unknown (divides : ∃ parts : OperandParts, parts.Divides t.trim)
    (not_denotes : ¬ ∃ operand, Denotes t.trim operand) :
    parse t = .error (.unknownOperand t.trim) := by
  obtain ⟨parts, hdivides⟩ := divides
  have hparse := parse_of_parts hdivides.ofText_eq
  cases hshape : parts.munched.shape? with
  | none => rwa [hshape] at hparse
  | some shape =>
    rw [hshape] at hparse
    exact absurd ⟨_, parse_ok_iff_denotes.mp hparse⟩ not_denotes

theorem parse_eq_bad (h : ¬ ∃ parts : OperandParts, parts.Divides t.trim) :
    parse t = .error (.parse ("bad operand `" ++ String.ofList t.trim ++ "`")) :=
  parse_of_error (OperandParts.ofText_of_not_divides h)

/-- An operand is read exactly if the text denotes it. A text that denotes none is an unknown
operand if it can be divided into punctuation and a core, and a bad one if it cannot. Nor does a
text denote two operands. -/
theorem parse_exact (t : Text) :
    (∀ operand, parse t = .ok operand ↔ Denotes t.trim operand) ∧
      (parse t = .error (.unknownOperand t.trim) ↔
        (∃ parts : OperandParts, parts.Divides t.trim) ∧ ¬ ∃ operand, Denotes t.trim operand) ∧
      (parse t = .error (.parse ("bad operand `" ++ String.ofList t.trim ++ "`")) ↔
        (¬ ∃ parts : OperandParts, parts.Divides t.trim) ∧
          ¬ ∃ operand, Denotes t.trim operand) ∧
      ∀ operand other, Denotes t.trim operand → Denotes t.trim other → operand = other := by
  have hdenotes {e : Fault} (h : parse t = .error e) : ¬ ∃ operand, Denotes t.trim operand := by
    rintro ⟨operand, hoperand⟩
    rw [parse_ok_iff_denotes.mpr hoperand] at h
    cases h
  refine ⟨fun operand => parse_ok_iff_denotes, ⟨fun h => ⟨?_, hdenotes h⟩, ?_⟩,
    ⟨fun h => ⟨?_, hdenotes h⟩, ?_⟩, ?_⟩
  · by_contra hdivides
    rw [parse_eq_bad hdivides] at h
    cases h
  · rintro ⟨hdivides, hnot⟩
    exact parse_eq_unknown hdivides hnot
  · intro hdivides
    rw [parse_eq_unknown hdivides (hdenotes h)] at h
    cases h
  · rintro ⟨hdivides, -⟩
    exact parse_eq_bad hdivides
  · intro operand other hoperand hother
    have hsame := (parse_ok_iff_denotes.mpr hoperand).symm.trans (parse_ok_iff_denotes.mpr hother)
    exact Except.ok.inj hsame

/-- The letter at the end of the core is no index, and the one behind the parenthesis belongs to the
shape. -/
theorem indexed_parse_exact :
    let t : Text := " (TABLEX),y ".toList
    let operand : Operand := ⟨"TABLEX".toList, .indirectIndexedY⟩
    let other : Operand := ⟨"TABLEX".toList, .indexedIndirectY⟩
    Denotes t.trim operand ∧ parse t = .ok operand ∧ ¬ Denotes t.trim other := by
  intro t operand other
  have denotes : Denotes t.trim operand := by
    refine ⟨by decide, List.all_eq_true.mp rfl, nofun, nofun, "),y".toList, ?_, ?_⟩
    · decide
    · decide
  obtain ⟨hread, -, -, hunique⟩ := parse_exact t
  refine ⟨denotes, (hread operand).mpr denotes, ?_⟩
  intro hother
  have hshape : Shape.indirectIndexedY = Shape.indexedIndirectY :=
    congrArg Operand.shape (hunique operand other denotes hother)
  cases hshape

end Operand

end Asm65
