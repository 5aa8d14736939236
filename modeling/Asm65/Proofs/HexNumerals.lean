-- SUMMARY: Numerals by the values of their digits; hexadecimal of any width, and reading it back.
import Asm65.Proofs.NumberLiterals
import Asm65.Proofs.Terms
import Mathlib.Data.List.Forall2
import Mathlib.Data.Nat.Digits.Defs

/-!
# Hexadecimal numerals

A numeral is told by its digits: each has a value below the base, and the last one counts for
itself, the one before it for the base, and so on. These are the texts that are read as numbers.

Writing goes by division and fills a fixed number of columns. The columns that a number does not
need hold zeros, and what has no column is lost, so the text spells what is left of the number.
Behind its sigil it is a literal again.
-/
namespace Asm65

namespace Numeral

/-! ## Digits by their values -/

/-- The character is the digit of the base with that value; from ten on, a letter of either
case. -/
def IsDigit (base : Nat) (c : Char) (d : Nat) : Prop :=
  d < base ∧ (c = d.digitChar ∨ c = d.digitChar.toUpper)

/-- The text is one digit or more of the base, and the number is their positional value, from the
last digit on. -/
def IsNumeral (base : Nat) (t : Text) (n : Nat) : Prop :=
  t ≠ [] ∧ ∃ digits, List.Forall₂ (IsDigit base) t.reverse digits ∧ n = Nat.ofDigits base digits

variable {base : Nat} {c : Char} {d n : Nat} {t : Text}

theorem toNat_lt_of_hexDigit? (h : hexDigit? c = some d) : c.toNat < 128 := by
  rcases Bool.or_eq_true_iff.mp (isAlphanum_of_hexDigit? h) with halpha | hdigit
  · have := toNat_of_isAlpha halpha
    omega
  · have := toNat_of_isDigit hdigit
    omega

theorem eq_digitChar_of_hexDigit? (h : hexDigit? c = some d) :
    c = d.digitChar ∨ c = d.digitChar.toUpper := by
  -- The digits are ASCII characters, and so few that each can be looked at.
  have hall : ∀ code ∈ List.range 128, ∀ d ∈ hexDigit? (Char.ofNat code),
      Char.ofNat code = d.digitChar ∨ Char.ofNat code = d.digitChar.toUpper := by decide +kernel
  have hc := hall c.toNat (List.mem_range.mpr (toNat_lt_of_hexDigit? h))
  rw [Char.ofNat_toNat] at hc
  exact hc d h

theorem hexDigit?_lower (h : d < 16) : hexDigit? d.digitChar = some d := by
  have hall : ∀ d ∈ List.range 16, hexDigit? d.digitChar = some d := by decide
  exact hall d (List.mem_range.mpr h)

/-- The reader takes a character for the digit that it is. -/
theorem digit?_eq_some_iff (hbase : base ≤ 16) : digit? base c = some d ↔ IsDigit base c d := by
  unfold digit?
  simp only [Option.filter_eq_some_iff, decide_eq_true_eq]
  constructor
  · rintro ⟨hhex, hd⟩
    exact ⟨hd, eq_digitChar_of_hexDigit? hhex⟩
  · rintro ⟨hd, rfl | rfl⟩
    · exact ⟨hexDigit?_lower (Nat.lt_of_lt_of_le hd hbase), hd⟩
    · exact ⟨hexDigit?_digitChar (Nat.lt_of_lt_of_le hd hbase), hd⟩

theorem Spells.isNumeral (hbase : base ≤ 16) (h : Spells base t n) : IsNumeral base t n := by
  refine ⟨h.ne_nil, ?_⟩
  induction h with
  | @digit c d hc =>
    refine ⟨[d], .cons ((digit?_eq_some_iff hbase).mp hc) .nil, ?_⟩
    simp
  | @more t n c d _ hc ih =>
    obtain ⟨digits, hdigits, rfl⟩ := ih
    refine ⟨d :: digits, ?_, ?_⟩
    · rw [List.reverse_append]
      exact .cons ((digit?_eq_some_iff hbase).mp hc) hdigits
    · rw [Nat.ofDigits_cons, Nat.mul_comm, Nat.add_comm]

theorem IsNumeral.spells (hbase : base ≤ 16) (h : IsNumeral base t n) : Spells base t n := by
  obtain ⟨hne, digits, hdigits, rfl⟩ := h
  -- The last character is a digit, and what stands before it is nothing or a numeral again.
  induction t using List.reverseRecOn generalizing digits with
  | nil => cases hne rfl
  | append_singleton t c ih =>
    rw [List.reverse_append] at hdigits
    cases hdigits with
    | @cons _ d _ digits hc hrest =>
      have hdigit := (digit?_eq_some_iff hbase).mpr hc
      by_cases ht : t = []
      · subst ht
        cases hrest
        exact .digit (by simpa using hdigit)
      · have hmore := Spells.more (ih ht digits hrest) hdigit
        rwa [Nat.mul_comm, Nat.add_comm, ← Nat.ofDigits_cons] at hmore

/-- Digit by digit or by the places of the digits, a numeral spells the same number. -/
theorem spells_iff_isNumeral (hbase : base ≤ 16) : Spells base t n ↔ IsNumeral base t n :=
  ⟨Spells.isNumeral hbase, IsNumeral.spells hbase⟩

/-! ## Columns -/

theorem digit?_digitChar (hbase : base ≤ 16) (h : d < base) :
    digit? base (digitChar d) = some d :=
  (digit?_eq_some_iff hbase).mpr ⟨h, .inr rfl⟩

/-- With one more column on the right, the columns in front hold the quotient. -/
theorem mod_pow_succ_eq (base n width : Nat) :
    n % base ^ (width + 1) = base * (n / base % base ^ width) + n % base := by
  rw [Nat.pow_succ', Nat.mod_mul, Nat.add_comm]

/-- The columns spell the number without what has no column. -/
theorem spells_fixed (hpos : 0 < base) (hbase : base ≤ 16) (width n : Nat) :
    Spells base (fixed base (width + 1) n) (n % base ^ (width + 1)) := by
  have hdigit (n : Nat) : digit? base (digitChar (n % base)) = some (n % base) :=
    digit?_digitChar hbase (Nat.mod_lt n hpos)
  induction width generalizing n with
  | zero =>
    rw [Nat.zero_add, Nat.pow_one]
    exact .digit (hdigit n)
  | succ width ih =>
    rw [mod_pow_succ_eq, Nat.mul_comm]
    exact .more (ih (n / base)) (hdigit n)

/-- The shortest numeral, in capitals. -/
def shortest (base n : Nat) : Text := (Nat.toDigits base n).map Char.toUpper

theorem shortest_of_lt (h : n < base) : shortest base n = [digitChar n] := by
  rw [shortest, Nat.toDigits_of_lt_base h, List.map_singleton, digitChar]

theorem shortest_append {quotient : Nat} (hbase : 1 < base) (hquotient : 0 < quotient)
    (hd : d < base) :
    shortest base (base * quotient + d) = shortest base quotient ++ [digitChar d] := by
  rw [← shortest_of_lt hd, shortest, shortest, shortest, ← List.map_append,
    Nat.toDigits_append_toDigits hbase hquotient hd]

/-- The columns hold the shortest numeral for what is left of the number, behind zeros. -/
theorem fixed_eq_leftpad (hbase : 1 < base) (width n : Nat) :
    fixed base (width + 1) n =
      (shortest base (n % base ^ (width + 1))).leftpad (width + 1) '0' := by
  induction width generalizing n with
  | zero =>
    have hlow : n % base < base := Nat.mod_lt n (Nat.zero_lt_of_lt hbase)
    simp [fixed, shortest_of_lt hlow, List.leftpad]
  | succ width ih =>
    have hlow : n % base < base := Nat.mod_lt n (Nat.zero_lt_of_lt hbase)
    have hvalue := mod_pow_succ_eq base n (width + 1)
    rw [fixed, ih, hvalue]
    generalize n / base % base ^ (width + 1) = quotient
    cases Nat.eq_zero_or_pos quotient with
    | inl hzero =>
      -- A quotient of zero still has a digit, which is the last of the zeros in front.
      have hnothing : shortest base 0 = ['0'] := shortest_of_lt (Nat.zero_lt_of_lt hbase)
      subst hzero
      rw [hnothing, Nat.mul_zero, Nat.zero_add, shortest_of_lt hlow]
      simp [List.leftpad, ← List.replicate_succ']
    | inr hpos =>
      rw [shortest_append hbase hpos hlow]
      simp [List.leftpad]

theorem hex_succ (n width : Nat) : hex n (some (width + 1)) = fixed 16 (width + 1) n := rfl

theorem length_hex (n width : Nat) :
    (hex n (some (width + 1))).length =
      max (width + 1) (Nat.toDigits 16 (n % 16 ^ (width + 1))).length := by
  rw [hex_succ, fixed_eq_leftpad (by decide), List.length_leftpad, shortest, List.length_map]

end Numeral

/-! ## Literals -/

namespace Number

variable {t : Text} {n : Nat} {v : Value}

/-- A literal is a sigil and a numeral of its base, or a decimal numeral. -/
theorem isLiteral_iff_isNumeral :
    IsLiteral t n ↔
      (∃ digits, t = '$' :: digits ∧ Numeral.IsNumeral 16 digits n) ∨
        (∃ digits, t = '%' :: digits ∧ Numeral.IsNumeral 2 digits n) ∨
          Numeral.IsNumeral 10 t n := by
  have hexadecimal (t : Text) : Numeral.Spells 16 t n ↔ Numeral.IsNumeral 16 t n :=
    Numeral.spells_iff_isNumeral (by decide)
  have binary (t : Text) : Numeral.Spells 2 t n ↔ Numeral.IsNumeral 2 t n :=
    Numeral.spells_iff_isNumeral (by decide)
  have decimal (t : Text) : Numeral.Spells 10 t n ↔ Numeral.IsNumeral 10 t n :=
    Numeral.spells_iff_isNumeral (by decide)
  simp only [← hexadecimal, ← binary, ← decimal]
  constructor
  · intro h
    cases h with
    | hexadecimal h => exact .inl ⟨_, rfl, h⟩
    | binary h => exact .inr (.inl ⟨_, rfl, h⟩)
    | decimal h => exact .inr (.inr h)
  · rintro (⟨digits, rfl, h⟩ | ⟨digits, rfl, h⟩ | h)
    · exact .hexadecimal h
    · exact .binary h
    · exact .decimal h

theorem IsLiteral.trim_eq (h : IsLiteral t n) : t.trim = t := by
  apply Text.trim_of_not_blank
  intro c hc
  rcases h.chars c hc with rfl | rfl | halphanum
  · rfl
  · rfl
  · exact isBlank_of_isNameChar (Bool.or_eq_true_iff.mpr (.inl halphanum))

/-- The value that is read is the number that the literal spells; it does not wrap. -/
theorem parse_ok_iff_toInt :
    parse t = .ok v ↔ ∃ n : Nat, n < bound ∧ v.toInt = n ∧ IsLiteral t.trim n := by
  rw [parse_ok_iff]
  constructor
  · rintro ⟨n, hliteral, hn, rfl⟩
    exact ⟨n, hn, Int32.toInt_ofNat_of_lt hn, hliteral⟩
  · rintro ⟨n, hn, hv, hliteral⟩
    refine ⟨n, hliteral, hn, ?_⟩
    apply Int32.toInt_inj.mp
    exact hv.trans (Int32.toInt_ofNat_of_lt hn).symm

/-- Behind the sigil, what was written with a width is read as what the width left of it. -/
theorem exists_parse_hex {width : Nat} (h : n % 16 ^ (width + 1) < bound) :
    ∃ v, parse ('$' :: Numeral.hex n (some (width + 1))) = .ok v ∧
      v.toInt = (n % 16 ^ (width + 1) : Nat) := by
  have hliteral : IsLiteral ('$' :: Numeral.hex n (some (width + 1))) (n % 16 ^ (width + 1)) :=
    .hexadecimal (Numeral.spells_fixed (by decide) (by decide) width n)
  have hvalue := Int32.toInt_ofNat_of_lt h
  refine ⟨Int32.ofNat (n % 16 ^ (width + 1)), ?_, hvalue⟩
  apply parse_ok_iff_toInt.mpr
  exact ⟨_, h, hvalue, hliteral.trim_eq.symm ▸ hliteral⟩

/-- Whatever the text, a value is read exactly if the text without the white space around it is a
literal of that value, and literals end below 2^31. Whatever the number and the width, hexadecimal
has that width or as many characters as there are digits left, and as a literal it is worth the
number modulo that power of sixteen. -/
theorem literals_and_hex_agree :
    (∀ (t : Text) (v : Value), parse t = .ok v ↔
      ∃ n : Nat, n < 2 ^ 31 ∧ v.toInt = n ∧
        ((∃ digits, t.trim = '$' :: digits ∧ Numeral.IsNumeral 16 digits n) ∨
          (∃ digits, t.trim = '%' :: digits ∧ Numeral.IsNumeral 2 digits n) ∨
            Numeral.IsNumeral 10 t.trim n)) ∧
      ∀ n width : Nat, 0 < width →
        (Numeral.hex n (some width)).length =
            max width (Nat.toDigits 16 (n % 16 ^ width)).length ∧
          (n % 16 ^ width < 2 ^ 31 →
            ∃ v, parse ('$' :: Numeral.hex n (some width)) = .ok v ∧
              v.toInt = (n % 16 ^ width : Nat)) := by
  constructor
  · intro t v
    simp only [← isLiteral_iff_isNumeral]
    exact parse_ok_iff_toInt
  · intro n width hwidth
    obtain ⟨columns, rfl⟩ := Nat.exists_eq_succ_of_ne_zero (Nat.ne_of_gt hwidth)
    exact ⟨Numeral.length_hex n columns, exists_parse_hex⟩

/-- The largest word is too large for a literal, but seven of its digits are not. -/
theorem largest_literals_and_hex_agree :
    let word := 4294967295
    0 < 7 ∧ (Numeral.hex word (some 7)).length = 7 ∧ word % 16 ^ 7 < 2 ^ 31 ∧
      ∃ v, parse ('$' :: Numeral.hex word (some 7)) = .ok v ∧ v.toInt = 268435455 := by
  intro word
  have small : word % 16 ^ 7 < 2 ^ 31 := by decide
  have digits : (Nat.toDigits 16 (word % 16 ^ 7)).length = 7 := by decide
  have rest : ((word % 16 ^ 7 : Nat) : Int) = 268435455 := by decide
  obtain ⟨hlength, hread⟩ := literals_and_hex_agree.2 word 7 (by decide)
  obtain ⟨v, hv, hvalue⟩ := hread small
  rw [digits] at hlength
  exact ⟨by decide, hlength, small, v, hv, hvalue.trans rest⟩

/-- The first number that is no literal any more. -/
example : parse "$80000000".toList = .error (.malformed .hexadecimal "80000000".toList) := rfl

end Number

end Asm65
