-- SUMMARY: Number literals by their grammar: digits, and the number that they spell.
import Asm65.Number
import Mathlib.Data.List.Induction

/-!
# Number literals

A numeral is one or more digits of its base, and each digit counts for the base times what
stands before it. The reader collects the digits and folds over them; it gives a number
exactly for the numerals, and so the literals that are read are the numerals behind a sigil, or
without one, whose number is small enough.
-/
namespace Asm65

namespace Numeral

theorem isAlphanum_of_hexDigit? {c : Char} {d : Nat} (h : hexDigit? c = some d) :
    c.isAlphanum := by
  have hlower (hlow : 'a' ≤ c) (hhigh : c ≤ 'z') : c.isAlphanum :=
    Bool.or_eq_true_iff.mpr (.inl (Bool.or_eq_true_iff.mpr (.inr
      (Bool.and_eq_true_iff.mpr ⟨decide_eq_true hlow, decide_eq_true hhigh⟩))))
  have hupper (hlow : 'A' ≤ c) (hhigh : c ≤ 'Z') : c.isAlphanum :=
    Bool.or_eq_true_iff.mpr (.inl (Bool.or_eq_true_iff.mpr (.inl
      (decide_eq_true ⟨hlow, hhigh⟩))))
  unfold hexDigit? at h
  split at h
  · next hdigit =>
    exact Bool.or_eq_true_iff.mpr (.inr
      (Bool.and_eq_true_iff.mpr ⟨decide_eq_true hdigit.1, decide_eq_true hdigit.2⟩))
  · split at h
    · next hletter => exact hlower hletter.1 (Char.le_trans hletter.2 (by decide))
    · split at h
      · next hletter => exact hupper hletter.1 (Char.le_trans hletter.2 (by decide))
      · cases h

/-- The digit that is written for a value has that value. -/
theorem hexDigit?_digitChar {n : Nat} (h : n < 16) : hexDigit? (digitChar n) = some n := by
  have hall : ∀ n ∈ List.range 16, hexDigit? (digitChar n) = some n := by decide
  exact hall n (List.mem_range.mpr h)

theorem isAlphanum_of_digit? {base : Nat} {c : Char} (h : (digit? base c).isSome) :
    c.isAlphanum := by
  obtain ⟨d, hd⟩ := Option.isSome_iff_exists.mp h
  exact isAlphanum_of_hexDigit? (Option.filter_eq_some_iff.mp hd).1

/-! ## Numerals -/

/-- The text is a numeral of the base, and spells the number. -/
inductive Spells (base : Nat) : Text → Nat → Prop
  | digit {c : Char} {d : Nat} : digit? base c = some d → Spells base [c] d
  | more {t : Text} {n : Nat} {c : Char} {d : Nat} :
    Spells base t n → digit? base c = some d → Spells base (t ++ [c]) (n * base + d)

variable {base : Nat} {t : Text} {n : Nat}

theorem Spells.ne_nil (h : Spells base t n) : t ≠ [] := by
  cases h <;> simp

/-- Every character of a numeral is a digit. -/
theorem Spells.isSome_digit? (h : Spells base t n) : ∀ c ∈ t, (digit? base c).isSome := by
  induction h with
  | digit hc => simp [hc]
  | more _ hc ih => simpa [or_imp, forall_and, hc] using ih

theorem read?_concat (ht : t ≠ []) (c : Char) :
    read? base (t ++ [c]) =
      (read? base t).bind fun n => (digit? base c).map fun d => n * base + d := by
  have hconcat : t ++ [c] ≠ [] := by simp
  simp only [read?, if_neg ht, if_neg hconcat, List.mapM_append, List.mapM_cons, List.mapM_nil]
  cases t.mapM (digit? base) with
  | none => rfl
  | some digits =>
    cases digit? base c with
    | none => rfl
    | some d => simp [ofDigits, bind, pure]

theorem read?_singleton (base : Nat) (c : Char) : read? base [c] = digit? base c := by
  simp only [read?, List.mapM_cons, List.mapM_nil]
  cases digit? base c with
  | none => rfl
  | some d => simp [ofDigits, bind, pure]

/-- The reader gives the number that a numeral spells, and nothing for other texts. -/
theorem read?_eq_some_iff : read? base t = some n ↔ Spells base t n := by
  constructor
  · intro h
    induction t using List.reverseRecOn generalizing n with
    | nil => simp [read?] at h
    | append_singleton t c ih =>
      by_cases ht : t = []
      · subst ht
        rw [List.nil_append, read?_singleton] at h
        exact .digit h
      · rw [read?_concat ht] at h
        obtain ⟨m, hm, h⟩ := Option.bind_eq_some_iff.mp h
        obtain ⟨d, hd, rfl⟩ := Option.map_eq_some_iff.mp h
        exact .more (ih hm) hd
  · intro h
    induction h with
    | digit hc => rw [read?_singleton, hc]
    | more ht hc ih => simp [read?_concat ht.ne_nil, ih, hc]

end Numeral

namespace Number

/-- The text is a literal for the number: a sigil and a numeral of its base, or a decimal
numeral. -/
inductive IsLiteral : Text → Nat → Prop
  | hexadecimal {t : Text} {n : Nat} : Numeral.Spells 16 t n → IsLiteral ('$' :: t) n
  | binary {t : Text} {n : Nat} : Numeral.Spells 2 t n → IsLiteral ('%' :: t) n
  | decimal {t : Text} {n : Nat} : Numeral.Spells 10 t n → IsLiteral t n

variable {t : Text} {n : Nat} {v : Value}

/-- The digits of the decimal base are those that a literal without a sigil starts with. -/
theorem isDigit_of_digit? {c : Char} (h : (Numeral.digit? 10 c).isSome) : c.isDigit := by
  obtain ⟨d, hd⟩ := Option.isSome_iff_exists.mp h
  obtain ⟨hhex, hlt⟩ := Option.filter_eq_some_iff.mp hd
  have hd10 : d < 10 := of_decide_eq_true hlt
  unfold Numeral.hexDigit? at hhex
  split at hhex
  · next hrange =>
    exact Bool.and_eq_true_iff.mpr ⟨decide_eq_true hrange.1, decide_eq_true hrange.2⟩
  · -- The letters count for ten and more.
    split at hhex
    · cases hhex
      omega
    · split at hhex
      · cases hhex
        omega
      · cases hhex

theorem detect?_of_isDigit {c : Char} (h : c.isDigit) (rest : Text) :
    NumberFormat.detect? (c :: rest) = some .decimal := by
  unfold NumberFormat.detect?
  split
  · next heq =>
    obtain ⟨rfl, -⟩ := List.cons.inj heq
    cases h
  · next heq =>
    obtain ⟨rfl, -⟩ := List.cons.inj heq
    cases h
  · next heq =>
    obtain ⟨rfl, -⟩ := List.cons.inj heq
    rw [if_pos h]
  · next heq => cases heq

/-- The first character of a literal tells where its numeral begins and in which base it is. -/
theorem isLiteral_iff :
    IsLiteral t n ↔ ∃ format, NumberFormat.detect? t = some format ∧
      Numeral.read? format.base (format.digits t) = some n := by
  constructor
  · intro h
    cases h with
    | hexadecimal h => exact ⟨.hexadecimal, rfl, Numeral.read?_eq_some_iff.mpr h⟩
    | binary h => exact ⟨.binary, rfl, Numeral.read?_eq_some_iff.mpr h⟩
    | decimal h =>
      obtain ⟨c, rest, rfl⟩ := List.exists_cons_of_ne_nil h.ne_nil
      have hc := isDigit_of_digit? (h.isSome_digit? c (List.mem_cons_self ..))
      exact ⟨.decimal, detect?_of_isDigit hc rest, Numeral.read?_eq_some_iff.mpr h⟩
  · rintro ⟨format, hformat, hread⟩
    rw [Numeral.read?_eq_some_iff] at hread
    unfold NumberFormat.detect? at hformat
    split at hformat
    · cases hformat
      exact .hexadecimal hread
    · cases hformat
      exact .binary hread
    · split at hformat
      · cases hformat
        exact .decimal hread
      · cases hformat
    · cases hformat

theorem IsLiteral.chars (h : IsLiteral t n) : ∀ c ∈ t, c = '$' ∨ c = '%' ∨ c.isAlphanum := by
  have hdigit {base : Nat} {t : Text} {n : Nat} (h : Numeral.Spells base t n) :
      ∀ c ∈ t, c = '$' ∨ c = '%' ∨ c.isAlphanum :=
    fun c hc => .inr (.inr (Numeral.isAlphanum_of_digit? (h.isSome_digit? c hc)))
  cases h with
  | hexadecimal h => exact List.forall_mem_cons.mpr ⟨.inl rfl, hdigit h⟩
  | binary h => exact List.forall_mem_cons.mpr ⟨.inr (.inl rfl), hdigit h⟩
  | decimal h => exact hdigit h

theorem IsLiteral.ne_nil (h : IsLiteral t n) : t ≠ [] := by
  cases h with
  | hexadecimal h => simp
  | binary h => simp
  | decimal h => exact h.ne_nil

/-- What is read is what is a literal, up to the white space around it and below the bound. -/
theorem parse_ok_iff :
    parse t = .ok v ↔ ∃ n, IsLiteral t.trim n ∧ n < bound ∧ v = Int32.ofNat n := by
  simp only [isLiteral_iff]
  unfold parse ofDigits
  cases hformat : NumberFormat.detect? t.trim with
  | none => simp
  | some format =>
    cases hread : Numeral.read? format.base (format.digits t.trim) with
    | none => simp [hread]
    | some n =>
      by_cases hn : n < bound
      · simp [hread, hn, eq_comm]
      · simp [hread, hn]

end Number

end Asm65
