-- SUMMARY: What a line does to the symbol table, in either pass: its label, and the constant it defines.
import Asm65.Proofs.Reading

/-!
# Bindings

A line changes the table in at most one name. Its label is bound to the address before the
line is evaluated; a constant is bound to the value of its operand, or unbound if it has
none. Tables that extend each other go on doing so as long as labels get the same addresses.
-/
namespace Asm65.Line

/-- The name that the line binds, as a label or as a constant. The label of an `EQU` that
cannot be read is not bound. -/
def bound? (line : Line) : Option Text :=
  match line.reading with
  | .ok (.equate name _) => some name
  | _ => line.addressLabel?

/-- The table with the label of the line bound to an address. -/
def mark (line : Line) (pc : Address) (symbols : SymbolTable) : SymbolTable :=
  match line.addressLabel? with
  | some name => symbols.insert name pc.toValue
  | none => symbols

/-- The table after the line, which stands at an address. A constant without a value is
unbound. -/
def define (line : Line) (pc : Address) (symbols : SymbolTable) : SymbolTable :=
  match line.reading with
  | .ok (.equate name a) =>
    match a.value? symbols with
    | some value => symbols.insert name value
    | none => symbols.erase name
  | _ => line.mark pc symbols

variable {line : Line}

/-! ## Constants and other lines -/

theorem bound?_of_equate {name : Text} {a : Argument}
    (h : line.reading = .ok (.equate name a)) : line.bound? = some name := by
  rw [bound?, h]

theorem define_of_equate {name : Text} {a : Argument}
    (h : line.reading = .ok (.equate name a)) (pc : Address) (symbols : SymbolTable) :
    line.define pc symbols =
      match a.value? symbols with
      | some value => symbols.insert name value
      | none => symbols.erase name := by
  rw [define, h]

theorem mark_of_equate {name : Text} {a : Argument}
    (h : line.reading = .ok (.equate name a)) (pc : Address) (symbols : SymbolTable) :
    line.mark pc symbols = symbols := by
  rw [mark, addressLabel?_of_equate h]

theorem bound?_eq_addressLabel? (h : ∀ name a, line.reading ≠ .ok (.equate name a)) :
    line.bound? = line.addressLabel? := by
  unfold bound?
  split
  · next name a hread => exact absurd hread (h name a)
  · rfl

theorem define_eq_mark (h : ∀ name a, line.reading ≠ .ok (.equate name a)) (pc : Address)
    (symbols : SymbolTable) : line.define pc symbols = line.mark pc symbols := by
  unfold define
  split
  · next name a hread => exact absurd hread (h name a)
  · rfl

/-- A line defines a constant, or does no more to the table than bind its label. -/
theorem equate_or_label (line : Line) :
    (∃ name a, line.reading = .ok (.equate name a)) ∨
      line.bound? = line.addressLabel? ∧
        ∀ pc symbols, line.define pc symbols = line.mark pc symbols := by
  by_cases h : ∃ name a, line.reading = .ok (.equate name a)
  · exact .inl h
  · have hne : ∀ name a, line.reading ≠ .ok (.equate name a) := fun name a heq => h ⟨name, a, heq⟩
    exact .inr ⟨bound?_eq_addressLabel? hne, define_eq_mark hne⟩

/-! ## Look-ups -/

theorem get?_mark_label {name : Text} (h : line.addressLabel? = some name) (pc : Address)
    (symbols : SymbolTable) : (line.mark pc symbols).get? name = some pc.toValue := by
  rw [mark, h]
  exact (symbols.get?_insert name name pc.toValue).trans (if_pos rfl)

theorem get?_mark_of_ne {name : Text} (h : line.addressLabel? ≠ some name) (pc : Address)
    (symbols : SymbolTable) : (line.mark pc symbols).get? name = symbols.get? name := by
  unfold mark
  split
  · next label hlabel =>
    have hne : name ≠ label := by
      rintro rfl
      exact h hlabel
    rw [SymbolTable.get?_insert, if_neg hne]
  · rfl

theorem get?_mark_of_unbound {name : Text} (h : line.bound? ≠ some name) (pc : Address)
    (symbols : SymbolTable) : (line.mark pc symbols).get? name = symbols.get? name := by
  rcases equate_or_label line with ⟨constant, a, hread⟩ | ⟨hbound, -⟩
  · rw [mark_of_equate hread]
  · exact get?_mark_of_ne (hbound ▸ h) pc symbols

/-- A line leaves all names alone but the one it binds. -/
theorem get?_define_of_ne {name : Text} (h : line.bound? ≠ some name) (pc : Address)
    (symbols : SymbolTable) : (line.define pc symbols).get? name = symbols.get? name := by
  rcases equate_or_label line with ⟨constant, a, hread⟩ | ⟨hbound, hdefine⟩
  · have hne : name ≠ constant := by
      rintro rfl
      exact h (bound?_of_equate hread)
    rw [define_of_equate hread]
    split
    · rw [SymbolTable.get?_insert, if_neg hne]
    · rw [SymbolTable.get?_erase, if_neg hne]
  · rw [hdefine, get?_mark_of_ne (hbound ▸ h)]

theorem get?_define_constant {name : Text} {a : Argument}
    (h : line.reading = .ok (.equate name a)) (pc : Address) (symbols : SymbolTable) :
    (line.define pc symbols).get? name = a.value? symbols := by
  rw [define_of_equate h]
  cases a.value? symbols with
  | some value => exact (symbols.get?_insert name name value).trans (if_pos rfl)
  | none => exact (symbols.get?_erase name name).trans (if_pos rfl)

theorem get?_define_label {name : Text} (h : line.addressLabel? = some name) (pc : Address)
    (symbols : SymbolTable) : (line.define pc symbols).get? name = some pc.toValue := by
  rcases equate_or_label line with ⟨constant, a, hread⟩ | ⟨-, hdefine⟩
  · rw [addressLabel?_of_equate hread] at h
    cases h
  · rw [hdefine, get?_mark_label h]

/-- The name that a line binds is bound alike in two tables if the line stands at one address
and a constant has one value. -/
theorem get?_define_bound {name : Text} (hbound : line.bound? = some name) {p q : Address}
    {t u : SymbolTable} (address : p = q)
    (values : ∀ a, line.reading = .ok (.equate name a) → a.value? t = a.value? u) :
    (line.define q u).get? name = (line.define p t).get? name := by
  rcases equate_or_label line with ⟨constant, a, hread⟩ | ⟨heq, -⟩
  · obtain rfl : constant = name :=
      Option.some.inj ((bound?_of_equate hread).symm.trans hbound)
    rw [get?_define_constant hread, get?_define_constant hread, values a hread]
  · have hlabel := heq.symm.trans hbound
    rw [get?_define_label hlabel, get?_define_label hlabel, address]

/-! ## Names -/

/-- If its arguments have values, a line binds its name and keeps all others. -/
theorem isSome_get?_define {pc : Address} {symbols : SymbolTable}
    (values : ∀ a ∈ line.arguments, (a.value? (line.mark pc symbols)).isSome) {name : Text}
    (h : line.bound? = some name ∨ (symbols.get? name).isSome) :
    ((line.define pc symbols).get? name).isSome := by
  by_cases hbound : line.bound? = some name
  · rcases equate_or_label line with ⟨constant, a, hread⟩ | ⟨heq, -⟩
    · obtain rfl : constant = name :=
        Option.some.inj ((bound?_of_equate hread).symm.trans hbound)
      have hvalue := values a (by rw [arguments_of_reading hread]; exact .head _)
      rw [mark_of_equate hread] at hvalue
      rwa [get?_define_constant hread]
    · rw [get?_define_label (heq.symm.trans hbound)]
      rfl
  · rw [get?_define_of_ne hbound]
    exact h.resolve_left hbound

/-- A line whose arguments have values, and whose name is in the table, keeps the list of
names. -/
theorem names_define {pc : Address} {symbols : SymbolTable}
    (values : ∀ a ∈ line.arguments, (a.value? (line.mark pc symbols)).isSome)
    (listed : ∀ name, line.bound? = some name → name ∈ symbols.names) :
    (line.define pc symbols).names = symbols.names := by
  rcases equate_or_label line with ⟨constant, a, hread⟩ | ⟨heq, hdefine⟩
  · have hvalue := values a (by rw [arguments_of_reading hread]; exact .head _)
    rw [mark_of_equate hread] at hvalue
    obtain ⟨value, hvalue⟩ := Option.isSome_iff_exists.mp hvalue
    rw [define_of_equate hread, hvalue]
    exact (symbols.names_insert constant value).trans
      (if_pos (listed constant (bound?_of_equate hread)))
  · rw [hdefine]
    unfold mark
    split
    · next name hlabel =>
      exact (symbols.names_insert name pc.toValue).trans
        (if_pos (listed name (heq.trans hlabel)))
    · rfl

theorem nodup_names_define {t : SymbolTable} (h : t.names.Nodup) (pc : Address) :
    (line.define pc t).names.Nodup := by
  unfold define mark
  split
  · split
    · exact SymbolTable.nodup_names_insert h _ _
    · exact SymbolTable.nodup_names_erase h _
  · split
    · exact SymbolTable.nodup_names_insert h _ _
    · exact h

/-! ## Extension -/

theorem mark_le_mark {t u : SymbolTable} {p q : Address} (htu : t ≤ u)
    (hpq : line.addressLabel?.isSome → p = q) : line.mark p t ≤ line.mark q u := by
  unfold mark
  split
  · next name hlabel =>
    rw [hpq (by rw [hlabel]; rfl)]
    exact SymbolTable.insert_le_insert htu name q.toValue
  · exact htu

/-- Lines keep extension: a constant with a value keeps it in the larger table, and without
one it is forgotten in the smaller. -/
theorem define_le_define {t u : SymbolTable} {p q : Address} (htu : t ≤ u)
    (hpq : line.addressLabel?.isSome → p = q) : line.define p t ≤ line.define q u := by
  rcases equate_or_label line with ⟨name, a, hread⟩ | ⟨-, hdefine⟩
  · rw [define_of_equate hread, define_of_equate hread]
    cases ht : a.value? t with
    | some value =>
      rw [Argument.value?_of_le htu ht]
      exact SymbolTable.insert_le_insert htu name value
    | none =>
      cases a.value? u with
      | some value => exact SymbolTable.erase_le_insert htu name value
      | none => exact SymbolTable.erase_le_erase htu name
  · rw [hdefine, hdefine]
    exact mark_le_mark htu hpq

/-- Lines keep a table filled if they bind their names alike in both. -/
theorem define_filledFrom {t u last : SymbolTable} {p q : Address} (h : t.FilledFrom u last)
    (bound : ∀ name, line.bound? = some name →
      (line.define q u).get? name = (line.define p t).get? name) :
    (line.define p t).FilledFrom (line.define q u) last := by
  intro name
  by_cases hbound : line.bound? = some name
  · exact .inl (bound name hbound)
  · rw [get?_define_of_ne hbound, get?_define_of_ne hbound]
    exact h name

end Asm65.Line
