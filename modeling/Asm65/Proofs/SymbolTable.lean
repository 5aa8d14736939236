-- SUMMARY: Symbol tables as partial maps: extension, order of names, equality.
import Asm65.SymbolTable
import Mathlib.Data.List.Nodup
import Mathlib.Order.Defs.PartialOrder

/-!
# Tables as maps

A table extends another one if it has all its bindings. Extension ignores the order of the
names; a table is known from another one that it extends when both list the same names. A
table may also be filled from a third one: it extends the first by bindings of that one only.
-/
namespace Asm65.SymbolTable

/-! ## Extension -/

/-- Every binding of the first table is one of the second. -/
instance : LE SymbolTable where
  le t u := ∀ name value, t.get? name = some value → u.get? name = some value

instance : Preorder SymbolTable where
  le_refl _ := fun _ _ h => h
  le_trans _ _ _ htu huv := fun name value h => huv name value (htu name value h)

theorem empty_le (t : SymbolTable) : empty ≤ t := by
  intro name value h
  rw [get?_empty] at h
  cases h

/-- Binding a name alike keeps extension. -/
theorem insert_le_insert {t u : SymbolTable} (h : t ≤ u) (name : Text) (value : Value) :
    t.insert name value ≤ u.insert name value := by
  intro other v hv
  rw [get?_insert] at hv ⊢
  split
  · next same => rwa [if_pos same] at hv
  · next other_name =>
    rw [if_neg other_name] at hv
    exact h other v hv

/-- A name that the smaller table forgets may become anything in the larger one. -/
theorem erase_le_insert {t u : SymbolTable} (h : t ≤ u) (name : Text) (value : Value) :
    t.erase name ≤ u.insert name value := by
  intro other v hv
  rw [get?_erase] at hv
  rw [get?_insert]
  split
  · next same =>
    rw [if_pos same] at hv
    cases hv
  · next other_name =>
    rw [if_neg other_name] at hv
    exact h other v hv

theorem erase_le_erase {t u : SymbolTable} (h : t ≤ u) (name : Text) :
    t.erase name ≤ u.erase name := by
  intro other v hv
  rw [get?_erase] at hv ⊢
  split
  · next same =>
    rw [if_pos same] at hv
    cases hv
  · next other_name =>
    rw [if_neg other_name] at hv
    exact h other v hv

/-- A table that has the bindings of another one, and of a last one where that has none. -/
def FilledFrom (s t last : SymbolTable) : Prop :=
  ∀ name, t.get? name = s.get? name ∨ s.get? name = none ∧ t.get? name = last.get? name

theorem FilledFrom.empty (t : SymbolTable) : FilledFrom SymbolTable.empty t t :=
  fun name => .inr ⟨get?_empty name, rfl⟩

theorem FilledFrom.le {s t last : SymbolTable} (h : FilledFrom s t last) : s ≤ t := by
  intro name value hvalue
  rcases h name with heq | ⟨hnone, -⟩
  · rw [heq, hvalue]
  · rw [hnone] at hvalue
    cases hvalue

/-! ## Names -/

theorem isSome_get?_iff {t : SymbolTable} {name : Text} :
    (t.get? name).isSome ↔ name ∈ t.names := by
  obtain ⟨entries⟩ := t
  simp only [get?, names]
  induction entries with
  | nil => simp
  | cons entry rest ih =>
    rw [lookup_entry, List.map_cons, List.mem_cons]
    split
    · next same => simp [same]
    · next other_name => simp [other_name, ih]

private theorem keys_bind (name : Text) (value : Value) (entries : List (Text × Value)) :
    (bind name value entries).map Prod.fst =
      if name ∈ entries.map Prod.fst then entries.map Prod.fst
      else entries.map Prod.fst ++ [name] := by
  induction entries with
  | nil => rfl
  | cons entry rest ih =>
    rw [bind]
    split
    · next same => simp [same]
    · next other_name =>
      have hne : name ≠ entry.1 := fun h => other_name h.symm
      rw [List.map_cons, ih]
      by_cases hmem : name ∈ rest.map Prod.fst
      · simp [hmem]
      · simp [hmem, hne]

theorem names_insert (t : SymbolTable) (name : Text) (value : Value) :
    (t.insert name value).names = if name ∈ t.names then t.names else t.names ++ [name] :=
  keys_bind name value t.entries

theorem names_erase (t : SymbolTable) (name : Text) :
    (t.erase name).names = t.names.filter fun other => other ≠ name := by
  simp only [names, erase, List.filter_map]
  rfl

theorem nodup_names_insert {t : SymbolTable} (h : t.names.Nodup) (name : Text)
    (value : Value) : (t.insert name value).names.Nodup := by
  rw [names_insert]
  split
  · exact h
  · next absent =>
    rw [List.nodup_append]
    refine ⟨h, List.nodup_singleton name, ?_⟩
    intro other hother last hlast
    rw [List.mem_singleton] at hlast
    rintro rfl
    exact absent (hlast ▸ hother)

theorem nodup_names_erase {t : SymbolTable} (h : t.names.Nodup) (name : Text) :
    (t.erase name).names.Nodup := by
  rw [names_erase]
  exact h.filter _

/-! ## Equality -/

private theorem entries_eq_of_lookup {xs ys : List (Text × Value)}
    (keys : ys.map Prod.fst = xs.map Prod.fst) (nodup : (xs.map Prod.fst).Nodup)
    (h : ∀ name value, xs.lookup name = some value → ys.lookup name = some value) :
    ys = xs := by
  induction xs generalizing ys with
  | nil => exact List.map_eq_nil_iff.mp keys
  | cons entry rest ih =>
    obtain ⟨name, value⟩ := entry
    cases ys with
    | nil => cases keys
    | cons other others =>
      obtain ⟨name', value'⟩ := other
      obtain ⟨rfl, hkeys⟩ : name' = name ∧ others.map Prod.fst = rest.map Prod.fst := by
        simpa using keys
      obtain ⟨hfresh, hnodup⟩ : name' ∉ rest.map Prod.fst ∧ (rest.map Prod.fst).Nodup :=
        List.nodup_cons.mp nodup
      have hhead : value' = value := by
        have := h name' value (by rw [lookup_entry, if_pos rfl])
        rw [lookup_entry, if_pos rfl] at this
        exact Option.some.inj this
      have htail : others = rest := by
        refine ih hkeys hnodup ?_
        intro key v hv
        have hkey : key ≠ name' := by
          rintro rfl
          exact hfresh (isSome_get?_iff (t := ⟨rest⟩).mp (by rw [get?, hv]; rfl))
        have := h key v (by rw [lookup_entry, if_neg hkey, hv])
        rwa [lookup_entry, if_neg hkey] at this
      rw [hhead, htail]

/-- A table that extends another one and lists the same names in the same order is that
table. -/
theorem eq_of_le {t u : SymbolTable} (h : t ≤ u) (names : u.names = t.names)
    (nodup : t.names.Nodup) : u = t := by
  obtain ⟨xs⟩ := t
  obtain ⟨ys⟩ := u
  exact congrArg SymbolTable.mk (entries_eq_of_lookup names nodup h)

end Asm65.SymbolTable
