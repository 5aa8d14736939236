-- SUMMARY: Bindings of names to values, in order of definition.
import Asm65.Text
import Asm65.Value

/-!
# Symbol tables

A table lists its bindings in the order in which the names were first bound. Binding a
name again keeps its place; a name that was erased and is bound anew goes to the end.
-/
namespace Asm65

structure SymbolTable where
  entries : List (Text × Value)
  deriving DecidableEq, Inhabited

namespace SymbolTable

def empty : SymbolTable := ⟨[]⟩

def get? (t : SymbolTable) (name : Text) : Option Value := t.entries.lookup name

def contains (t : SymbolTable) (name : Text) : Bool := (t.get? name).isSome

def names (t : SymbolTable) : List Text := t.entries.map Prod.fst

def size (t : SymbolTable) : Nat := t.entries.length

/-- Bindings with a name bound: in its place if it has one, at the end otherwise. -/
def bind (name : Text) (value : Value) : List (Text × Value) → List (Text × Value)
  | [] => [(name, value)]
  | (key, old) :: rest =>
    if key = name then (name, value) :: rest else (key, old) :: bind name value rest

def insert (t : SymbolTable) (name : Text) (value : Value) : SymbolTable :=
  ⟨bind name value t.entries⟩

/-- Unbind a name; the others keep their order. -/
def erase (t : SymbolTable) (name : Text) : SymbolTable :=
  ⟨t.entries.filter fun entry => entry.1 ≠ name⟩

/-! ## What each operation does to a look-up -/

@[simp] theorem get?_empty (name : Text) : empty.get? name = none := rfl

theorem lookup_entry (entry : Text × Value) (rest : List (Text × Value)) (name : Text) :
    (entry :: rest).lookup name = if name = entry.1 then some entry.2 else rest.lookup name := by
  rw [List.lookup_cons]
  by_cases h : name = entry.1
  · simp [h]
  · rw [if_neg h, beq_eq_false_iff_ne.mpr h]

theorem get?_insert (t : SymbolTable) (name other : Text) (value : Value) :
    (t.insert name value).get? other = if other = name then some value else t.get? other := by
  obtain ⟨entries⟩ := t
  simp only [get?, insert]
  induction entries with
  | nil => simp [bind, lookup_entry]
  | cons entry rest ih =>
    rw [bind]
    split
    · next h => simp only [lookup_entry, h]; split <;> rfl
    · next h => simp only [lookup_entry, ih]; grind

theorem get?_erase (t : SymbolTable) (name other : Text) :
    (t.erase name).get? other = if other = name then none else t.get? other := by
  obtain ⟨entries⟩ := t
  simp only [get?, erase]
  induction entries with
  | nil => simp
  | cons entry rest ih =>
    rw [List.filter_cons]
    split <;> grind [lookup_entry]

end SymbolTable

end Asm65
