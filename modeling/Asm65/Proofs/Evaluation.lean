-- SUMMARY: The value of an expression under tables that agree on its names or extend each other.
import Asm65.Expr.Eval
import Asm65.Proofs.SymbolTable

/-!
# Values under related tables

An expression reads the table at its names only, and once it has a value, further bindings
do not change it. Expressions without division and shifts have a value as soon as all
their names are bound.
-/
namespace Asm65

/-! ## Total expressions -/

/-- The operator is defined at all operands. -/
def Operator.isTotal : Operator → Bool
  | add | sub | mul => true
  | div | shl | shr => false

theorem Operator.isSome_eval? {op : Operator} (h : op.isTotal) (left right : Value) :
    (op.eval? left right).isSome := by
  cases op with
  | add => rfl
  | sub => rfl
  | mul => rfl
  | div => cases h
  | shl => cases h
  | shr => cases h

namespace Expr

/-- Built from numbers, symbols and total operators only. -/
def isTotal : Expr → Bool
  | number _ => true
  | symbol _ => true
  | accumulator => false
  | binary op left right => op.isTotal && left.isTotal && right.isTotal

/-! ## Related tables -/

theorem eval?_binary (symbols : SymbolTable) (op : Operator) (left right : Expr) :
    (binary op left right).eval? symbols =
      (left.eval? symbols).bind fun l => (right.eval? symbols).bind fun r => op.eval? l r :=
  rfl

/-- The value hangs on the names of the expression only. -/
theorem eval?_congr {t u : SymbolTable} {e : Expr}
    (h : ∀ name ∈ e.names, t.get? name = u.get? name) : e.eval? t = e.eval? u := by
  induction e with
  | number value => rfl
  | symbol name => exact h name (List.mem_singleton.mpr rfl)
  | accumulator => rfl
  | binary op left right ihl ihr =>
    have hl : left.eval? t = left.eval? u :=
      ihl fun name hname => h name (List.mem_append_left _ hname)
    have hr : right.eval? t = right.eval? u :=
      ihr fun name hname => h name (List.mem_append_right _ hname)
    rw [eval?_binary, eval?_binary, hl, hr]

/-- A value stays when more names are bound. -/
theorem eval?_of_le {t u : SymbolTable} (htu : t ≤ u) {e : Expr} {value : Value}
    (h : e.eval? t = some value) : e.eval? u = some value := by
  induction e generalizing value with
  | number v => exact h
  | symbol name => exact htu name value h
  | accumulator => cases h
  | binary op left right ihl ihr =>
    rw [eval?_binary] at h ⊢
    obtain ⟨l, hl, h⟩ := Option.bind_eq_some_iff.mp h
    obtain ⟨r, hr, h⟩ := Option.bind_eq_some_iff.mp h
    rw [ihl hl, Option.bind_some, ihr hr, Option.bind_some, h]

/-! ## Bound names -/

/-- An expression with a value has all its names bound. -/
theorem isSome_get?_of_eval? {symbols : SymbolTable} {e : Expr} {value : Value}
    (h : e.eval? symbols = some value) {name : Text} (hname : name ∈ e.names) :
    (symbols.get? name).isSome := by
  induction e generalizing value with
  | number v => cases hname
  | symbol other =>
    rw [List.mem_singleton.mp hname]
    exact Option.isSome_of_eq_some h
  | accumulator => cases hname
  | binary op left right ihl ihr =>
    rw [eval?_binary] at h
    obtain ⟨l, hl, h⟩ := Option.bind_eq_some_iff.mp h
    obtain ⟨r, hr, -⟩ := Option.bind_eq_some_iff.mp h
    rcases List.mem_append.mp hname with hname | hname
    · exact ihl hl hname
    · exact ihr hr hname

theorem isSome_eval? {symbols : SymbolTable} {e : Expr} (total : e.isTotal)
    (h : ∀ name ∈ e.names, (symbols.get? name).isSome) : (e.eval? symbols).isSome := by
  induction e with
  | number v => rfl
  | symbol name => exact h name (List.mem_singleton.mpr rfl)
  | accumulator => cases total
  | binary op left right ihl ihr =>
    simp only [isTotal, Bool.and_eq_true] at total
    obtain ⟨⟨hop, hleft⟩, hright⟩ := total
    obtain ⟨l, hl⟩ := Option.isSome_iff_exists.mp
      (ihl hleft fun name hname => h name (List.mem_append_left _ hname))
    obtain ⟨r, hr⟩ := Option.isSome_iff_exists.mp
      (ihr hright fun name hname => h name (List.mem_append_right _ hname))
    rw [eval?_binary, hl, Option.bind_some, hr, Option.bind_some]
    exact Operator.isSome_eval? hop l r

end Expr

end Asm65
