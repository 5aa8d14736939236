-- SUMMARY: When an expression has a value, said over the integers, and what the value is.
import Asm65.Proofs.Words

/-!
# Defined expressions

Whether an expression has a value can be told from outside the evaluator. Every expression is worth
an integer, node by node, where each operator is taken over the integers and its result wraps at 32
bits; what has no value is worth anything. An expression has a value exactly if its names are bound,
the accumulator does not occur, and no operator in it stands between worths that it is not defined
for. Then that worth is the value, and more bindings change neither.
-/
namespace Asm65

/-! ## Shifts -/

namespace Value

variable {v count : Value}

/-- The counts that the shifts allow. -/
theorem isCount_iff : (0 ≤ count ∧ count < 32) ↔ 0 ≤ count.toInt ∧ count.toInt ≤ 31 := by
  rw [Int32.le_iff_toInt_le, Int32.lt_iff_toInt_lt]
  exact and_congr_right fun _ => Int.lt_add_one_iff (b := 31)

/-- A shift to the right is a quotient that is rounded down, and fits. -/
theorem toInt_shiftRight (hlow : 0 ≤ count.toInt) (hhigh : count.toInt ≤ 31) :
    (v >>> count).toInt = v.toInt / 2 ^ count.toInt.toNat := by
  have hshift : (v >>> count).toInt =
      (v.toBitVec.sshiftRight (count.toBitVec.smod 32).toNat).toInt := rfl
  rw [hshift, toNat_count hlow hhigh, BitVec.toInt_sshiftRight, Int.shiftRight_eq_div_pow]
  simp

end Value

/-! ## Operators -/

namespace Operator

/-- The operands that the operator has a value for: no division by zero, no quotient that is too
large for 32 bits, and no shift by less than nothing or by 32 places and more. -/
def IsDefinedAt : Operator → Int → Int → Prop
  | add, _, _ | sub, _, _ | mul, _, _ => True
  | div, a, b => b ≠ 0 ∧ ¬ (a = -2 ^ 31 ∧ b = -1)
  | shl, _, count | shr, _, count => 0 ≤ count ∧ count ≤ 31

instance (op : Operator) (a b : Int) : Decidable (op.IsDefinedAt a b) := by
  cases op <;> unfold IsDefinedAt <;> infer_instance

/-- The value of an operator over the integers, in two's complement of 32 bits. -/
def wrapped (op : Operator) (a b : Int) : Int := (op.exact a b).bmod (2 ^ 32)

variable {left right v : Value}

/-- Values that agree modulo 2^32 are the same. -/
theorem toInt_eq_wrapped {op : Operator} {a b : Int} (h : v.toInt ≡ op.exact a b [ZMOD 2 ^ 32]) :
    v.toInt = op.wrapped a b := by
  have hself : v.toInt.bmod (2 ^ 32) = v.toInt := Int.bmod_eq_of_le v.le_toInt v.toInt_lt
  have hmod : v.toInt % ((2 ^ 32 : Nat) : Int) = op.exact a b % ((2 ^ 32 : Nat) : Int) := h
  rw [← hself, wrapped, Int.bmod_def, Int.bmod_def, hmod]

theorem divides_iff :
    ¬ (right = 0 ∨ left = Int32.minValue ∧ right = -1) ↔
      div.IsDefinedAt left.toInt right.toInt := by
  simp only [IsDefinedAt, ← Int32.toInt_inj, not_or]
  rfl

theorem toInt_div (h : div.IsDefinedAt left.toInt right.toInt) :
    (left / right).toInt = left.toInt.tdiv right.toInt := by
  by_cases hmin : left = Int32.minValue
  · refine Int32.toInt_div_of_ne_right _ _ ?_
    rintro rfl
    exact h.2 ⟨congrArg Int32.toInt hmin, rfl⟩
  · exact Int32.toInt_div_of_ne_left _ _ hmin

theorem exists_eval?_of_isDefinedAt {op : Operator} (h : op.IsDefinedAt left.toInt right.toInt) :
    ∃ v, op.eval? left right = some v ∧ v.toInt = op.wrapped left.toInt right.toInt := by
  have modular (hop : op.isModular) (hcount : op = shl → 0 ≤ right.toInt ∧ right.toInt ≤ 31) :
      ∃ v, op.eval? left right = some v ∧ v.toInt = op.wrapped left.toInt right.toInt := by
    obtain ⟨v, hv, hmod⟩ := exists_eval?_of_isModular hop (Int.ModEq.refl left.toInt) hcount
    exact ⟨v, hv, toInt_eq_wrapped hmod⟩
  cases op with
  | add => exact modular rfl nofun
  | sub => exact modular rfl nofun
  | mul => exact modular rfl nofun
  | shl => exact modular rfl fun _ => h
  | div =>
    refine ⟨left / right, if_neg (divides_iff.mpr h), toInt_eq_wrapped ?_⟩
    rw [toInt_div h]
    rfl
  | shr =>
    refine ⟨left >>> right, if_pos (Value.isCount_iff.mpr h), toInt_eq_wrapped ?_⟩
    rw [Value.toInt_shiftRight h.1 h.2]
    rfl

theorem isDefinedAt_of_eval? {op : Operator} (h : op.eval? left right = some v) :
    op.IsDefinedAt left.toInt right.toInt := by
  cases op with
  | add => trivial
  | sub => trivial
  | mul => trivial
  | div => exact divides_iff.mp (Option.ite_none_left_eq_some.mp h).1
  | shl => exact Value.isCount_iff.mp (Option.ite_none_right_eq_some.mp h).1
  | shr => exact Value.isCount_iff.mp (Option.ite_none_right_eq_some.mp h).1

/-- An operator has a value where it is defined, and that value is the exact one, wrapped. -/
theorem eval?_eq_some_iff {op : Operator} :
    op.eval? left right = some v ↔
      op.IsDefinedAt left.toInt right.toInt ∧ v.toInt = op.wrapped left.toInt right.toInt := by
  constructor
  · intro h
    have hdefined := isDefinedAt_of_eval? h
    obtain ⟨w, hw, hvalue⟩ := exists_eval?_of_isDefinedAt hdefined
    rw [h] at hw
    obtain rfl := Option.some.inj hw
    exact ⟨hdefined, hvalue⟩
  · rintro ⟨hdefined, hv⟩
    obtain ⟨w, hw, hvalue⟩ := exists_eval?_of_isDefinedAt hdefined
    rw [hw, Option.some_inj, ← Int32.toInt_inj, hv, hvalue]

end Operator

/-! ## Expressions -/

namespace Expr

variable {symbols : SymbolTable} {v : Value}

/-- What an expression is worth, node by node. The accumulator, a name that is not bound, and an
operator that is not defined at its operands are worth something without a meaning. -/
def worth (symbols : SymbolTable) : Expr → Int
  | number value => value.toInt
  | symbol name => ((symbols.get? name).getD 0).toInt
  | accumulator => 0
  | binary op left right => op.wrapped (left.worth symbols) (right.worth symbols)

/-- The register `A` occurs. -/
def mentionsAccumulator : Expr → Bool
  | number _ | symbol _ => false
  | accumulator => true
  | binary _ left right => left.mentionsAccumulator || right.mentionsAccumulator

/-- Every operator of an expression, with its operands. -/
def operations : Expr → List (Operator × Expr × Expr)
  | number _ | symbol _ | accumulator => []
  | binary op left right => (op, left, right) :: (left.operations ++ right.operations)

/-- The conditions for a value. -/
structure IsDefined (e : Expr) (symbols : SymbolTable) : Prop where
  bound : ∀ name ∈ e.names, symbols.contains name
  free : e.mentionsAccumulator = false
  operators : ∀ node ∈ e.operations,
    node.1.IsDefinedAt (node.2.1.worth symbols) (node.2.2.worth symbols)

instance (e : Expr) (symbols : SymbolTable) : Decidable (e.IsDefined symbols) :=
  decidable_of_iff
    ((∀ name ∈ e.names, symbols.contains name) ∧ e.mentionsAccumulator = false ∧
      ∀ node ∈ e.operations, node.1.IsDefinedAt (node.2.1.worth symbols) (node.2.2.worth symbols))
    ⟨fun ⟨bound, free, operators⟩ => ⟨bound, free, operators⟩,
      fun h => ⟨h.bound, h.free, h.operators⟩⟩

/-- The conditions are met at an operator if they are met on both sides of it and by itself. -/
theorem isDefined_binary_iff {op : Operator} {left right : Expr} :
    (binary op left right).IsDefined symbols ↔
      left.IsDefined symbols ∧ right.IsDefined symbols ∧
        op.IsDefinedAt (left.worth symbols) (right.worth symbols) := by
  constructor
  · rintro ⟨hbound, hfree, hoperators⟩
    obtain ⟨hleft, hright⟩ := List.forall_mem_append.mp hbound
    obtain ⟨hfreeLeft, hfreeRight⟩ := Bool.or_eq_false_iff.mp hfree
    obtain ⟨hop, hothers⟩ := List.forall_mem_cons.mp hoperators
    obtain ⟨hopsLeft, hopsRight⟩ := List.forall_mem_append.mp hothers
    exact ⟨⟨hleft, hfreeLeft, hopsLeft⟩, ⟨hright, hfreeRight, hopsRight⟩, hop⟩
  · rintro ⟨hleft, hright, hop⟩
    exact ⟨List.forall_mem_append.mpr ⟨hleft.bound, hright.bound⟩,
      Bool.or_eq_false_iff.mpr ⟨hleft.free, hright.free⟩,
      List.forall_mem_cons.mpr
        ⟨hop, List.forall_mem_append.mpr ⟨hleft.operators, hright.operators⟩⟩⟩

/-- A value is the worth of an expression that meets the conditions. -/
theorem isDefined_of_eval? {e : Expr} (h : e.eval? symbols = some v) :
    e.IsDefined symbols ∧ v.toInt = e.worth symbols := by
  induction e generalizing v with
  | number value =>
    obtain rfl := Option.some.inj h
    exact ⟨⟨nofun, rfl, nofun⟩, rfl⟩
  | symbol name =>
    have hget : symbols.get? name = some v := h
    refine ⟨⟨List.forall_mem_singleton.mpr (Option.isSome_of_eq_some hget), rfl, nofun⟩, ?_⟩
    rw [worth, hget, Option.getD_some]
  | accumulator => cases h
  | binary op left right ihl ihr =>
    rw [eval?_binary] at h
    obtain ⟨l, hl, h⟩ := Option.bind_eq_some_iff.mp h
    obtain ⟨r, hr, h⟩ := Option.bind_eq_some_iff.mp h
    obtain ⟨hop, hvalue⟩ := Operator.eval?_eq_some_iff.mp h
    obtain ⟨hleft, hleftWorth⟩ := ihl hl
    obtain ⟨hright, hrightWorth⟩ := ihr hr
    rw [hleftWorth, hrightWorth] at hop hvalue
    exact ⟨isDefined_binary_iff.mpr ⟨hleft, hright, hop⟩, hvalue⟩

theorem exists_eval?_of_isDefined {e : Expr} (h : e.IsDefined symbols) :
    ∃ v, e.eval? symbols = some v := by
  induction e with
  | number value => exact ⟨value, rfl⟩
  | symbol name =>
    exact Option.isSome_iff_exists.mp (h.bound name (List.mem_singleton_self name))
  | accumulator => cases h.free
  | binary op left right ihl ihr =>
    obtain ⟨hleft, hright, hop⟩ := isDefined_binary_iff.mp h
    obtain ⟨l, hl⟩ := ihl hleft
    obtain ⟨r, hr⟩ := ihr hright
    rw [← (isDefined_of_eval? hl).2, ← (isDefined_of_eval? hr).2] at hop
    obtain ⟨v, hv, -⟩ := Operator.exists_eval?_of_isDefinedAt hop
    refine ⟨v, ?_⟩
    rw [eval?_binary, hl, Option.bind_some, hr, Option.bind_some, hv]

/-- Whatever the expression and the table, there is a value exactly under the conditions, it is
the worth of the expression, and every table with the same bindings and more gives it as well. -/
theorem evaluates_exactly (e : Expr) (symbols : SymbolTable) :
    ((e.eval? symbols).isSome ↔ e.IsDefined symbols) ∧
      ∀ v, e.eval? symbols = some v →
        v.toInt = e.worth symbols ∧
          ∀ larger : SymbolTable,
            (∀ name bound, symbols.get? name = some bound → larger.get? name = some bound) →
              e.eval? larger = some v := by
  refine ⟨⟨fun h => ?_, fun h => ?_⟩, fun v h => ⟨(isDefined_of_eval? h).2, fun larger hle => ?_⟩⟩
  · obtain ⟨v, hv⟩ := Option.isSome_iff_exists.mp h
    exact (isDefined_of_eval? hv).1
  · obtain ⟨v, hv⟩ := exists_eval?_of_isDefined h
    exact Option.isSome_of_eq_some hv
  · exact eval?_of_le hle h

/-- A product that wraps, a quotient that is rounded towards zero, and a shift that rounds down. -/
theorem least_evaluates_exactly :
    let least : Text := "LEAST".toList
    let symbols := SymbolTable.empty.insert least Int32.minValue
    let larger := (SymbolTable.empty.insert "MORE".toList 1).insert least Int32.minValue
    let sum : Expr := .binary .add (.binary .mul (.symbol least) (.number 3)) (.number 1)
    let e : Expr := .binary .shr (.binary .div sum (.number 2)) (.number 1)
    let v : Value := -536870912
    e.eval? symbols = some v ∧ symbols ≤ larger ∧ e.IsDefined symbols ∧
      v.toInt = e.worth symbols ∧ e.eval? larger = some v := by
  intro least symbols larger sum e v
  have value : e.eval? symbols = some v := by decide
  have more : symbols ≤ larger := SymbolTable.insert_le_insert (SymbolTable.empty_le _) _ _
  obtain ⟨hdefined, hvalue⟩ := evaluates_exactly e symbols
  obtain ⟨hworth, hlarger⟩ := hvalue v value
  exact ⟨value, more, hdefined.mp (Option.isSome_of_eq_some value), hworth, hlarger larger more⟩

/-- The one quotient of 32-bit values that does not fit. -/
example : ¬ (binary .div (.number Int32.minValue) (.number (-1))).IsDefined .empty := by decide

end Expr

end Asm65
