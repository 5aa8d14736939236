-- SUMMARY: Renamings of symbols: what they do to source text and to everything made from it.
import Asm65.Proofs.Run
import Mathlib.Data.List.Infix
import Mathlib.Logic.Equiv.Basic

/-!
# Renamings

A renaming takes symbols to symbols, different ones to different ones. It rewrites a source
text at the labels and at the terms of operands and leaves everything else as it stands:
white space, punctuation, comments, literals, and texts that are no symbols. It also acts on
what is made from the text, down to the state of an assembly, and there nothing can tell
apart what was renamed from what was not: a table is read and changed alike.
-/
namespace Asm65

/-- An identifier that can be bound and used: every one but the accumulator. -/
def isSymbol (t : Text) : Bool := Expr.isName t && t != ['A']

structure Renaming where
  /-- The new name of a symbol; other texts do not matter. -/
  map : Text → Text
  isSymbol_map : ∀ name, isSymbol name → isSymbol (map name)
  map_inj : ∀ name other, isSymbol name → isSymbol other → map name = map other → name = other

/-- Exchange two symbols. -/
def Renaming.swap (a b : Text) (ha : isSymbol a) (hb : isSymbol b) : Renaming where
  map := Equiv.swap a b
  isSymbol_map := by
    intro name hname
    rw [Equiv.swap_apply_def]
    split
    · exact hb
    · split
      · exact ha
      · exact hname
  map_inj := fun _ _ _ _ h => (Equiv.swap a b).injective h

/-! ## Texts around terms -/

/-- The character belongs to an operator. -/
def Operator.isChar (c : Char) : Bool := (ofChar? c).isSome || (ofDoubled? c).isSome

namespace Text

/-- The text before the first character of an operator, and each such character with the
text up to the next one. -/
def terms (t : Text) : Text × List (Char × Text) :=
  t.foldr (fun c pieces =>
    if Operator.isChar c then ([], (c, pieces.1) :: pieces.2)
    else (c :: pieces.1, pieces.2)) ([], [])

/-- Terms put together with the characters between them. -/
def ofTerms (first : Text) (others : List (Char × Text)) : Text :=
  first ++ others.flatMap fun piece => piece.1 :: piece.2

/-- Pieces put together with a separator between them. -/
def join (separator : Char) : Text → List Text → Text
  | first, [] => first
  | first, next :: rest => first ++ separator :: join separator next rest

end Text

namespace Renaming

variable (r : Renaming)

/-! ## Source text -/

/-- Symbols get their new name, everything else stays. -/
def name (t : Text) : Text := if isSymbol t then r.map t else t

/-- The text of an expression, renamed term by term. -/
def core (t : Text) : Text :=
  Text.ofTerms (r.name t.terms.1) (t.terms.2.map (Prod.map id r.name))

/-- An operand: its core is renamed and the punctuation stays. -/
def operand (t : Text) : Text :=
  let rest := t.trimStart.dropWhile OperandParts.isOpening
  t.takeWhile isBlank ++ t.trimStart.takeWhile OperandParts.isOpening ++
    r.core (rest.takeWhile OperandParts.isCore) ++ rest.dropWhile OperandParts.isCore

/-- The operand field of a directive, or of an instruction: literals stay, and so does what
nothing reads. -/
def field (d : Option Directive) (t : Text) : Text :=
  match d with
  | none | some .equ | some .org | some .ds => r.operand t
  | some .da => Text.join ',' (r.operand (t.cut ',').1) ((t.cut ',').2.map r.operand)
  | some (.data _) | some .chk | some (.skipped _) => t

/-- What follows a label: the mnemonic tells how the operand field is renamed. -/
def body (t : Text) : Text :=
  let rest := t.trimStart.afterWord
  t.takeWhile isBlank ++ t.trimStart.word ++ rest.takeWhile isBlank ++
    r.field (Directive.ofText? t.trimStart.word.upper) rest.trimStart

/-- A line without its comment: its label is renamed and what follows it. -/
def code (t : Text) : Text := r.name t.word ++ r.body t.afterWord

/-- A line: comments stay, and so does white space in front of them. -/
def line (t : Text) : Text :=
  if t.head? = some '*' then t
  else r.code (Line.stripComment t) ++ t.drop (Line.stripComment t).length

/-- A source text, line by line; the line ends stay. -/
def source (t : Text) : Text :=
  Text.join '\n' (r.line (t.cut '\n').1) ((t.cut '\n').2.map r.line)

/-! ## Names -/

theorem isSymbol_name (t : Text) : isSymbol (r.name t) = isSymbol t := by
  unfold name
  split
  · next h => rw [h, r.isSymbol_map t h]
  · rfl

theorem name_injective : Function.Injective r.name := by
  intro t u h
  have hsymbol : isSymbol t = isSymbol u := by rw [← r.isSymbol_name t, h, r.isSymbol_name]
  unfold name at h
  cases hu : isSymbol u with
  | true =>
    rw [hu] at hsymbol
    rw [if_pos hsymbol, if_pos hu] at h
    exact r.map_inj t u hsymbol hu h
  | false =>
    rw [hu] at hsymbol
    rwa [if_neg (by rw [hsymbol]; exact Bool.false_ne_true),
      if_neg (by rw [hu]; exact Bool.false_ne_true)] at h

/-! ## What is made from the text -/

def expr : Expr → Expr
  | .number value => .number value
  | .symbol name => .symbol (r.name name)
  | .accumulator => .accumulator
  | .binary op left right => .binary op (expr left) (expr right)

def argument (a : Argument) : Argument := ⟨r.core a.core, r.expr a.expr⟩

def reading : Reading → Reading
  | .nothing => .nothing
  | .data bytes => .data bytes
  | .instruction m wide argument => .instruction m wide (argument.map r.argument)
  | .equate name a => .equate (r.name name) (r.argument a)
  | .origin a => .origin (r.argument a)
  | .words arguments => .words (arguments.map r.argument)
  | .storage a => .storage (r.argument a)

/-- The names change, their order and their values do not. -/
def symbols (t : SymbolTable) : SymbolTable :=
  ⟨t.entries.map fun entry => (r.name entry.1, entry.2)⟩

def state (s : State) : State := { s with symbols := r.symbols s.symbols }

def effect : Effect → Effect
  | .nothing => .nothing
  | .emit bytes wide => .emit bytes wide
  | .bind name value => .bind (r.name name) value
  | .unbind name => .unbind (r.name name)
  | .relocate origin => .relocate origin

/-! ## Tables -/

theorem get?_symbols (t : SymbolTable) (name : Text) :
    (r.symbols t).get? (r.name name) = t.get? name := by
  obtain ⟨entries⟩ := t
  unfold SymbolTable.get? symbols
  induction entries with
  | nil => rfl
  | cons entry rest ih =>
    simp only [List.map_cons, SymbolTable.lookup_entry, r.name_injective.eq_iff]
    rw [ih]

theorem symbols_insert (t : SymbolTable) (name : Text) (value : Value) :
    r.symbols (t.insert name value) = (r.symbols t).insert (r.name name) value := by
  obtain ⟨entries⟩ := t
  refine congrArg SymbolTable.mk ?_
  dsimp only [SymbolTable.insert, symbols]
  induction entries with
  | nil => rfl
  | cons entry rest ih =>
    simp only [SymbolTable.bind, List.map_cons, r.name_injective.eq_iff]
    split
    · rfl
    · rw [List.map_cons, ih]

theorem symbols_erase (t : SymbolTable) (name : Text) :
    r.symbols (t.erase name) = (r.symbols t).erase (r.name name) := by
  refine congrArg SymbolTable.mk ?_
  dsimp only [SymbolTable.erase, symbols]
  rw [List.filter_map]
  refine congrArg (List.map _) (List.filter_congr fun entry _ => ?_)
  simp only [Function.comp_apply, ne_eq, r.name_injective.eq_iff]

/-! ## Values -/

theorem eval?_expr (e : Expr) (t : SymbolTable) :
    (r.expr e).eval? (r.symbols t) = e.eval? t := by
  induction e with
  | number value => rfl
  | symbol name => exact r.get?_symbols t name
  | accumulator => rfl
  | binary op left right ihl ihr =>
    rw [expr, Expr.eval?_binary, Expr.eval?_binary, ihl, ihr]

theorem value?_argument (a : Argument) (t : SymbolTable) :
    (r.argument a).value? (r.symbols t) = a.value? t :=
  r.eval?_expr a.expr t

theorem wordBytes_argument (a : Argument) (t : SymbolTable) :
    (r.argument a).wordBytes (r.symbols t) = a.wordBytes t := by
  unfold Argument.wordBytes
  rw [value?_argument]

/-! ## Effects -/

theorem bytes_effect (e : Effect) : (r.effect e).bytes = e.bytes := by
  cases e <;> rfl

theorem apply_effect (e : Effect) (n : Nat) (s : State) :
    (r.effect e).apply n (r.state s) = r.state (e.apply n s) := by
  cases e with
  | nothing => rfl
  | emit bytes wide => rfl
  | bind name value => simp only [effect, Effect.apply, state, symbols_insert]
  | unbind name => simp only [effect, Effect.apply, state, symbols_erase]
  | relocate origin => rfl

/-- A renamed line does in a renamed state what the line does, renamed. It fails alike. -/
theorem effect_reading (rd : Reading) (s : State) (site : Site) :
    (r.reading rd).effect (r.state s) site = r.effect <$> rd.effect s site := by
  cases rd with
  | nothing => rfl
  | data bytes => rfl
  | instruction m wide argument =>
    have hvalue : (argument.map r.argument).bind (Argument.value? · (r.symbols s.symbols)) =
        argument.bind (Argument.value? · s.symbols) := by
      cases argument with
      | none => rfl
      | some a => exact r.value?_argument a s.symbols
    dsimp only [reading, Reading.effect, state]
    rw [hvalue, ← LawfulFunctor.comp_map]
    rfl
  | equate name a =>
    dsimp only [reading, Reading.effect, state]
    rw [value?_argument]
    cases a.value? s.symbols <;> rfl
  | origin a =>
    dsimp only [reading, Reading.effect, state]
    rw [value?_argument]
    cases a.value? s.symbols <;> rfl
  | words arguments =>
    refine congrArg (fun bytes => Except.ok (Effect.emit bytes false)) ?_
    rw [List.flatMap_map]
    exact List.flatMap_congr fun a _ => r.wordBytes_argument a s.symbols
  | storage a =>
    dsimp only [reading, Reading.effect, state]
    rw [value?_argument]
    cases a.value? s.symbols with
    | none => rfl
    | some n =>
      dsimp only
      split <;> rfl

end Renaming

end Asm65
