-- SUMMARY: The words of expressions are those of their exact values, although arithmetic wraps on the way.
import Asm65.Proofs.Encoding
import Asm65.Proofs.Fault
import Asm65.Proofs.Grammar
import Asm65.Proofs.RenamedLine
import Asm65.Proofs.WrittenLine
import Mathlib.Data.Int.ModEq

/-!
# Words

Arithmetic wraps at 32 bits after every operator, and a word keeps sixteen bits of what is left
in the end. Sums, differences, products and shifts to the left carry from low bits to high ones
and never back. So a value stays congruent to the one over the integers all along a chain, and
its word is that of the exact value. Quotients and shifts to the right bring high bits down.
-/
namespace Asm65

/-- The low sixteen bits of an integer, low byte first. -/
def wordOf (n : Int) : List UInt8 :=
  let word := (n % 65536).toNat
  [UInt8.ofNat (word % 256), UInt8.ofNat (word / 256)]

namespace Value

/-- A word tells values modulo 2^16 only. -/
theorem wordBytes_of_modEq {v : Value} {n : Int} (h : v.toInt ≡ n [ZMOD 2 ^ 32]) :
    v.wordBytes = wordOf n := by
  have hmod : v.toInt % 65536 = n % 65536 := h.of_dvd (by decide)
  have hlow := toNat_lowByte v
  have hhigh := toNat_highByte v
  have hlowByte : v.lowByte = UInt8.ofNat ((n % 65536).toNat % 256) := by
    apply UInt8.toNat_inj.mp
    rw [UInt8.toNat_ofNat']
    omega
  have hhighByte : v.highByte = UInt8.ofNat ((n % 65536).toNat / 256) := by
    apply UInt8.toNat_inj.mp
    rw [UInt8.toNat_ofNat']
    omega
  rw [wordBytes, wordOf, hlowByte, hhighByte]

/-- The bits of a value as a natural number. -/
theorem toNat_toBitVec_modEq (v : Value) :
    (v.toBitVec.toNat : Int) ≡ v.toInt [ZMOD 2 ^ 32] := by
  have hvalue : v.toInt = (v.toBitVec.toNat : Int).bmod (2 ^ 32) :=
    v.toBitVec.toInt_eq_toNat_bmod
  rw [hvalue]
  exact Int.bmod_emod.symm

/-- A shift takes its count modulo 32, which changes no count that is allowed. -/
theorem toNat_count {v : Value} (hlow : 0 ≤ v.toInt) (hhigh : v.toInt ≤ 31) :
    (v.toBitVec.smod 32).toNat = v.toInt.toNat := by
  have hsign : v.toBitVec.msb = false := by
    rw [BitVec.msb_eq_toInt]
    exact decide_eq_false (Int.not_lt.mpr hlow)
  have hsign32 : (32 : BitVec 32).msb = false := rfl
  have hvalue : v.toInt = v.toBitVec.toNat := BitVec.toInt_eq_toNat_of_msb hsign
  have hsmall : v.toBitVec.toNat < 32 := by omega
  rw [BitVec.toNat_smod, hsign, hsign32, hvalue]
  exact Nat.mod_eq_of_lt hsmall

/-- A shift to the left is a product that wraps. -/
theorem toInt_shiftLeft_modEq {left right : Value} (hlow : 0 ≤ right.toInt)
    (hhigh : right.toInt ≤ 31) :
    (left <<< right).toInt ≡ left.toInt * 2 ^ right.toInt.toNat [ZMOD 2 ^ 32] := by
  have hproduct : (left <<< right).toInt =
      ((left.toBitVec.toNat : Int) * 2 ^ right.toInt.toNat).bmod (2 ^ 32) := by
    have hshift : (left <<< right).toInt =
        (left.toBitVec <<< (right.toBitVec.smod 32).toNat).toInt := rfl
    rw [hshift, toNat_count hlow hhigh, BitVec.toInt_shiftLeft, Nat.shiftLeft_eq]
    simp
  have hwrap : ((left.toBitVec.toNat : Int) * 2 ^ right.toInt.toNat).bmod (2 ^ 32) ≡
      (left.toBitVec.toNat : Int) * 2 ^ right.toInt.toNat [ZMOD 2 ^ 32] := Int.bmod_emod
  rw [hproduct]
  exact hwrap.trans ((toNat_toBitVec_modEq left).mul_right _)

end Value

/-! ## Operators over the integers -/

namespace Operator

/-- The value of an operator where nothing wraps. -/
def exact : Operator → Int → Int → Int
  | add, a, b => a + b
  | sub, a, b => a - b
  | mul, a, b => a * b
  | div, a, b => a.tdiv b
  | shl, a, b => a * 2 ^ b.toNat
  | shr, a, b => a / 2 ^ b.toNat

/-- The low bits of the value hang on the low bits of the left operand. -/
def isModular : Operator → Bool
  | add | sub | mul | shl => true
  | div | shr => false

/-- One operator keeps the value congruent to the exact one. -/
theorem exists_eval?_of_isModular {op : Operator} (h : op.isModular) {left right : Value} {a : Int}
    (hleft : left.toInt ≡ a [ZMOD 2 ^ 32])
    (hcount : op = shl → 0 ≤ right.toInt ∧ right.toInt ≤ 31) :
    ∃ v, op.eval? left right = some v ∧ v.toInt ≡ op.exact a right.toInt [ZMOD 2 ^ 32] := by
  have hwrap (n : Int) : n.bmod (2 ^ 32) ≡ n [ZMOD 2 ^ 32] := Int.bmod_emod
  cases op with
  | add =>
    refine ⟨left + right, rfl, ?_⟩
    rw [Int32.toInt_add]
    exact (hwrap _).trans (hleft.add_right _)
  | sub =>
    refine ⟨left - right, rfl, ?_⟩
    rw [Int32.toInt_sub]
    exact (hwrap _).trans (hleft.sub_right _)
  | mul =>
    refine ⟨left * right, rfl, ?_⟩
    rw [Int32.toInt_mul]
    exact (hwrap _).trans (hleft.mul_right _)
  | shl =>
    obtain ⟨hlow, hhigh⟩ := hcount rfl
    have hdefined : 0 ≤ right ∧ right < 32 := by
      rw [Int32.le_iff_toInt_le, Int32.lt_iff_toInt_lt]
      exact ⟨hlow, Int.lt_of_le_of_lt hhigh (by decide)⟩
    exact ⟨left <<< right, if_pos hdefined,
      (Value.toInt_shiftLeft_modEq hlow hhigh).trans (hleft.mul_right _)⟩
  | div => cases h
  | shr => cases h

end Operator

/-! ## Chains over the integers -/

namespace Expr

variable {symbols : SymbolTable}

/-- The value of a term: a number is worth itself, and a symbol what it is bound to. -/
def Term.value? (term : Term) (symbols : SymbolTable) : Option Value :=
  match term.expr with
  | number v => some v
  | symbol name => symbols.get? name
  | _ => none

theorem Term.eval?_expr (term : Term) : term.expr.eval? symbols = term.value? symbols := by
  obtain ⟨text, expr, denotes⟩ := term
  cases denotes <;> rfl

/-- The value of a term that has one, as an integer. -/
def Term.exact (term : Term) (symbols : SymbolTable) : Int :=
  ((term.value? symbols).getD 0).toInt

/-- A literal is worth the number that it spells. -/
theorem Term.exact_number {t : Text} {n : Nat} (h : Number.IsLiteral t n)
    (hn : n < Number.bound) : Term.exact ⟨t, _, .number h hn⟩ symbols = n :=
  Int32.toInt_ofNat_of_lt hn

theorem Term.exists_value {term : Term} (h : (term.value? symbols).isSome) :
    ∃ v, term.expr.eval? symbols = some v ∧ v.toInt = term.exact symbols := by
  obtain ⟨v, hv⟩ := Option.isSome_iff_exists.mp h
  refine ⟨v, term.eval?_expr.trans hv, ?_⟩
  rw [Term.exact, hv, Option.getD_some]

/-- The link goes on with an operator that keeps to the low bits, and with a term that has a
value, between 0 and 31 if it is the count of a shift. -/
structure Link.IsModular (link : Link) (symbols : SymbolTable) : Prop where
  operator : link.op.isModular
  value : (link.term.value? symbols).isSome
  count : link.op = .shl → 0 ≤ link.term.exact symbols ∧ link.term.exact symbols ≤ 31

instance (link : Link) : Decidable (link.IsModular symbols) :=
  decidable_of_iff
    (link.op.isModular ∧ (link.term.value? symbols).isSome ∧
      (link.op = .shl → 0 ≤ link.term.exact symbols ∧ link.term.exact symbols ≤ 31))
    ⟨fun ⟨operator, value, count⟩ => ⟨operator, value, count⟩,
      fun h => ⟨h.operator, h.value, h.count⟩⟩

namespace Spelling

/-- An expression without white space, of terms with values and of operators that keep to the low
bits. -/
structure IsModular (s : Spelling) (symbols : SymbolTable) : Prop where
  tight : ∀ c ∈ s.text, isBlank c = false
  first : (s.first.value? symbols).isSome
  links : ∀ link ∈ s.links, link.IsModular symbols

instance (s : Spelling) : Decidable (s.IsModular symbols) :=
  decidable_of_iff
    (s.text.all (fun c => !isBlank c) ∧ (s.first.value? symbols).isSome ∧
      s.links.all fun link => link.IsModular symbols)
    ⟨fun ⟨tight, first, links⟩ => ⟨by simpa using tight, first, by simpa using links⟩,
      fun h => ⟨by simpa using h.tight, h.first, by simpa using h.links⟩⟩

/-- The value of a chain where nothing wraps, from left to right. -/
def exact (s : Spelling) (symbols : SymbolTable) : Int :=
  s.links.foldl (fun left link => link.op.exact left (link.term.exact symbols))
    (s.first.exact symbols)

end Spelling

theorem Link.IsModular.exists_eval? {link : Link} (h : link.IsModular symbols) {left : Expr}
    {l : Value} {a : Int} (hl : left.eval? symbols = some l) (ha : l.toInt ≡ a [ZMOD 2 ^ 32]) :
    ∃ v, (binary link.op left link.term.expr).eval? symbols = some v ∧
      v.toInt ≡ link.op.exact a (link.term.exact symbols) [ZMOD 2 ^ 32] := by
  obtain ⟨r, hr, hright⟩ := Term.exists_value h.value
  have hcount := h.count
  rw [← hright] at hcount ⊢
  obtain ⟨v, hv, hmod⟩ := Operator.exists_eval?_of_isModular h.operator ha hcount
  refine ⟨v, ?_, hmod⟩
  rw [eval?_binary, hl, hr]
  exact hv

/-- However long a chain is, its value is congruent to the exact one. -/
theorem exists_eval?_links {links : List Link} (h : ∀ link ∈ links, link.IsModular symbols)
    {left : Expr} {l : Value} {a : Int} (hl : left.eval? symbols = some l)
    (ha : l.toInt ≡ a [ZMOD 2 ^ 32]) :
    ∃ v, (links.foldl (fun left link => .binary link.op left link.term.expr) left).eval?
        symbols = some v ∧
      v.toInt ≡ links.foldl (fun left link => link.op.exact left (link.term.exact symbols)) a
        [ZMOD 2 ^ 32] := by
  induction links generalizing left l a with
  | nil => exact ⟨l, hl, ha⟩
  | cons link links ih =>
    obtain ⟨hlink, hlinks⟩ := List.forall_mem_cons.mp h
    obtain ⟨v, hv, hmod⟩ := hlink.exists_eval? hl ha
    exact ih hlinks hv hmod

theorem Spelling.IsModular.exists_eval? {s : Spelling} (h : s.IsModular symbols) :
    ∃ v, s.tree.eval? symbols = some v ∧ v.toInt ≡ s.exact symbols [ZMOD 2 ^ 32] := by
  obtain ⟨v, hv, hexact⟩ := Term.exists_value h.first
  exact exists_eval?_links h.links hv (congrArg (· % 2 ^ 32) hexact)

end Expr

/-! ## Chains as operands -/

theorem Operator.isCore_symbol (op : Operator) : ∀ c ∈ op.symbol.toList, OperandParts.isCore c := by
  cases op <;> simp [symbol, OperandParts.isCore]

namespace Expr

theorem Denotes.isCore {t : Text} {e : Expr} (h : Denotes t e) :
    ∀ c ∈ t, OperandParts.isCore c := by
  intro c hc
  rcases h.chars c hc with rfl | rfl | hname
  · rfl
  · rfl
  · exact OperandParts.isCore_of_isNameChar hname

namespace Spelling

variable {s : Spelling}

/-- Without white space an expression is a core. -/
theorem isCore_text (tight : ∀ c ∈ s.text, isBlank c = false) :
    ∀ c ∈ s.text, OperandParts.isCore c := by
  have hblanks (b : Blanks) {c : Char} (hc : c ∈ b.val) : isBlank c ∨ OperandParts.isCore c :=
    .inl (b.isBlank c hc)
  have hterm (term : Term) {c : Char} (hc : c ∈ term.text) :
      isBlank c ∨ OperandParts.isCore c :=
    .inr (term.denotes.isCore c hc)
  have hlink (link : Link) {c : Char} (hc : c ∈ link.text) :
      isBlank c ∨ OperandParts.isCore c := by
    simp only [Link.text, List.mem_append] at hc
    rcases hc with ((hbefore | hop) | hafter) | hright
    · exact hblanks link.before hbefore
    · exact .inr (link.op.isCore_symbol c hop)
    · exact hblanks link.after hafter
    · exact hterm link.term hright
  intro c hc
  refine Or.resolve_left ?_ (Bool.eq_false_iff.mp (tight c hc))
  simp only [text, List.mem_append, List.mem_flatMap] at hc
  rcases hc with ((hleading | hfirst) | ⟨link, -, hc⟩) | htrailing
  · exact hblanks s.leading hleading
  · exact hterm s.first hfirst
  · exact hlink link hc
  · exact hblanks s.trailing htrailing

theorem text_ne_nil (s : Spelling) : s.text ≠ [] := by
  simp [text, s.first.denotes.ne_nil]

/-- The expression as the operand of a directive. -/
def argument (s : Spelling) : Argument := ⟨s.text, s.tree⟩

theorem ofText_text (tight : ∀ c ∈ s.text, isBlank c = false) :
    Argument.ofText s.text = .ok s.argument := by
  have hparts := OperandParts.ofText_core s.text_ne_nil (isCore_text tight)
  rw [Argument.ofText, hparts]
  change Argument.ofCore s.text = _
  rw [Argument.ofCore, s.parse_text]
  rfl

theorem mapM_ofText {sums : List Spelling}
    (tight : ∀ sum ∈ sums, ∀ c ∈ sum.text, isBlank c = false) :
    (sums.map text).mapM Argument.ofText = .ok (sums.map argument) := by
  induction sums with
  | nil => rfl
  | cons sum sums ih =>
    obtain ⟨hsum, hsums⟩ := List.forall_mem_cons.mp tight
    rw [List.map_cons, List.mapM_cons, ofText_text hsum, ih hsums]
    rfl

theorem IsModular.wordBytes {symbols : SymbolTable} (h : s.IsModular symbols) :
    s.argument.wordBytes symbols = wordOf (s.exact symbols) := by
  obtain ⟨v, hv, hmod⟩ := h.exists_eval?
  have hvalue : s.argument.value? symbols = some v := hv
  rw [Argument.wordBytes, hvalue, Option.getD_some, Value.wordBytes_of_modEq hmod]

end Spelling

end Expr

/-! ## A line of words -/

namespace Line

/-- The source of a line without a label for the words of expressions. -/
def ofWords (first : Expr.Spelling) (rest : List Expr.Spelling) : Text :=
  " DA ".toList ++ Text.join ',' first.text (rest.map Expr.Spelling.text)

variable {first : Expr.Spelling} {rest : List Expr.Spelling}

theorem parse_ofWords (tight : ∀ sum ∈ first :: rest, ∀ c ∈ sum.text, isBlank c = false) :
    parse (ofWords first rest) = ⟨none, .ok (.directive .da
      (some (Text.join ',' first.text (rest.map Expr.Spelling.text))))⟩ := by
  have hmnemonic : IsToken "DA".toList := .of_symbol (by decide)
  have hpieces : ∀ piece ∈ (first :: rest).map Expr.Spelling.text, IsToken piece := by
    intro piece hpiece
    obtain ⟨sum, hsum, rfl⟩ := List.mem_map.mp hpiece
    exact .of_core sum.text_ne_nil (Expr.Spelling.isCore_text (tight sum hsum))
  exact parse_unlabelled hmnemonic (IsToken.join hpieces).isOperandText

/-- The expressions are found again between the commas. -/
theorem reading_ofWords (tight : ∀ sum ∈ first :: rest, ∀ c ∈ sum.text, isBlank c = false) :
    (parse (ofWords first rest)).reading =
      .ok (.words ((first :: rest).map Expr.Spelling.argument)) := by
  have hcomma : ∀ piece ∈ (first :: rest).map Expr.Spelling.text, ',' ∉ piece := by
    intro piece hpiece hc
    obtain ⟨sum, hsum, rfl⟩ := List.mem_map.mp hpiece
    cases Expr.Spelling.isCore_text (tight sum hsum) ',' hc
  obtain ⟨hfirst, hrest⟩ := List.forall_mem_cons.mp hcomma
  have hsplit : (Text.join ',' first.text (rest.map Expr.Spelling.text)).splitOn ',' =
      (first :: rest).map Expr.Spelling.text := by
    rw [Text.splitOn, Text.cut_join hfirst hrest]
    rfl
  rw [parse_ofWords tight]
  simp only [reading, Reading.ofDirective, hsplit, Expr.Spelling.mapM_ofText tight]
  rfl

end Line

/-! ## Words of chains -/

namespace State

variable {s : State} {first : Expr.Spelling} {rest : List Expr.Spelling}

theorem attempt_ofWords (site : Site)
    (modular : ∀ sum ∈ first :: rest, sum.IsModular s.symbols) :
    s.attempt site (Line.parse (Line.ofWords first rest)) =
      .ok (.emit ((first :: rest).flatMap fun sum => wordOf (sum.exact s.symbols))
        false) := by
  have tight := fun sum hsum => (modular sum hsum).tight
  have hsymbols : (s.labelled site (Line.parse (Line.ofWords first rest))).symbols =
      s.symbols := by
    rw [symbols_labelled, Line.parse_ofWords tight]
    rfl
  have hwords : ((first :: rest).map Expr.Spelling.argument).flatMap
      (Argument.wordBytes · s.symbols) =
        (first :: rest).flatMap fun sum => wordOf (sum.exact s.symbols) := by
    rw [List.flatMap_map]
    exact List.flatMap_congr fun sum hsum => (modular sum hsum).wordBytes
  rw [attempt_of_reading (Line.reading_ofWords tight), Reading.effect, hsymbols, hwords]

/-- Every chain has a value, so there is nothing to report. -/
theorem diagnostics_ofWords (site : Site)
    (modular : ∀ sum ∈ first :: rest, sum.IsModular s.symbols) :
    Event.diagnostics (s.step site (Line.ofWords first rest)).events = [] := by
  have tight := fun sum hsum => (modular sum hsum).tight
  have hlabel : (Line.parse (Line.ofWords first rest)).addressLabel? = none := by
    rw [Line.parse_ofWords tight]
    rfl
  have hvalues : ∀ a ∈ (first :: rest).map Expr.Spelling.argument,
      (a.value? s.symbols).isSome := by
    intro a ha
    obtain ⟨sum, hsum, rfl⟩ := List.mem_map.mp ha
    obtain ⟨v, hv, -⟩ := (modular sum hsum).exists_eval?
    exact Option.isSome_of_eq_some hv
  rw [diagnostics_of_values site hlabel (Line.reading_ofWords tight) hvalues,
    attempt_ofWords site modular]

end State

/-- A line of chains, in any state and either pass: it emits the words of their exact values in
order, two bytes for each chain, and has nothing to report. -/
theorem State.words_exact (s : State) (site : Site) (first : Expr.Spelling)
    (rest : List Expr.Spelling) (modular : ∀ sum ∈ first :: rest, sum.IsModular s.symbols) :
    let outcome := s.step site (Line.ofWords first rest)
    outcome.bytes = (first :: rest).flatMap (fun sum => wordOf (sum.exact s.symbols)) ∧
      outcome.bytes.length = 2 * (first :: rest).length ∧
      Event.diagnostics outcome.events = [] := by
  intro outcome
  have hbytes : outcome.bytes =
      (first :: rest).flatMap (fun sum => wordOf (sum.exact s.symbols)) := by
    refine (s.bytes_step site _).trans ?_
    rw [action, attempt_ofWords site modular]
    rfl
  refine ⟨hbytes, ?_, diagnostics_ofWords site modular⟩
  rw [hbytes, List.length_flatMap]
  simp only [wordOf, List.length_cons, List.length_nil, List.map_const',
    List.sum_replicate_nat]
  omega

/-- A product of more than 32 bits, shifted further up, and a negative difference. -/
theorem State.large_words_exact :
    let s : State := { State.initial 0x8000 with
      symbols := (SymbolTable.empty.insert "BIG".toList 65535).insert "NEG".toList (-3) }
    let big : Expr.Term := ⟨"BIG".toList, _, .symbol rfl⟩
    let neg : Expr.Term := ⟨"NEG".toList, _, .symbol rfl⟩
    let two : Expr.Term := ⟨"2".toList, _, .number (.decimal (.digit rfl)) (by decide)⟩
    let link (op : Operator) (term : Expr.Term) : Expr.Link := ⟨⟨[], rfl⟩, op, ⟨[], rfl⟩, term⟩
    let shifted : Expr.Spelling :=
      ⟨⟨[], rfl⟩, big, [link .mul big, link .mul big, link .shl two], ⟨[], rfl⟩⟩
    let difference : Expr.Spelling := ⟨⟨[], rfl⟩, neg, [link .sub two], ⟨[], rfl⟩⟩
    let outcome := s.step ⟨.second, 1⟩ (Line.ofWords shifted [difference])
    Line.ofWords shifted [difference] = " DA BIG*BIG*BIG<<2,NEG-2".toList ∧
      (∀ sum ∈ [shifted, difference], sum.IsModular s.symbols) ∧
      outcome.bytes = [0xFC, 0xFF, 0xFB, 0xFF] ∧ Event.diagnostics outcome.events = [] := by
  intro s big neg two link shifted difference outcome
  have hshifted : shifted.IsModular s.symbols := by decide
  have hdifference : difference.IsModular s.symbols := by decide
  have modular : ∀ sum ∈ [shifted, difference], sum.IsModular s.symbols := by
    simp only [List.forall_mem_cons]
    exact ⟨hshifted, hdifference, List.forall_mem_nil _⟩
  obtain ⟨hbytes, -, hdiagnostics⟩ := s.words_exact ⟨.second, 1⟩ shifted [difference] modular
  refine ⟨by decide, modular, ?_, hdiagnostics⟩
  exact hbytes.trans (by decide)

end Asm65
