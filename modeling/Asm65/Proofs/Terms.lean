-- SUMMARY: Expressions are scanned term by term, so that renaming the text renames the tree.
import Asm65.Proofs.Fields
import Asm65.Proofs.Renaming

/-!
# Terms

The scan of an expression looks at a term only to see whether there is one, and where it
ends. So it takes the same decisions on a text and on its renaming, and it finds terms that
are renamed each on its own. A text that is no expression stays one, possibly with another
error.
-/
namespace Asm65

/-- The character belongs to a term: it is of no operator and no white space. -/
def isTermChar (c : Char) : Bool := !Operator.isChar c && !isBlank c

theorem isBlank_of_isTermChar {c : Char} (h : isTermChar c) : isBlank c = false := by
  simp only [isTermChar, Bool.and_eq_true, Bool.not_eq_true'] at h
  exact h.2

theorem toNat_of_isAlpha {c : Char} (h : c.isAlpha) :
    65 ≤ c.toNat ∧ c.toNat ≤ 90 ∨ 97 ≤ c.toNat ∧ c.toNat ≤ 122 := by
  rcases Bool.or_eq_true_iff.mp h with hupper | hlower
  · exact .inl (of_decide_eq_true hupper)
  · obtain ⟨hlow, hhigh⟩ := Bool.and_eq_true_iff.mp hlower
    exact .inr ⟨of_decide_eq_true hlow, of_decide_eq_true hhigh⟩

theorem toNat_of_isDigit {c : Char} (h : c.isDigit) : 48 ≤ c.toNat ∧ c.toNat ≤ 57 := by
  obtain ⟨hlow, hhigh⟩ := Bool.and_eq_true_iff.mp h
  exact ⟨of_decide_eq_true hlow, of_decide_eq_true hhigh⟩

theorem isBlank_of_isNameChar {c : Char} (h : Expr.isNameChar c) : isBlank c = false := by
  have hcode : 33 ≤ c.toNat ∧ c.toNat < 0x85 := by
    rcases Bool.or_eq_true_iff.mp h with halphanum | hunderscore
    · rcases Bool.or_eq_true_iff.mp halphanum with halpha | hdigit
      · have := toNat_of_isAlpha halpha
        omega
      · have := toNat_of_isDigit hdigit
        omega
    · rw [beq_iff_eq.mp hunderscore]
      decide
  simp [isBlank, blankRanges]
  omega

theorem Operator.mem_of_isChar {c : Char} (h : isChar c) :
    c ∈ ['+', '-', '*', '/', '<', '>'] := by
  unfold isChar ofChar? ofDoubled? at h
  split at h
  · decide
  · decide
  · decide
  · decide
  · split at h
    · decide
    · decide
    · cases h

theorem Operator.isBlank_of_isChar {c : Char} (h : isChar c) : isBlank c = false := by
  have hmem := mem_of_isChar h
  simp only [List.mem_cons, List.not_mem_nil, or_false] at hmem
  rcases hmem with rfl | rfl | rfl | rfl | rfl | rfl <;> rfl

theorem Operator.exists_of_isChar {c : Char} (h : isChar c) (hsingle : ofChar? c = none) :
    ∃ op, ofDoubled? c = some op := by
  rw [isChar, hsingle, Option.isSome_none, Bool.false_or] at h
  exact Option.isSome_iff_exists.mp h

theorem isTermChar_of_isNameChar {c : Char} (h : Expr.isNameChar c) : isTermChar c := by
  have hoperator : Operator.isChar c = false := by
    refine Bool.eq_false_iff.mpr fun ho => ?_
    have hmem := Operator.mem_of_isChar ho
    simp only [List.mem_cons, List.not_mem_nil, or_false] at hmem
    rcases hmem with rfl | rfl | rfl | rfl | rfl | rfl <;> cases h
  unfold isTermChar
  rw [hoperator, isBlank_of_isNameChar h]
  rfl

theorem isNameChar_of_isNameStart {c : Char} (h : Expr.isNameStart c) : Expr.isNameChar c := by
  unfold Expr.isNameStart at h
  unfold Expr.isNameChar Char.isAlphanum
  rw [Bool.or_right_comm, h, Bool.true_or]

theorem isNameChar_of_isSymbol {t : Text} (h : isSymbol t) : ∀ c ∈ t, Expr.isNameChar c := by
  unfold isSymbol at h
  rw [Bool.and_eq_true] at h
  cases t with
  | nil => exact List.forall_mem_nil _
  | cons c rest =>
    obtain ⟨hc, hrest⟩ := Bool.and_eq_true_iff.mp h.1
    exact List.forall_mem_cons.mpr ⟨isNameChar_of_isNameStart hc, List.all_eq_true.mp hrest⟩

namespace Text

/-! ## Terms of a text -/

theorem terms_cons (c : Char) (t : Text) :
    terms (c :: t) =
      if Operator.isChar c then ([], (c, t.terms.1) :: t.terms.2)
      else (c :: t.terms.1, t.terms.2) := rfl

theorem ofTerms_terms (t : Text) : ofTerms t.terms.1 t.terms.2 = t := by
  induction t with
  | nil => rfl
  | cons c t ih =>
    rw [terms_cons]
    split
    · exact congrArg (c :: ·) ih
    · exact congrArg (c :: ·) ih

theorem ofTerms_concat (first : Text) (others : List (Char × Text)) (o : Char) (term : Text) :
    ofTerms first (others ++ [(o, term)]) = ofTerms first others ++ o :: term := by
  unfold ofTerms
  rw [List.flatMap_append, List.append_assoc, List.flatMap_singleton]

/-- Terms with operators between them. -/
structure AreTerms (first : Text) (others : List (Char × Text)) : Prop where
  first : ∀ c ∈ first, isTermChar c
  operators : ∀ piece ∈ others, Operator.isChar piece.1
  others : ∀ piece ∈ others, ∀ c ∈ piece.2, isTermChar c

theorem areTerms_terms {t : Text} (h : ∀ c ∈ t, Asm65.isBlank c = false) :
    AreTerms t.terms.1 t.terms.2 := by
  induction t with
  | nil => exact ⟨List.forall_mem_nil _, List.forall_mem_nil _, List.forall_mem_nil _⟩
  | cons c t ih =>
    rw [List.forall_mem_cons] at h
    obtain ⟨hfirst, hoperators, hothers⟩ := ih h.2
    rw [terms_cons]
    split
    · next hc =>
      refine ⟨List.forall_mem_nil _, ?_, ?_⟩
      · exact List.forall_mem_cons.mpr ⟨hc, hoperators⟩
      · exact List.forall_mem_cons.mpr ⟨hfirst, hothers⟩
    · next hc =>
      refine ⟨?_, hoperators, hothers⟩
      refine List.forall_mem_cons.mpr ⟨?_, hfirst⟩
      unfold isTermChar
      rw [h.1, Bool.eq_false_iff.mpr hc]
      rfl

theorem AreTerms.of_concat {first : Text} {others : List (Char × Text)} {o : Char} {term : Text}
    (h : AreTerms first (others ++ [(o, term)])) :
    AreTerms first others ∧ Operator.isChar o ∧ ∀ c ∈ term, isTermChar c := by
  obtain ⟨hfirst, hoperators, hothers⟩ := h
  rw [List.forall_mem_append, List.forall_mem_singleton] at hoperators hothers
  exact ⟨⟨hfirst, hoperators.1, hothers.1⟩, hoperators.2, hothers.2⟩

theorem AreTerms.mono {first : Text} {others earlier : List (Char × Text)}
    (h : AreTerms first others) (hearlier : earlier <+: others) : AreTerms first earlier where
  first := h.first
  operators piece hpiece := h.operators piece (hearlier.subset hpiece)
  others piece hpiece := h.others piece (hearlier.subset hpiece)

theorem AreTerms.not_blank {first : Text} {others : List (Char × Text)}
    (h : AreTerms first others) : ∀ c ∈ ofTerms first others, Asm65.isBlank c = false := by
  intro c hc
  rcases List.mem_append.mp hc with hc | hc
  · exact isBlank_of_isTermChar (h.first c hc)
  · obtain ⟨piece, hpiece, hc⟩ := List.mem_flatMap.mp hc
    rcases List.mem_cons.mp hc with rfl | hc
    · exact Operator.isBlank_of_isChar (h.operators piece hpiece)
    · exact isBlank_of_isTermChar (h.others piece hpiece c hc)

end Text

namespace Expr

/-! ## One step of the scan -/

/-- Characters of a term are collected. -/
theorem scan_term {term : Text} (h : ∀ c ∈ term, isTermChar c) (before right : Text)
    (links : List (Operator × Text)) :
    scan (term.reverse ++ before) right links = scan before (term ++ right) links := by
  induction term generalizing before with
  | nil => rfl
  | cons c term ih =>
    rw [List.forall_mem_cons] at h
    rw [List.reverse_cons, List.append_assoc, ih h.2]
    have hc : Operator.isChar c = false ∧ isBlank c = false := by
      simpa [isTermChar] using h.1
    obtain ⟨hchar, hdoubled⟩ : Operator.ofChar? c = none ∧ Operator.ofDoubled? c = none := by
      simpa [Operator.isChar] using hc.1
    cases before with
    | nil => rfl
    | cons d before =>
      rw [List.singleton_append, scan, hchar, hdoubled]
      simp [hc.2]

theorem scan_first {term : Text} (h : ∀ c ∈ term, isTermChar c)
    (links : List (Operator × Text)) : scan term.reverse [] links = .ok ⟨term, links⟩ := by
  have hterm := scan_term h [] [] links
  rw [List.append_nil, List.append_nil] at hterm
  rw [hterm, scan]

variable {o : Char} {op : Operator} {before term : Text} {links : List (Operator × Text)}

/-- The very first character is no operator, even if it looks like one. -/
theorem scan_leading (o : Char) (term : Text) (links : List (Operator × Text)) :
    scan [o] term links = .ok ⟨o :: term, links⟩ := rfl

/-- An operator of one character ends a term. -/
theorem scan_single (h : Operator.ofChar? o = some op) (hbefore : before ≠ []) :
    scan (o :: before.reverse) term links =
      if term = [] then .error (.missingOperand (before ++ [o]))
      else scan before.reverse [] ((op, term.trimStart) :: links) := by
  obtain ⟨init, d, rfl⟩ := (List.eq_nil_or_concat' before).resolve_left hbefore
  rw [List.reverse_append, List.reverse_singleton, List.singleton_append, scan, h]
  simp

/-- So does one that is a character written twice, -/
theorem scan_doubled (hsingle : Operator.ofChar? o = none)
    (h : Operator.ofDoubled? o = some op) (hbefore : before ≠ []) :
    scan (o :: (before ++ [o]).reverse) term links =
      if term = [] then .error (.missingOperand (before ++ [o, o]))
      else scan before.reverse [] ((op, term.trimStart) :: links) := by
  rw [List.reverse_append, List.reverse_singleton, List.singleton_append, scan, hsingle, h]
  simp [hbefore]

/-- and such a character alone is an error. -/
theorem scan_lone (hsingle : Operator.ofChar? o = none) (h : Operator.ofDoubled? o = some op)
    {d : Char} (hd : d = o → before = []) :
    ∃ e, scan (o :: (before ++ [d]).reverse) term links = .error e := by
  rw [List.reverse_append, List.reverse_singleton, List.singleton_append, scan, hsingle, h]
  have hcond : ¬(d = o ∧ before.reverse ≠ []) := by
    rintro ⟨heq, hne⟩
    exact hne (by rw [hd heq, List.reverse_nil])
  exact ⟨_, if_neg hcond⟩

end Expr

theorem ne_nil_of_isSymbol {t : Text} (h : isSymbol t) : t ≠ [] := by
  rintro rfl
  cases h

/-! ## Terms -/

namespace Expr

/-- No number starts like a name. -/
theorem detect?_of_isNameStart {c : Char} (h : isNameStart c) (rest : Text) :
    NumberFormat.detect? (c :: rest) = none := by
  have hdigit : c.isDigit = false := by
    refine Bool.eq_false_iff.mpr fun hdigit => ?_
    have hcode := toNat_of_isDigit hdigit
    rcases Bool.or_eq_true_iff.mp h with halpha | hunderscore
    · have := toNat_of_isAlpha halpha
      omega
    · rw [beq_iff_eq.mp hunderscore] at hdigit
      cases hdigit
  unfold NumberFormat.detect?
  split
  · next hcons =>
    obtain ⟨rfl, -⟩ := List.cons.inj hcons
    cases h
  · next hcons =>
    obtain ⟨rfl, -⟩ := List.cons.inj hcons
    cases h
  · next hcons =>
    obtain ⟨rfl, -⟩ := List.cons.inj hcons
    rw [hdigit]
    rfl
  · rfl

theorem parseTerm_symbol {t : Text} (h : isSymbol t) : parseTerm t = .ok (.symbol t) := by
  obtain ⟨hname, hne⟩ := Bool.and_eq_true_iff.mp h
  cases t with
  | nil => cases hname
  | cons c rest =>
    have hformat : NumberFormat.detect? (c :: rest) = none :=
      detect?_of_isNameStart (Bool.and_eq_true_iff.mp hname).1 rest
    rw [parseTerm, if_neg (bne_iff_ne.mp hne), hformat, if_neg (by simp), if_pos hname]

/-- What starts with an operator is no term. -/
theorem parseTerm_operator {o : Char} (h : Operator.isChar o) (t : Text) :
    (parseTerm (o :: t)).toOption = none := by
  have hmem := Operator.mem_of_isChar h
  simp only [List.mem_cons, List.not_mem_nil, or_false] at hmem
  rcases hmem with rfl | rfl | rfl | rfl | rfl | rfl <;> rfl

/-- A term that is no symbol mentions none. -/
theorem parseTerm_cases {t : Text} {e : Expr} (h : parseTerm t = .ok e) :
    e = .accumulator ∨ (∃ value, e = .number value) ∨ isSymbol t := by
  unfold parseTerm at h
  split at h
  · cases h
    exact .inl rfl
  · next hne =>
    split at h
    · split at h
      · cases h
        exact .inr (.inl ⟨_, rfl⟩)
      · cases h
    · split at h
      · next hname =>
        refine .inr (.inr ?_)
        rw [isSymbol, hname, Bool.true_and]
        exact bne_iff_ne.mpr hne
      · cases h

/-! ## Chains -/

/-- A longer chain: the tree so far becomes the left side of the next operator. -/
def extend (left : Expr) (link : Operator × Text) : Except ExprError Expr := do
  let right ← parseTerm link.2
  return .binary link.1 left right

theorem ofChain_eq (chain : Chain) :
    ofChain chain = parseTerm chain.first >>= chain.links.foldlM extend := rfl

theorem toOption_bind {ε α β : Type} (x : Except ε α) (f : α → Except ε β) :
    (x >>= f).toOption = x.toOption.bind fun a => (f a).toOption := by
  cases x <;> rfl

end Expr

namespace Renaming

variable (r : Renaming)

theorem name_eq_nil_iff (t : Text) : r.name t = [] ↔ t = [] := by
  unfold name
  split
  · next h =>
    constructor
    · exact fun hnil => absurd hnil (ne_nil_of_isSymbol (r.isSymbol_map t h))
    · exact fun hnil => absurd hnil (ne_nil_of_isSymbol h)
  · rfl

theorem isTermChar_name {t : Text} (h : ∀ c ∈ t, isTermChar c) :
    ∀ c ∈ r.name t, isTermChar c := by
  unfold name
  split
  · next hsymbol =>
    intro c hc
    exact isTermChar_of_isNameChar (isNameChar_of_isSymbol (r.isSymbol_map t hsymbol) c hc)
  · exact h

theorem parseTerm_name (t : Text) :
    (Expr.parseTerm (r.name t)).toOption = (Expr.parseTerm t).toOption.map r.expr := by
  unfold name
  split
  · next h =>
    rw [Expr.parseTerm_symbol h, Expr.parseTerm_symbol (r.isSymbol_map t h)]
    simp [Except.toOption, expr, name, h]
  · next h =>
    cases hterm : Expr.parseTerm t with
    | error e => rfl
    | ok e =>
      rcases Expr.parseTerm_cases hterm with rfl | ⟨value, rfl⟩ | hsymbol
      · rfl
      · rfl
      · exact absurd hsymbol h

/-! ## Chains -/

theorem extend_renamed (left : Expr) (link : Operator × Text) :
    (Expr.extend (r.expr left) (Prod.map id r.name link)).toOption =
      (Expr.extend left link).toOption.map r.expr := by
  unfold Expr.extend
  rw [Expr.toOption_bind, Expr.toOption_bind, Prod.map_snd, parseTerm_name]
  cases (Expr.parseTerm link.2).toOption <;> rfl

theorem foldlM_renamed (links : List (Operator × Text)) (left : Expr) :
    ((links.map (Prod.map id r.name)).foldlM Expr.extend (r.expr left)).toOption =
      (links.foldlM Expr.extend left).toOption.map r.expr := by
  induction links generalizing left with
  | nil => rfl
  | cons link rest ih =>
    rw [List.map_cons, List.foldlM_cons, List.foldlM_cons, Expr.toOption_bind, Expr.toOption_bind,
      extend_renamed]
    cases (Expr.extend left link).toOption with
    | none => rfl
    | some next => exact ih next

theorem ofChain_renamed (first : Text) (links : List (Operator × Text)) :
    (Expr.ofChain ⟨r.name first, links.map (Prod.map id r.name)⟩).toOption =
      (Expr.ofChain ⟨first, links⟩).toOption.map r.expr := by
  rw [Expr.ofChain_eq, Expr.ofChain_eq, Expr.toOption_bind, Expr.toOption_bind, parseTerm_name]
  cases (Expr.parseTerm first).toOption with
  | none => rfl
  | some e => exact r.foldlM_renamed links e

end Renaming

/-- The tree of a chain that is scanned, none if that fails. -/
def Expr.scanned (before term : Text) (links : List (Operator × Text)) : Option Expr :=
  (scan before term links >>= ofChain).toOption

namespace Expr

theorem scanned_of_ok {before term : Text} {links : List (Operator × Text)} {chain : Chain}
    (h : scan before term links = .ok chain) :
    scanned before term links = (ofChain chain).toOption := by
  rw [scanned, h]
  rfl

theorem scanned_of_error {before term : Text} {links : List (Operator × Text)}
    (h : ∃ e, scan before term links = .error e) : scanned before term links = none := by
  obtain ⟨e, h⟩ := h
  rw [scanned, h]
  rfl

theorem scanned_term {term : Text} (h : ∀ c ∈ term, isTermChar c) (before : Text) (o : Char)
    (links : List (Operator × Text)) :
    scanned (before ++ o :: term).reverse [] links = scanned (o :: before.reverse) term links := by
  have hreverse : (before ++ o :: term).reverse = term.reverse ++ o :: before.reverse := by simp
  rw [scanned, hreverse, scan_term h, List.append_nil]
  rfl

theorem trimStart_of_term {term : Text} (h : ∀ c ∈ term, isTermChar c) :
    term.trimStart = term := by
  cases term with
  | nil => rfl
  | cons c rest =>
    have hc := isBlank_of_isTermChar (h c (List.mem_cons_self ..))
    exact List.dropWhile_cons_of_neg (by rw [hc]; exact Bool.false_ne_true)

section Operators

variable {o : Char} {op : Operator} {before term : Text}

theorem scanned_leading (ho : Operator.isChar o) (term : Text)
    (links : List (Operator × Text)) : scanned [o] term links = none := by
  rw [scanned_of_ok (scan_leading o term links), ofChain_eq, toOption_bind,
    parseTerm_operator ho]
  rfl

theorem scanned_single (h : Operator.ofChar? o = some op) (hbefore : before ≠ [])
    (hterm : ∀ c ∈ term, isTermChar c) (links : List (Operator × Text)) :
    scanned (o :: before.reverse) term links =
      if term = [] then none else scanned before.reverse [] ((op, term) :: links) := by
  unfold scanned
  rw [scan_single h hbefore, trimStart_of_term hterm]
  split <;> rfl

theorem scanned_doubled (hsingle : Operator.ofChar? o = none)
    (h : Operator.ofDoubled? o = some op) (hbefore : before ≠ [])
    (hterm : ∀ c ∈ term, isTermChar c) (links : List (Operator × Text)) :
    scanned (o :: (before ++ [o]).reverse) term links =
      if term = [] then none else scanned before.reverse [] ((op, term) :: links) := by
  unfold scanned
  rw [scan_doubled hsingle h hbefore, trimStart_of_term hterm]
  split <;> rfl

end Operators

/-- One of two characters that stands right behind a term stands alone. -/
theorem scanned_lone {o : Char} {op : Operator} (hsingle : Operator.ofChar? o = none)
    (h : Operator.ofDoubled? o = some op) (before : Text) {piece : Text} (hne : piece ≠ [])
    (hpiece : ∀ c ∈ piece, isTermChar c) (term : Text) (links : List (Operator × Text)) :
    scanned (o :: (before ++ piece).reverse) term links = none := by
  obtain ⟨init, d, rfl⟩ := (List.eq_nil_or_concat' piece).resolve_left hne
  have hd : d ≠ o := by
    rintro rfl
    have hterm : isTermChar d := hpiece d (by simp)
    simp [isTermChar, Operator.isChar, h] at hterm
  rw [← List.append_assoc]
  exact scanned_of_error (scan_lone hsingle h fun heq => absurd heq hd)

/-- The operator in front of the last term, and the pieces before it; none if the character
there is not read as an operator. -/
def link? (first : Text) (others : List (Char × Text)) (o : Char) :
    Option (Operator × List (Char × Text)) :=
  match Operator.ofChar? o, Operator.ofDoubled? o with
  | some op, _ => if Text.ofTerms first others = [] then none else some (op, others)
  | none, some op =>
    if others.getLast? = some (o, []) ∧ Text.ofTerms first others.dropLast ≠ [] then
      some (op, others.dropLast)
    else none
  | none, none => none

theorem isPrefix_of_link? {first : Text} {others earlier : List (Char × Text)} {o : Char}
    {op : Operator} (h : link? first others o = some (op, earlier)) : earlier <+: others := by
  unfold link? at h
  split at h
  · split at h
    · cases h
    · cases h
      exact List.prefix_rfl
  · split at h
    · cases h
      exact List.dropLast_prefix others
    · cases h
  · cases h

/-- The scan goes from the last term to the one before it. -/
theorem scanned_concat {first : Text} {others : List (Char × Text)} {o : Char} {term : Text}
    (h : Text.AreTerms first (others ++ [(o, term)])) (links : List (Operator × Text)) :
    scanned (Text.ofTerms first (others ++ [(o, term)])).reverse [] links =
      match link? first others o with
      | some (op, earlier) =>
        if term = [] then none
        else scanned (Text.ofTerms first earlier).reverse [] ((op, term) :: links)
      | none => none := by
  obtain ⟨hothers, ho, hterm⟩ := h.of_concat
  rw [Text.ofTerms_concat, scanned_term hterm, link?]
  cases hsingle : Operator.ofChar? o with
  | some op =>
    dsimp only
    by_cases hempty : Text.ofTerms first others = []
    · rw [if_pos hempty, hempty]
      exact scanned_leading ho term links
    · rw [if_neg hempty]
      exact scanned_single hsingle hempty hterm links
  | none =>
    obtain ⟨op, hdoubled⟩ := Operator.exists_of_isChar ho hsingle
    rw [hdoubled]
    dsimp only
    rcases List.eq_nil_or_concat' others with rfl | ⟨earlier, ⟨o₂, last⟩, rfl⟩
    · -- There is at most the first term before the character.
      rw [if_neg (by simp)]
      by_cases hempty : first = []
      · rw [hempty]
        exact scanned_leading ho term links
      · have hlone := scanned_lone hsingle hdoubled [] hempty h.first term links
        rwa [List.nil_append, ← List.append_nil first] at hlone
    · rw [List.getLast?_concat, List.dropLast_concat, Text.ofTerms_concat]
      by_cases hlast : last = []
      · -- Two characters in a row are one operator if they are the same.
        rw [hlast]
        by_cases hpair : o₂ = o ∧ Text.ofTerms first earlier ≠ []
        · obtain ⟨rfl, hne⟩ := hpair
          rw [if_pos ⟨rfl, hne⟩]
          exact scanned_doubled hsingle hdoubled hne hterm links
        · rw [if_neg (by simpa using hpair)]
          refine scanned_of_error (scan_lone hsingle hdoubled fun heq => ?_)
          exact not_not.mp fun hne => hpair ⟨heq, hne⟩
      · rw [if_neg (by simp [hlast]), List.append_cons]
        exact scanned_lone hsingle hdoubled _ hlast hothers.of_concat.2.2 term links

end Expr

namespace Renaming

variable (r : Renaming)

theorem areTerms_renamed {first : Text} {others : List (Char × Text)}
    (h : Text.AreTerms first others) :
    Text.AreTerms (r.name first) (others.map (Prod.map id r.name)) where
  first := r.isTermChar_name h.first
  operators := by
    intro piece hpiece
    obtain ⟨original, hmem, rfl⟩ := List.mem_map.mp hpiece
    exact h.operators original hmem
  others := by
    intro piece hpiece
    obtain ⟨original, hmem, rfl⟩ := List.mem_map.mp hpiece
    exact r.isTermChar_name (h.others original hmem)

theorem ofTerms_renamed_eq_nil_iff (first : Text) (others : List (Char × Text)) :
    Text.ofTerms (r.name first) (others.map (Prod.map id r.name)) = [] ↔
      Text.ofTerms first others = [] := by
  cases others with
  | nil =>
    simp only [Text.ofTerms, List.map_nil, List.flatMap_nil, List.append_nil]
    exact r.name_eq_nil_iff first
  | cons piece rest => simp [Text.ofTerms]

/-- The operators in a renamed text are those of the text. -/
theorem link?_renamed (first : Text) (others : List (Char × Text)) (o : Char) :
    Expr.link? (r.name first) (others.map (Prod.map id r.name)) o =
      (Expr.link? first others o).map (Prod.map id (List.map (Prod.map id r.name))) := by
  have hlast : (others.map (Prod.map id r.name)).getLast? = some (o, []) ↔
      others.getLast? = some (o, []) := by
    rw [List.getLast?_map]
    cases others.getLast? with
    | none => simp
    | some piece => simp [Prod.ext_iff, r.name_eq_nil_iff]
  unfold Expr.link?
  cases Operator.ofChar? o with
  | some op =>
    simp only [ofTerms_renamed_eq_nil_iff]
    split <;> rfl
  | none =>
    cases Operator.ofDoubled? o with
    | none => rfl
    | some op =>
      simp only [hlast, ← List.map_dropLast, ne_eq, ofTerms_renamed_eq_nil_iff]
      split <;> rfl

/-- Scanning a renamed text gives the renamed tree. -/
theorem scanned_ofTerms {first : Text} {others : List (Char × Text)}
    (h : Text.AreTerms first others) (links : List (Operator × Text)) :
    Expr.scanned (Text.ofTerms (r.name first) (others.map (Prod.map id r.name))).reverse []
        (links.map (Prod.map id r.name)) =
      (Expr.scanned (Text.ofTerms first others).reverse [] links).map r.expr := by
  have h' := r.areTerms_renamed h
  rcases List.eq_nil_or_concat' others with hnil | ⟨before, ⟨o, term⟩, hconcat⟩
  · have hfirst := Expr.scan_first h.first links
    have hfirst' := Expr.scan_first h'.first (links.map (Prod.map id r.name))
    simp only [hnil, Text.ofTerms, List.map_nil, List.flatMap_nil, List.append_nil]
    rw [Expr.scanned_of_ok hfirst, Expr.scanned_of_ok hfirst', ofChain_renamed]
  · rw [hconcat] at h h' ⊢
    rw [List.map_append, List.map_singleton, Prod.map_apply, id] at h' ⊢
    rw [Expr.scanned_concat h, Expr.scanned_concat h', link?_renamed]
    cases hlink : Expr.link? first before o with
    | none => rfl
    | some link =>
      obtain ⟨op, earlier⟩ := link
      have hearlier := Expr.isPrefix_of_link? hlink
      have hlength : earlier.length < others.length := by
        rw [hconcat, List.length_append, List.length_singleton]
        exact Nat.lt_succ_of_le hearlier.length_le
      dsimp only [Option.map_some, Prod.map_apply, id]
      by_cases hterm : term = []
      · rw [if_pos hterm, if_pos ((r.name_eq_nil_iff term).mpr hterm)]
        rfl
      · rw [if_neg hterm, if_neg (mt (r.name_eq_nil_iff term).mp hterm)]
        exact scanned_ofTerms (h.of_concat.1.mono hearlier) ((op, term) :: links)
termination_by others.length

/-! ## Expressions -/

theorem core_eq_nil_iff (t : Text) : r.core t = [] ↔ t = [] := by
  have hiff := r.ofTerms_renamed_eq_nil_iff t.terms.1 t.terms.2
  rwa [Text.ofTerms_terms] at hiff

theorem not_blank_core {t : Text} (h : ∀ c ∈ t, isBlank c = false) :
    ∀ c ∈ r.core t, isBlank c = false :=
  (r.areTerms_renamed (Text.areTerms_terms h)).not_blank

/-- An expression without white space is read as the renamed tree once it is renamed; and
what cannot be read cannot be read then. -/
theorem parse_core {t : Text} (h : ∀ c ∈ t, isBlank c = false) :
    (Expr.parse (r.core t)).toOption = (Expr.parse t).toOption.map r.expr := by
  unfold Expr.parse
  rw [Text.trim_of_not_blank h, Text.trim_of_not_blank (r.not_blank_core h)]
  by_cases hnil : t = []
  · rw [if_pos hnil, if_pos ((r.core_eq_nil_iff t).mpr hnil)]
    rfl
  · rw [if_neg hnil, if_neg ((r.core_eq_nil_iff t).not.mpr hnil)]
    have hscanned := r.scanned_ofTerms (Text.areTerms_terms h) []
    rwa [Text.ofTerms_terms] at hscanned

end Renaming

end Asm65
