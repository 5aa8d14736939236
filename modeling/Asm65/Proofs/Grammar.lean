-- SUMMARY: The grammar of expressions, read forwards, is exactly what the reader accepts.
import Asm65.Proofs.NumberLiterals
import Asm65.Proofs.Terms

/-!
# The grammar of expressions

An expression is a term and then any number of links, each an operator and a term, with white
space at both ends and around the operators. It denotes the tree that takes in the links one
after the other, so that every right side is a term.

The reader goes the other way. It scans from the end, has to see where an operator begins
before it has seen the term in front of it, and trims as it goes. It accepts the same texts and
gives the same trees.
-/
namespace Asm65

/-! ## Operators as they are written -/

namespace Operator

variable {op : Operator} {c : Char}

theorem symbol_of_ofChar? (h : ofChar? c = some op) : op.symbol.toList = [c] := by
  unfold ofChar? at h
  split at h <;> cases h <;> rfl

theorem symbol_of_ofDoubled? (h : ofDoubled? c = some op) : op.symbol.toList = [c, c] := by
  unfold ofDoubled? at h
  split at h <;> cases h <;> rfl

/-- An operator is one character or one written twice. -/
theorem symbol_cases (op : Operator) :
    (∃ c, ofChar? c = some op ∧ op.symbol.toList = [c]) ∨
      ∃ c, ofChar? c = none ∧ ofDoubled? c = some op ∧ op.symbol.toList = [c, c] := by
  cases op with
  | add => exact .inl ⟨'+', rfl, rfl⟩
  | sub => exact .inl ⟨'-', rfl, rfl⟩
  | mul => exact .inl ⟨'*', rfl, rfl⟩
  | div => exact .inl ⟨'/', rfl, rfl⟩
  | shl => exact .inr ⟨'<', rfl, rfl, rfl⟩
  | shr => exact .inr ⟨'>', rfl, rfl, rfl⟩

end Operator

namespace Expr

/-! ## Terms -/

/-- The text is a term, and this is what it denotes. -/
inductive Denotes : Text → Expr → Prop
  | accumulator : Denotes ['A'] .accumulator
  | symbol {t : Text} : isSymbol t → Denotes t (.symbol t)
  | number {t : Text} {n : Nat} :
    Number.IsLiteral t n → n < Number.bound → Denotes t (.number (Int32.ofNat n))

variable {t : Text} {e : Expr}

/-- A term holds the characters of names and the sigils of numbers. -/
theorem Denotes.chars (h : Denotes t e) : ∀ c ∈ t, c = '$' ∨ c = '%' ∨ isNameChar c := by
  intro c hc
  cases h with
  | accumulator =>
    obtain rfl := List.mem_singleton.mp hc
    exact .inr (.inr rfl)
  | symbol h => exact .inr (.inr (isNameChar_of_isSymbol h c hc))
  | number h _ =>
    rcases h.chars c hc with hc | hc | halphanum
    · exact .inl hc
    · exact .inr (.inl hc)
    · exact .inr (.inr (Bool.or_eq_true_iff.mpr (.inl halphanum)))

theorem Denotes.isTermChar (h : Denotes t e) : ∀ c ∈ t, isTermChar c := by
  intro c hc
  rcases h.chars c hc with rfl | rfl | hname
  · rfl
  · rfl
  · exact isTermChar_of_isNameChar hname

theorem Denotes.not_blank (h : Denotes t e) : ∀ c ∈ t, isBlank c = false :=
  fun c hc => isBlank_of_isTermChar (h.isTermChar c hc)

theorem Denotes.ne_nil (h : Denotes t e) : t ≠ [] := by
  cases h with
  | accumulator => simp
  | symbol h => exact ne_nil_of_isSymbol h
  | number h _ => exact h.ne_nil

theorem Denotes.isBinary (h : Denotes t e) : e.isBinary = false := by
  cases h <;> rfl

theorem Denotes.parseTerm_eq (h : Denotes t e) : parseTerm t = .ok e := by
  have htrim := Text.trim_of_not_blank h.not_blank
  cases h with
  | accumulator => rfl
  | symbol h => exact parseTerm_symbol h
  | number h hn =>
    obtain ⟨format, hformat, -⟩ := Number.isLiteral_iff.mp h
    have hne : t ≠ ['A'] := by
      rintro rfl
      cases hformat
    have hparse := Number.parse_ok_iff.mpr ⟨_, htrim.symm ▸ h, hn, rfl⟩
    simp [parseTerm, hne, hformat, hparse]

/-- A term that is read is one that stands there, with white space around it at most. -/
theorem exists_denotes_of_parseTerm (h : parseTerm t = .ok e) :
    ∃ (leading trailing : Blanks) (term : Text),
      t = leading.val ++ term ++ trailing.val ∧ Denotes term e := by
  have asItStands (hdenotes : Denotes t e) : ∃ (leading trailing : Blanks) (term : Text),
      t = leading.val ++ term ++ trailing.val ∧ Denotes term e :=
    ⟨⟨[], rfl⟩, ⟨[], rfl⟩, t, by simp, hdenotes⟩
  unfold parseTerm at h
  split at h
  · next heq =>
    subst heq
    cases h
    exact asItStands .accumulator
  · next hne =>
    split at h
    · split at h
      · next v hv =>
        cases h
        obtain ⟨n, hliteral, hn, rfl⟩ := Number.parse_ok_iff.mp hv
        obtain ⟨leading, trailing, ht⟩ := t.exists_blanks_trim
        exact ⟨leading, trailing, t.trim, ht, .number hliteral hn⟩
      · cases h
    · split at h
      · next hname =>
        cases h
        refine asItStands (.symbol ?_)
        rw [isSymbol, hname, Bool.true_and]
        exact bne_iff_ne.mpr hne
      · cases h

/-! ## Links -/

/-- A term as it is written. -/
structure Term where
  text : Text
  expr : Expr
  denotes : Denotes text expr

theorem Term.getLast?_text (term : Term) : term.text.getLast?.map isBlank ≠ some true :=
  Text.trimEnd_eq_self_iff.mp (Text.trimEnd_of_not_blank term.denotes.not_blank)

/-- An operator and the term on its right, with the white space around the operator. -/
structure Link where
  before : Blanks
  op : Operator
  after : Blanks
  term : Term

def Link.text (link : Link) : Text :=
  link.before.val ++ link.op.symbol.toList ++ link.after.val ++ link.term.text

/-- An expression as it is written. -/
structure Spelling where
  leading : Blanks
  first : Term
  links : List Link
  trailing : Blanks

namespace Spelling

def text (s : Spelling) : Text :=
  s.leading.val ++ s.first.text ++ s.links.flatMap Link.text ++ s.trailing.val

/-- The links are taken in from left to right. -/
def tree (s : Spelling) : Expr :=
  s.links.foldl (fun left link => .binary link.op left link.term.expr) s.first.expr

/-- The terms from left to right. -/
def terms (s : Spelling) : List Term := s.first :: s.links.map Link.term

end Spelling

/-! ## The scan finds the links -/

/-- White space behind a term is skipped, and white space in front of it is kept for the
moment. -/
theorem scan_blank {c : Char} (hc : isBlank c) {before : Text} (hbefore : before ≠ [])
    (term : Text) (links : List (Operator × Text)) :
    scan (c :: before) term links =
      if term = [] then scan before [] links else scan before (c :: term) links := by
  have hoperator : Operator.isChar c = false := by
    refine Bool.eq_false_iff.mpr fun h => ?_
    rw [Operator.isBlank_of_isChar h] at hc
    cases hc
  obtain ⟨hsingle, hdoubled⟩ : Operator.ofChar? c = none ∧ Operator.ofDoubled? c = none := by
    simpa [Operator.isChar] using hoperator
  obtain ⟨d, rest, rfl⟩ := List.exists_cons_of_ne_nil hbefore
  rw [scan, hsingle, hdoubled]
  by_cases hterm : term = [] <;> simp [hterm, hc]

theorem scan_blanks_behind (blanks : Blanks) {before : Text} (hbefore : before ≠ [])
    (links : List (Operator × Text)) :
    scan (before ++ blanks.val).reverse [] links = scan before.reverse [] links := by
  obtain ⟨blanks, hblanks⟩ := blanks
  induction blanks using List.reverseRecOn with
  | nil => rw [List.append_nil]
  | append_singleton blanks c ih =>
    obtain ⟨hblanks, hc⟩ : Text.isBlank blanks ∧ isBlank c := by
      simpa [Text.isBlank] using hblanks
    have hne : (before ++ blanks).reverse ≠ [] := by simp [hbefore]
    rw [← List.append_assoc, List.reverse_concat, scan_blank hc hne, if_pos rfl]
    exact ih hblanks

theorem scan_blanks_before (blanks : Blanks) {before term : Text} (hbefore : before ≠ [])
    (hterm : term ≠ []) (links : List (Operator × Text)) :
    scan (before ++ blanks.val).reverse term links =
      scan before.reverse (blanks.val ++ term) links := by
  obtain ⟨blanks, hblanks⟩ := blanks
  induction blanks using List.reverseRecOn generalizing term with
  | nil => rw [List.append_nil, List.nil_append]
  | append_singleton blanks c ih =>
    obtain ⟨hblanks, hc⟩ : Text.isBlank blanks ∧ isBlank c := by
      simpa [Text.isBlank] using hblanks
    have hne : (before ++ blanks).reverse ≠ [] := by simp [hbefore]
    rw [← List.append_assoc, List.reverse_concat, scan_blank hc hne, if_neg hterm,
      ih (List.cons_ne_nil c term) hblanks, List.append_assoc]
    rfl

/-- Behind an operator there is a term, with white space in front of it. -/
theorem scan_operator (op : Operator) {before : Text} (hbefore : before ≠ []) (blanks : Blanks)
    {term : Text} (hterm : term ≠ []) (hblank : ∀ c ∈ term, isBlank c = false)
    (links : List (Operator × Text)) :
    scan (before ++ op.symbol.toList).reverse (blanks.val ++ term) links =
      scan before.reverse [] ((op, term) :: links) := by
  have hne : blanks.val ++ term ≠ [] := by simp [hterm]
  have htrim : Text.trimStart (blanks.val ++ term) = term := by
    obtain ⟨c, rest, rfl⟩ := List.exists_cons_of_ne_nil hterm
    exact Text.dropWhile_append blanks.isBlank
      (Text.head?_cons_ne (hblank c (List.mem_cons_self ..)) rest)
  rcases op.symbol_cases with ⟨o, hsingle, hsymbol⟩ | ⟨o, hsingle, hdoubled, hsymbol⟩
  · rw [hsymbol, List.reverse_concat, scan_single hsingle hbefore, if_neg hne, htrim]
  · have hpair : before ++ [o, o] = (before ++ [o]) ++ [o] := by simp
    rw [hsymbol, hpair, List.reverse_concat, scan_doubled hsingle hdoubled hbefore, if_neg hne,
      htrim]

theorem scan_link {before : Text} (hbefore : before ≠ []) (link : Link)
    (links : List (Operator × Text)) :
    scan (before ++ link.text).reverse [] links =
      scan before.reverse [] ((link.op, link.term.text) :: links) := by
  obtain ⟨blanks, op, blanks', term, e, denotes⟩ := link
  have hterm := denotes.ne_nil
  have hfront : before ++ blanks.val ≠ [] := by simp [hbefore]
  have hop : before ++ blanks.val ++ op.symbol.toList ≠ [] := by simp [hbefore]
  calc scan (before ++ (blanks.val ++ op.symbol.toList ++ blanks'.val ++ term)).reverse [] links
      = scan (before ++ blanks.val ++ op.symbol.toList ++ blanks'.val).reverse term links := by
        have hscan := scan_term denotes.isTermChar
          (before ++ blanks.val ++ op.symbol.toList ++ blanks'.val).reverse [] links
        rw [List.append_nil, ← List.reverse_append] at hscan
        rw [← hscan]
        simp only [List.append_assoc]
    _ = scan (before ++ blanks.val ++ op.symbol.toList).reverse (blanks'.val ++ term) links :=
        scan_blanks_before blanks' hop hterm links
    _ = scan (before ++ blanks.val).reverse [] ((op, term) :: links) :=
        scan_operator op hfront blanks' hterm denotes.not_blank links
    _ = scan before.reverse [] ((op, term) :: links) := scan_blanks_behind blanks hbefore _

theorem scan_links (first : Term) (links : List Link) (more : List (Operator × Text)) :
    scan (first.text ++ links.flatMap Link.text).reverse [] more =
      .ok ⟨first.text, links.map (fun link => (link.op, link.term.text)) ++ more⟩ := by
  have hfirst := first.denotes.ne_nil
  induction links using List.reverseRecOn generalizing more with
  | nil =>
    rw [List.flatMap_nil, List.append_nil]
    exact scan_first first.denotes.isTermChar more
  | append_singleton links link ih =>
    have hbefore : first.text ++ links.flatMap Link.text ≠ [] := by simp [hfirst]
    rw [List.flatMap_append, List.flatMap_singleton, ← List.append_assoc, scan_link hbefore, ih]
    simp

/-! ## Spellings are read -/

theorem foldlM_extend (links : List Link) (left : Expr) :
    (links.map fun link => (link.op, link.term.text)).foldlM extend left =
      .ok (links.foldl (fun left link => .binary link.op left link.term.expr) left) := by
  induction links generalizing left with
  | nil => rfl
  | cons link links ih =>
    have hextend : extend left (link.op, link.term.text) =
        .ok (.binary link.op left link.term.expr) := by
      rw [extend, link.term.denotes.parseTerm_eq]
      rfl
    rw [List.map_cons, List.foldlM_cons, hextend]
    exact ih _

/-- A spelling begins and ends with a term. -/
theorem Spelling.trim_text (s : Spelling) :
    s.text.trim = s.first.text ++ s.links.flatMap Link.text := by
  have hbody : Text.trim (s.first.text ++ s.links.flatMap Link.text) =
      s.first.text ++ s.links.flatMap Link.text := by
    refine Text.trim_of_ends ?_ ?_
    · obtain ⟨c, rest, hfirst⟩ := List.exists_cons_of_ne_nil s.first.denotes.ne_nil
      rw [hfirst]
      exact Text.head?_cons_ne (s.first.denotes.not_blank c (hfirst ▸ List.mem_cons_self ..)) _
    · rcases List.eq_nil_or_concat' s.links with hlinks | ⟨links, link, hlinks⟩
      · rw [hlinks, List.flatMap_nil, List.append_nil]
        exact s.first.getLast?_text
      · rw [hlinks, List.flatMap_append, List.flatMap_singleton, Link.text, ← List.append_assoc,
          ← List.append_assoc, List.getLast?_append_of_ne_nil _ link.term.denotes.ne_nil]
        exact link.term.getLast?_text
  rw [text, List.append_assoc s.leading.val, Text.trim_blanks_append _ _ hbody]

theorem Spelling.parse_text (s : Spelling) : parse s.text = .ok s.tree := by
  have hne : s.first.text ++ s.links.flatMap Link.text ≠ [] := by
    simp [s.first.denotes.ne_nil]
  rw [parse, s.trim_text, if_neg hne, scan_links, List.append_nil]
  change ofChain _ = _
  rw [ofChain_eq, s.first.denotes.parseTerm_eq]
  exact foldlM_extend s.links s.first.expr

/-! ## What is read is a spelling -/

/-- The text goes on with links of these operators and texts, and ends in white space. -/
inductive Follows : Text → List (Operator × Text) → Prop
  | nil (blanks : Blanks) : Follows blanks.val []
  | cons (before : Blanks) (op : Operator) (after : Blanks) (term : Text) {t : Text}
    {links : List (Operator × Text)} :
    Follows t links →
      Follows (before.val ++ op.symbol.toList ++ after.val ++ term ++ t) ((op, term) :: links)

theorem Follows.blanks {links : List (Operator × Text)} (b : Blanks) (h : Follows t links) :
    Follows (b.val ++ t) links := by
  cases h with
  | nil blanks => exact .nil (b.append blanks)
  | cons before op after term h =>
    have hcons := Follows.cons (b.append before) op after term h
    simpa only [Blanks.append, List.append_assoc] using hcons

theorem Follows.operator {links : List (Operator × Text)} (op : Operator) (term : Text)
    (h : Follows t links) :
    Follows (op.symbol.toList ++ (term ++ t)) ((op, term.trimStart) :: links) := by
  have hblanks : ∀ c ∈ term.takeWhile isBlank, isBlank c := fun _ => List.mem_takeWhile_imp
  have hcons := Follows.cons ⟨[], rfl⟩ op ⟨_, List.all_eq_true.mpr hblanks⟩ term.trimStart h
  simpa only [List.nil_append, List.append_assoc, ← List.append_assoc (term.takeWhile isBlank),
    term.blanks_append_trimStart] using hcons

/-- The scan takes a text apart: nothing of it but white space is lost. -/
theorem follows_of_scan {before term : Text} {links : List (Operator × Text)} {chain : Chain}
    (h : scan before term links = .ok chain) {rest : Text} (hrest : Follows rest links) :
    ∃ others, before.reverse ++ (term ++ rest) = chain.first ++ others ∧
      Follows others chain.links := by
  fun_induction scan before term links generalizing rest with
  | case1 term links =>
    cases h
    exact ⟨rest, rfl, hrest⟩
  | case2 c term links =>
    cases h
    exact ⟨rest, rfl, hrest⟩
  | case3 => cases h
  | case4 c d before term links op hsingle hterm ih =>
    obtain ⟨others, heq, hothers⟩ := ih h (hrest.operator op term)
    refine ⟨others, heq ▸ ?_, hothers⟩
    simp [Operator.symbol_of_ofChar? hsingle]
  | case5 => cases h
  | case6 c d before term links op hdoubled hsingle hpair hterm ih =>
    obtain ⟨others, heq, hothers⟩ := ih h (hrest.operator op term)
    refine ⟨others, heq ▸ ?_, hothers⟩
    simp [Operator.symbol_of_ofDoubled? hdoubled, hpair.1]
  | case7 => cases h
  | case8 c d before term links hdoubled hsingle hskip ih =>
    -- The white space belongs to the operator behind it, or to the end.
    have hblank : Text.isBlank [c] := by simp [Text.isBlank, hskip.2]
    obtain ⟨others, heq, hothers⟩ := ih h (hrest.blanks ⟨[c], hblank⟩)
    refine ⟨others, heq ▸ ?_, hothers⟩
    simp [hskip.1]
  | case9 c d before term links hdoubled hsingle hkeep ih =>
    obtain ⟨others, heq, hothers⟩ := ih h hrest
    refine ⟨others, heq ▸ ?_, hothers⟩
    simp

/-- If the texts of links are terms, then the links can be written so. White space that was
kept with a term goes to the operator behind it. -/
theorem exists_links {rest : Text} {links : List (Operator × Text)} (h : Follows rest links)
    {left : Expr} (hread : links.foldlM extend left = .ok e) (leading : Blanks) :
    ∃ (written : List Link) (trailing : Blanks),
      leading.val ++ rest = written.flatMap Link.text ++ trailing.val ∧
        written.foldl (fun left link => .binary link.op left link.term.expr) left = e := by
  induction h generalizing left leading with
  | nil blanks =>
    cases hread
    exact ⟨[], leading.append blanks, rfl, rfl⟩
  | @cons before op after text t links _ ih =>
    rw [List.foldlM_cons] at hread
    obtain ⟨next, hextend, hread⟩ := exists_of_bind_ok hread
    obtain ⟨right, hterm, hnext⟩ := exists_of_bind_ok hextend
    cases hnext
    obtain ⟨front, back, term, rfl, hdenotes⟩ := exists_denotes_of_parseTerm hterm
    obtain ⟨written, trailing, ht, htree⟩ := ih hread back
    let link : Link := ⟨leading.append before, op, after.append front, ⟨term, right, hdenotes⟩⟩
    refine ⟨link :: written, trailing, ?_, htree⟩
    rw [List.flatMap_cons, List.append_assoc link.text, ← ht]
    simp [link, Link.text, Blanks.append]

theorem exists_spelling_of_parse (h : parse t = .ok e) :
    ∃ s : Spelling, s.text = t ∧ s.tree = e := by
  unfold parse at h
  split at h
  · cases h
  · obtain ⟨chain, hscan, hchain⟩ := exists_of_bind_ok h
    rw [ofChain_eq] at hchain
    obtain ⟨left, hfirst, hlinks⟩ := exists_of_bind_ok hchain
    obtain ⟨others, htrim, hfollows⟩ := follows_of_scan hscan (.nil ⟨[], rfl⟩)
    obtain ⟨front, back, first, hterm, hdenotes⟩ := exists_denotes_of_parseTerm hfirst
    obtain ⟨links, trailing, hothers, htree⟩ := exists_links hfollows hlinks back
    obtain ⟨leading, trailing', ht⟩ := t.exists_blanks_trim
    refine ⟨⟨leading.append front, ⟨first, left, hdenotes⟩, links, trailing.append trailing'⟩,
      ?_, htree⟩
    have hbody : t.trim = front.val ++ first ++ (links.flatMap Link.text ++ trailing.val) := by
      rw [← hothers, ← List.append_assoc, ← hterm]
      simpa using htrim
    rw [ht, hbody]
    simp [Spelling.text, Blanks.append]

/-! ## The tree of a spelling -/

/-- Every right side is a term. -/
def isLeftNested : Expr → Bool
  | binary _ left right => left.isLeftNested && !right.isBinary
  | _ => true

/-- The terms of a tree from left to right. -/
def atoms : Expr → List Expr
  | binary _ left right => left.atoms ++ right.atoms
  | e => [e]

/-- The operators of a tree from left to right. -/
def operators : Expr → List Operator
  | binary op left right => left.operators ++ op :: right.operators
  | _ => []

theorem atoms_of_not_binary (h : e.isBinary = false) : e.atoms = [e] := by
  cases e with
  | binary op left right => cases h
  | _ => rfl

theorem operators_of_not_binary (h : e.isBinary = false) : e.operators = [] := by
  cases e with
  | binary op left right => cases h
  | _ => rfl

theorem isLeftNested_of_not_binary (h : e.isBinary = false) : e.isLeftNested := by
  cases e with
  | binary op left right => cases h
  | _ => rfl

namespace Spelling

/-- The tree has the terms and the operators of the text in their order, nested to the left. -/
theorem shape_tree (s : Spelling) :
    s.tree.isLeftNested ∧ s.tree.atoms = s.terms.map Term.expr ∧
      s.tree.operators = s.links.map Link.op := by
  obtain ⟨leading, first, links, trailing⟩ := s
  simp only [tree, terms]
  induction links using List.reverseRecOn with
  | nil =>
    have hfirst := first.denotes.isBinary
    exact ⟨isLeftNested_of_not_binary hfirst, atoms_of_not_binary hfirst,
      operators_of_not_binary hfirst⟩
  | append_singleton links link ih =>
    have hterm := link.term.denotes.isBinary
    obtain ⟨hnested, hatoms, hoperators⟩ := ih
    rw [List.foldl_append]
    refine ⟨?_, ?_, ?_⟩
    · simp [isLeftNested, hnested, hterm]
    · simp [atoms, hatoms, atoms_of_not_binary hterm]
    · simp [operators, hoperators, operators_of_not_binary hterm]

end Spelling

/-- The reader accepts exactly the spellings of expressions and gives their trees, which have the
terms and operators of the text in order and a term for every right side. -/
theorem parse_eq_ok_iff (t : Text) (e : Expr) :
    (parse t = .ok e ↔ ∃ s : Spelling, s.text = t ∧ s.tree = e) ∧
      ∀ s : Spelling, s.tree.isLeftNested ∧ s.tree.atoms = s.terms.map Term.expr ∧
        s.tree.operators = s.links.map Link.op := by
  refine ⟨⟨exists_spelling_of_parse, ?_⟩, Spelling.shape_tree⟩
  rintro ⟨s, rfl, rfl⟩
  exact s.parse_text

/-- An operator of two characters takes in a difference whole, white space or not. -/
theorem shifted_parse_eq_ok :
    let sixteen : Term :=
      ⟨"$10".toList, _, .number (.hexadecimal (Numeral.read?_eq_some_iff.mp rfl)) (by decide)⟩
    let one : Term := ⟨"1".toList, _, .number (.decimal (.digit rfl)) (by decide)⟩
    let bits : Term := ⟨"BITS".toList, _, .symbol (by decide)⟩
    let s : Spelling := ⟨⟨[' '], rfl⟩, sixteen,
      [⟨⟨[' '], rfl⟩, .sub, ⟨[' '], rfl⟩, one⟩, ⟨⟨[], rfl⟩, .shl, ⟨[], rfl⟩, bits⟩], ⟨[' '], rfl⟩⟩
    let e : Expr :=
      .binary .shl (.binary .sub (.number 16) (.number 1)) (.symbol "BITS".toList)
    s.text = " $10 - 1<<BITS ".toList ∧ s.tree = e ∧ parse " $10 - 1<<BITS ".toList = .ok e ∧
      e.isLeftNested ∧ e.operators = [.sub, .shl] := by
  intro sixteen one bits s e
  have text : s.text = " $10 - 1<<BITS ".toList := by decide
  have tree : s.tree = e := rfl
  obtain ⟨hread, hshape⟩ := parse_eq_ok_iff " $10 - 1<<BITS ".toList e
  obtain ⟨hnested, -, hoperators⟩ := hshape s
  rw [tree] at hnested hoperators
  exact ⟨text, tree, hread.mpr ⟨s, text, tree⟩, hnested, hoperators⟩

end Expr

end Asm65
