-- SUMMARY: A line that is written out of fields is read as these fields, however it is laid out.
import Asm65.Proofs.Decoration
import Asm65.Proofs.Respelling

/-!
# Written lines

A line is written from its fields: a label, a mnemonic and an operand, with white space between
them, and more white space and a comment after the last one. Labels and mnemonics hold nothing
that the reader looks for. An operand may hold white space, and in quotes also `;` and quotes of
the other kind, as long as its quotes are closed and it neither begins nor ends with white space.
Then every field is found again as it was written, and the layout leaves no trace.
-/
namespace Asm65.Line

variable {t u : Text}

/-! ## Closed quotes -/

/-- Every quote is closed, and `;` stands in quotes only. A quoted part ends at the next quote of
its kind, whatever stands before it. -/
inductive Closed : Text → Prop
  | nil : Closed []
  | plain {c : Char} {t : Text} : isQuote c = false → c ≠ ';' → Closed t → Closed (c :: t)
  | quoted {q : Char} {inside t : Text} :
    isQuote q → q ∉ inside → Closed t → Closed (q :: (inside ++ q :: t))

theorem cutComment_inside {q : Char} {inside : Text} (h : q ∉ inside) (more : Text) :
    cutComment (some q) (inside ++ q :: more) = inside ++ q :: cutComment none more := by
  induction inside with
  | nil => simp [cutComment_cons_quoted]
  | cons c inside ih =>
    simp only [List.mem_cons, not_or] at h
    simp only [List.cons_append, cutComment_cons_quoted, if_neg (Ne.symm h.1), ih h.2]

namespace Closed

/-- A comment is looked for behind a text whose quotes are closed. -/
theorem cutComment_append (h : Closed t) (more : Text) :
    cutComment none (t ++ more) = t ++ cutComment none more := by
  induction h with
  | nil => rfl
  | plain hquote hc _ ih =>
    simp [cutComment_cons, hquote, hc, ih]
  | @quoted q inside t hq hinside _ ih =>
    have hne : q ≠ ';' := by
      rintro rfl
      cases hq
    have hinside := cutComment_inside hinside (t ++ more)
    simp [cutComment_cons, hq, hne, hinside, ih]

theorem append (ht : Closed t) (hu : Closed u) : Closed (t ++ u) := by
  induction ht with
  | nil => exact hu
  | plain hquote hc _ ih => exact .plain hquote hc ih
  | @quoted q inside t hq hinside _ ih =>
    have hquoted := Closed.quoted hq hinside ih
    simpa using hquoted

theorem of_plain (h : ∀ c ∈ t, isQuote c = false ∧ c ≠ ';') : Closed t := by
  induction t with
  | nil => exact .nil
  | cons c t ih =>
    rw [List.forall_mem_cons] at h
    exact .plain h.1.1 h.1.2 (ih h.2)

theorem of_blanks (b : Blanks) : Closed b.val := by
  refine of_plain fun c hc => ?_
  have hblank := b.isBlank c hc
  refine ⟨Bool.eq_false_iff.mpr fun hquote => ?_, ?_⟩
  · rw [isQuote, Bool.or_eq_true, beq_iff_eq, beq_iff_eq] at hquote
    rcases hquote with rfl | rfl <;> cases hblank
  · rintro rfl
    cases hblank

end Closed

/-! ## Fields -/

/-- A label or a mnemonic: nothing in it ends a field or begins a comment or a quoted part. -/
structure IsToken (t : Text) : Prop where
  ne_nil : t ≠ []
  not_blank : ∀ c ∈ t, isBlank c = false
  not_quote : ∀ c ∈ t, isQuote c = false
  no_comment : ';' ∉ t

theorem IsToken.closed (h : IsToken t) : Closed t :=
  .of_plain fun c hc => ⟨h.not_quote c hc, ne_of_mem_of_not_mem hc h.no_comment⟩

/-- The text of an operand, which may hold anything where quotes allow it. -/
structure IsOperandText (t : Text) : Prop where
  ne_nil : t ≠ []
  trimmed : t.trim = t
  closed : Closed t

/-- A token is an operand as well. -/
theorem IsToken.isOperandText (h : IsToken t) : IsOperandText t :=
  ⟨h.ne_nil, Text.trim_of_not_blank h.not_blank, h.closed⟩

theorem IsToken.of_core (hne : t ≠ []) (hcore : ∀ c ∈ t, OperandParts.isCore c) : IsToken t where
  ne_nil := hne
  not_blank c hc := OperandParts.isBlank_of_isCore (hcore c hc)
  not_quote c hc := by
    refine Bool.eq_false_iff.mpr fun hquote => ?_
    have hc := hcore c hc
    rw [isQuote, Bool.or_eq_true, beq_iff_eq, beq_iff_eq] at hquote
    rcases hquote with rfl | rfl <;> cases hc
  no_comment hc := by cases hcore ';' hc

theorem IsToken.of_symbol (h : isSymbol t) : IsToken t :=
  .of_core (ne_nil_of_isSymbol h) fun c hc =>
    OperandParts.isCore_of_isNameChar (isNameChar_of_isSymbol h c hc)

/-- Tokens with commas between them are a token. -/
theorem IsToken.join {first : Text} {rest : List Text}
    (h : ∀ piece ∈ first :: rest, IsToken piece) : IsToken (Text.join ',' first rest) := by
  constructor
  · cases rest <;> simp [Text.join, (h first (List.mem_cons_self ..)).ne_nil]
  · intro c hc
    rcases Text.mem_join hc with rfl | ⟨piece, hpiece, hc⟩
    · rfl
    · exact (h piece hpiece).not_blank c hc
  · intro c hc
    rcases Text.mem_join hc with rfl | ⟨piece, hpiece, hc⟩
    · rfl
    · exact (h piece hpiece).not_quote c hc
  · intro hc
    rcases Text.mem_join hc with h | ⟨piece, hpiece, hc⟩
    · cases h
    · exact (h piece hpiece).no_comment hc

/-- What a line says, field by field. -/
structure Fields where
  label : Option Text
  mnemonic : Text
  operand : Option Text
  label_isToken : ∀ name ∈ label, IsToken name
  /-- A line that begins with `*` is a comment. -/
  label_head : ∀ name ∈ label, name.head? ≠ some '*'
  mnemonic_isToken : IsToken mnemonic
  operand_isText : ∀ text ∈ operand, IsOperandText text

/-- A mnemonic and an operand without a label. -/
def Fields.unlabelled {mnemonic text : Text} (hmnemonic : IsToken mnemonic)
    (htext : IsOperandText text) : Fields where
  label := none
  mnemonic := mnemonic
  operand := some text
  label_isToken := nofun
  label_head := nofun
  mnemonic_isToken := hmnemonic
  operand_isText := by
    rintro _ ⟨⟩
    exact htext

/-- The line that the fields are: directives are looked up first, in upper case, and keep their
operand as it is; the operand of an instruction is parsed, and may fail to be one. -/
def Fields.line (f : Fields) : Line where
  label := f.label
  body :=
    match Directive.ofText? f.mnemonic.upper with
    | some d => .ok (.directive d f.operand)
    | none =>
      match f.operand with
      | none => .ok (.instruction f.mnemonic.upper none)
      | some text =>
        match Operand.parse text with
        | .ok operand => .ok (.instruction f.mnemonic.upper (some operand))
        | .error e => .error e

/-! ## Layouts -/

/-- How fields are put on a line. -/
structure Layout where
  /-- The white space before the mnemonic, which a line without a label begins with. -/
  indent : Blanks
  /-- The white space before the operand, if there is one. -/
  gap : Blanks
  /-- The white space after the last field. -/
  margin : Blanks
  comment : Option Text
  indent_ne_nil : indent.val ≠ []
  gap_ne_nil : gap.val ≠ []

namespace Layout

variable (l : Layout) (f : Fields)

/-- What stands behind the mnemonic. -/
def tail : Text :=
  match f.operand with
  | none => []
  | some text => l.gap.val ++ text

/-- The fields with the white space between them. -/
def code : Text := f.label.getD [] ++ (l.indent.val ++ (f.mnemonic ++ l.tail f))

def remark : Text :=
  match l.comment with
  | none => []
  | some text => ';' :: text

/-- The source of the line. -/
def text : Text := l.code f ++ l.margin.val ++ l.remark

/-- One blank before each field and nothing behind the last. -/
def plain : Layout where
  indent := ⟨[' '], rfl⟩
  gap := ⟨[' '], rfl⟩
  margin := ⟨[], rfl⟩
  comment := none
  indent_ne_nil := List.cons_ne_nil ' ' []
  gap_ne_nil := List.cons_ne_nil ' ' []

theorem text_plain {mnemonic text : Text} (hmnemonic : IsToken mnemonic)
    (htext : IsOperandText text) :
    plain.text (Fields.unlabelled hmnemonic htext) = ' ' :: mnemonic ++ ' ' :: text := by
  simp [Layout.text, code, tail, remark, plain, Fields.unlabelled]

end Layout

/-! ## The comment is cut off -/

namespace Layout

variable (l : Layout) (f : Fields)

theorem closed_tail : Closed (l.tail f) := by
  unfold tail
  cases hoperand : f.operand with
  | none => exact .nil
  | some text => exact (Closed.of_blanks l.gap).append (f.operand_isText text hoperand).closed

theorem closed_code : Closed (l.code f) := by
  have hlabel : Closed (f.label.getD []) := by
    cases hlabel : f.label with
    | none => exact .nil
    | some name => exact (f.label_isToken name hlabel).closed
  exact hlabel.append ((Closed.of_blanks l.indent).append
    (f.mnemonic_isToken.closed.append (l.closed_tail f)))

theorem cutComment_text : cutComment none (l.text f) = l.code f ++ l.margin.val := by
  have hremark : cutComment none l.remark = [] := by
    unfold remark
    cases l.comment <;> rfl
  rw [text, ((l.closed_code f).append (.of_blanks l.margin)).cutComment_append, hremark,
    List.append_nil]

/-- The last field ends without white space. -/
theorem trimEnd_code : (l.code f).trimEnd = l.code f := by
  have hmnemonic := f.mnemonic_isToken
  have hlast : (f.mnemonic ++ l.tail f).getLast?.map isBlank ≠ some true := by
    unfold tail
    cases hoperand : f.operand with
    | none =>
      rw [List.append_nil]
      exact Text.trimEnd_eq_self_iff.mp (Text.trimEnd_of_not_blank hmnemonic.not_blank)
    | some text =>
      obtain ⟨hne, htrim, -⟩ := f.operand_isText text hoperand
      rw [← List.append_assoc, List.getLast?_append_of_ne_nil _ hne]
      exact Text.trimEnd_eq_self_iff.mp (Text.trimEnd_of_trim htrim)
  have hne : f.mnemonic ++ l.tail f ≠ [] := by simp [hmnemonic.ne_nil]
  rw [Text.trimEnd_eq_self_iff, code, ← List.append_assoc, List.getLast?_append_of_ne_nil _ hne]
  exact hlast

theorem stripComment_text : stripComment (l.text f) = l.code f := by
  rw [stripComment, cutComment_text, Text.trimEnd_append_blank _ l.margin.isBlank, trimEnd_code]

/-! ## The fields are found -/

theorem head?_tail : (l.tail f).head?.map (!isBlank ·) ≠ some true := by
  unfold tail
  cases f.operand with
  | none => simp
  | some text => exact l.gap.head?_append l.gap_ne_nil text

theorem field?_tail : field? (l.tail f) = f.operand := by
  unfold tail
  cases hoperand : f.operand with
  | none => rfl
  | some text =>
    obtain ⟨hne, htrim, -⟩ := f.operand_isText text hoperand
    have hfield := Text.trim_blanks_append l.gap ⟨[], rfl⟩ htrim
    rw [List.append_nil] at hfield
    simp only [field?, hfield, if_neg hne]

/-- Behind the label, the first word is the mnemonic and the rest is the operand. -/
theorem parseBody_code :
    parseBody (l.indent.val ++ (f.mnemonic ++ l.tail f)) =
      parseStatement f.mnemonic.upper f.operand := by
  have hmnemonic := f.mnemonic_isToken
  have hword : ∀ c ∈ f.mnemonic, (!isBlank c) = true := fun c hc => by
    rw [hmnemonic.not_blank c hc]
    rfl
  have hstart : Text.trimStart (l.indent.val ++ (f.mnemonic ++ l.tail f)) =
      f.mnemonic ++ l.tail f := by
    obtain ⟨c, rest, hcons⟩ := List.exists_cons_of_ne_nil hmnemonic.ne_nil
    refine Text.dropWhile_append l.indent.isBlank ?_
    rw [hcons]
    exact Text.head?_cons_ne (hmnemonic.not_blank c (hcons ▸ List.mem_cons_self ..)) _
  have hne : f.mnemonic ++ l.tail f ≠ [] := by simp [hmnemonic.ne_nil]
  rw [parseBody, hstart, if_neg hne, Text.word, Text.takeWhile_append hword (l.head?_tail f),
    Text.afterWord, Text.dropWhile_append hword (l.head?_tail f), field?_tail]

theorem parseFields_code :
    parseFields (l.code f) = ⟨f.label, parseStatement f.mnemonic.upper f.operand⟩ := by
  have hlabel : ∀ c ∈ f.label.getD [], (!isBlank c) = true := by
    intro c hc
    cases hname : f.label with
    | none =>
      rw [hname] at hc
      cases hc
    | some name =>
      rw [hname] at hc
      rw [(f.label_isToken name hname).not_blank c hc]
      rfl
  have hindent := l.indent.head?_append l.indent_ne_nil (f.mnemonic ++ l.tail f)
  rw [parseFields_eq, code, Text.word, Text.takeWhile_append hlabel hindent, Text.afterWord,
    Text.dropWhile_append hlabel hindent, parseBody_code]
  cases hname : f.label with
  | none => rfl
  | some name => simp [(f.label_isToken name hname).ne_nil]

theorem head?_text : (l.text f).head? ≠ some '*' := by
  unfold text code
  cases hname : f.label with
  | none =>
    obtain ⟨c, rest, hindent⟩ := List.exists_cons_of_ne_nil l.indent_ne_nil
    have hc := l.indent.isBlank c (hindent ▸ List.mem_cons_self ..)
    simp only [hindent, Option.getD_none, List.nil_append, List.cons_append, List.head?_cons]
    rintro ⟨⟩
    cases hc
  | some name =>
    have hhead := f.label_head name hname
    obtain ⟨c, rest, rfl⟩ := List.exists_cons_of_ne_nil (f.label_isToken name hname).ne_nil
    exact hhead

theorem parse_text :
    parse (l.text f) = ⟨f.label, parseStatement f.mnemonic.upper f.operand⟩ := by
  rw [parse, if_neg (l.head?_text f), stripComment_text, parseFields_code]

end Layout

/-! ## Lines without a label -/

/-- A mnemonic and an operand behind a blank each. -/
theorem parse_unlabelled {mnemonic text : Text} (hmnemonic : IsToken mnemonic)
    (htext : IsOperandText text) :
    parse (' ' :: mnemonic ++ ' ' :: text) =
      ⟨none, parseStatement mnemonic.upper (some text)⟩ := by
  have hparse := Layout.parse_text Layout.plain (Fields.unlabelled hmnemonic htext)
  rwa [Layout.text_plain] at hparse

/-! ## Lines as they are written -/

theorem Fields.line_eq (f : Fields) :
    f.line = ⟨f.label, parseStatement f.mnemonic.upper f.operand⟩ := by
  unfold line parseStatement
  cases Directive.ofText? f.mnemonic.upper with
  | some d => rfl
  | none =>
    cases f.operand with
    | none => rfl
    | some text =>
      simp only
      cases Operand.parse text <;> rfl

/-- A line is read as the fields that it was written from, and neither the layout nor the case of
the mnemonic makes a difference. -/
theorem parse_written (f : Fields) (l : Layout) :
    parse (l.text f) = f.line ∧
      ∀ (g : Fields) (m : Layout), g.label = f.label → g.operand = f.operand →
        g.mnemonic.upper = f.mnemonic.upper → parse (m.text g) = parse (l.text f) := by
  refine ⟨(l.parse_text f).trans f.line_eq.symm, ?_⟩
  intro g m hlabel hoperand hmnemonic
  rw [l.parse_text, m.parse_text, hlabel, hoperand, hmnemonic]

/-- An operand that holds white space, `;` and quotes of the other kind, in front of a comment with
a quote that is never closed, and the same fields with one blank between them. -/
theorem quoted_parse_written :
    let quoted : Text := '"' :: ("SAY 'HI'; THERE".toList ++ ['"'])
    let f : Fields := {
      label := some "MSG".toList
      mnemonic := "Asc".toList
      operand := some quoted
      label_isToken := by
        rintro _ ⟨⟩
        exact .of_symbol (by decide)
      label_head := by
        rintro _ ⟨⟩
        decide
      mnemonic_isToken := .of_symbol (by decide)
      operand_isText := by
        rintro _ ⟨⟩
        exact ⟨by decide, by decide, .quoted rfl (by decide) .nil⟩ }
    let g : Fields :=
      { f with mnemonic := "aSC".toList, mnemonic_isToken := .of_symbol (by decide) }
    let l : Layout :=
      ⟨⟨[' ', ' '], rfl⟩, ⟨['\t'], rfl⟩, ⟨['\t'], rfl⟩, some " don't".toList, by decide, by decide⟩
    l.text f = "MSG  Asc\t\"SAY 'HI'; THERE\"\t; don't".toList ∧
      parse (l.text f) = ⟨some "MSG".toList, .ok (.directive (.data .asc) (some quoted))⟩ ∧
      Layout.plain.text g = "MSG aSC \"SAY 'HI'; THERE\"".toList ∧
      g.label = f.label ∧ g.operand = f.operand ∧ g.mnemonic.upper = f.mnemonic.upper ∧
      parse (Layout.plain.text g) = parse (l.text f) := by
  intro quoted f g l
  have sameMnemonic : g.mnemonic.upper = f.mnemonic.upper := by decide
  obtain ⟨hline, hother⟩ := parse_written f l
  exact ⟨by decide, hline.trans rfl, by decide, rfl, rfl, sameMnemonic,
    hother g Layout.plain rfl rfl sameMnemonic⟩

end Asm65.Line
