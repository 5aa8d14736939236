-- SUMMARY: Texts that differ in the spelling of symbols only: comments, fields and lines of them.
import Asm65.Proofs.Terms

/-!
# Respelling

A renaming only replaces symbols by symbols. The characters of symbols are neither white
space nor quotes nor separators, so whatever the rest of a text says about comments, fields
and line ends, it still says when symbols in it are spelled in another way.
-/
namespace Asm65

/-- The second text is the first one, some symbols in it replaced by symbols. -/
inductive Respelled : Text → Text → Prop
  | nil : Respelled [] []
  | keep (c : Char) {t u : Text} : Respelled t u → Respelled (c :: t) (c :: u)
  | swap {name other t u : Text} :
    isSymbol name → isSymbol other → Respelled t u → Respelled (name ++ t) (other ++ u)

namespace Respelled

variable {t u t' u' : Text}

theorem refl (t : Text) : Respelled t t := by
  induction t with
  | nil => exact .nil
  | cons c t ih => exact .keep c ih

theorem append (h : Respelled t u) (h' : Respelled t' u') : Respelled (t ++ t') (u ++ u') := by
  induction h with
  | nil => exact h'
  | keep c _ ih => exact .keep c ih
  | swap hname hother _ ih =>
    rw [List.append_assoc, List.append_assoc]
    exact .swap hname hother ih

theorem symm (h : Respelled t u) : Respelled u t := by
  induction h with
  | nil => exact .nil
  | keep c _ ih => exact .keep c ih
  | swap hname hother _ ih => exact .swap hother hname ih

/-- A character looks the same everywhere in symbols if the predicate is about something
else. -/
def Ignores (p : Char → Bool) : Prop := ∃ b, ∀ c, Expr.isNameChar c → p c = b

theorem ignores_blank : Ignores isBlank := ⟨false, fun _ h => isBlank_of_isNameChar h⟩

theorem ignores_not_blank : Ignores fun c => !isBlank c :=
  ⟨true, fun _ h => congrArg not (isBlank_of_isNameChar h)⟩

theorem ignores_eq {x : Char} (hx : Expr.isNameChar x = false) : Ignores (· == x) := by
  refine ⟨false, fun c hc => ?_⟩
  rw [beq_eq_false_iff_ne]
  rintro rfl
  rw [hx] at hc
  cases hc

/-- The beginning looks the same. -/
theorem head? (h : Respelled t u) {p : Char → Bool} (hp : Ignores p) :
    u.head?.map p = t.head?.map p := by
  obtain ⟨b, hb⟩ := hp
  cases h with
  | nil => rfl
  | keep c _ => rfl
  | swap hname hother _ =>
    have first {name : Text} (h : isSymbol name) (more : Text) :
        (name ++ more).head?.map p = some b := by
      obtain ⟨c, rest, rfl⟩ := List.exists_cons_of_ne_nil (ne_nil_of_isSymbol h)
      exact congrArg some (hb c (isNameChar_of_isSymbol h c (List.mem_cons_self ..)))
    rw [first hname, first hother]

/-- The end looks the same. -/
theorem getLast? (h : Respelled t u) {p : Char → Bool} (hp : Ignores p) :
    u.getLast?.map p = t.getLast?.map p := by
  obtain ⟨b, hb⟩ := hp
  induction h with
  | nil => rfl
  | @keep c t u _ ih =>
    rw [List.getLast?_cons, List.getLast?_cons]
    cases ht : t.getLast? <;> cases hu : u.getLast? <;> simp_all
  | @swap name other t u hname hother _ ih =>
    have last {name : Text} (h : isSymbol name) : name.getLast?.map p = some b := by
      have hlast := List.getLast?_eq_some_getLast (ne_nil_of_isSymbol h)
      rw [hlast]
      exact congrArg some (hb _ (isNameChar_of_isSymbol h _ (List.getLast_mem _)))
    rw [List.getLast?_append, List.getLast?_append, Option.map_or, Option.map_or, ih, last hname,
      last hother]

theorem eq_nil_iff (h : Respelled t u) : u = [] ↔ t = [] := by
  have hhead := h.head? ignores_blank
  cases t <;> cases u <;> simp_all

/-- The accumulator is no symbol. -/
theorem eq_accumulator (h : Respelled t u) (ht : t = ['A']) : u = ['A'] := by
  cases h with
  | nil => exact ht
  | keep c h =>
    obtain ⟨rfl, hnil⟩ := List.cons.inj ht
    rw [h.eq_nil_iff.mpr hnil]
  | swap hname =>
    rcases List.append_eq_singleton_iff.mp ht with ⟨rfl, -⟩ | ⟨rfl, -⟩
    · exact absurd rfl (ne_nil_of_isSymbol hname)
    · cases hname

theorem forall_mem (h : Respelled t u) {P : Char → Prop} (hP : ∀ c, Expr.isNameChar c → P c)
    (ht : ∀ c ∈ t, P c) : ∀ c ∈ u, P c := by
  induction h with
  | nil => exact ht
  | keep c _ ih =>
    rw [List.forall_mem_cons] at ht ⊢
    exact ⟨ht.1, ih ht.2⟩
  | swap _ hother _ ih =>
    rw [List.forall_mem_append] at ht ⊢
    exact ⟨fun c hc => hP c (isNameChar_of_isSymbol hother c hc), ih ht.2⟩

theorem not_mem (h : Respelled t u) {x : Char} (hx : Expr.isNameChar x = false)
    (hmem : x ∉ t) : x ∉ u := by
  refine fun hu => h.forall_mem (P := (· ≠ x)) ?_ (fun c hc => ne_of_mem_of_not_mem hc hmem) x hu rfl
  rintro c hc rfl
  rw [hx] at hc
  cases hc

/-! ## Comments -/

/-- The quotes that may be open. -/
def IsOpen (quote : Option Char) : Prop := ∀ q, quote = some q → Line.isQuote q

theorem isOpen_none : IsOpen none := by
  intro q h
  cases h

theorem cutComment_symbol {name : Text} (hname : isSymbol name) {quote : Option Char}
    (hquote : IsOpen quote) (t : Text) :
    Line.cutComment quote (name ++ t) = name ++ Line.cutComment quote t := by
  have hchars := isNameChar_of_isSymbol hname
  clear hname
  induction name with
  | nil => rfl
  | cons c name ih =>
    rw [List.forall_mem_cons] at hchars
    have hne {x : Char} (hx : Expr.isNameChar x = false) : c ≠ x := by
      rintro rfl
      rw [hx] at hchars
      cases hchars.1
    have hc : Line.isQuote c = false := by
      unfold Line.isQuote
      rw [Bool.or_eq_false_iff, beq_eq_false_iff_ne, beq_eq_false_iff_ne]
      exact ⟨hne rfl, hne rfl⟩
    cases quote with
    | none =>
      rw [List.cons_append, Line.cutComment_cons, if_neg (hne rfl), hc,
        if_neg Bool.false_ne_true, ih hchars.2]
      rfl
    | some q =>
      have hcq : c ≠ q := by
        rintro rfl
        rw [hquote c rfl] at hc
        cases hc
      rw [List.cons_append, Line.cutComment_cons_quoted, if_neg hcq, ih hchars.2]
      rfl

/-- Texts without a comment leave the same quote open. -/
theorem cutComment (h : Respelled t u) {quote : Option Char} (hquote : IsOpen quote)
    (hcut : Line.cutComment quote t = t) :
    ∃ open?, ∀ more, Line.cutComment quote (t ++ more) = t ++ Line.cutComment open? more ∧
      Line.cutComment quote (u ++ more) = u ++ Line.cutComment open? more := by
  induction h generalizing quote with
  | nil => exact ⟨quote, fun more => ⟨rfl, rfl⟩⟩
  | @keep c t u _ ih =>
    cases quote with
    | none =>
      rw [Line.cutComment] at hcut
      split at hcut
      · cases hcut
      · next hc =>
        have hopen : IsOpen (if Line.isQuote c then some c else none) := by
          intro q hq
          split at hq
          · next hquote =>
            cases hq
            exact hquote
          · cases hq
        obtain ⟨open?, hmore⟩ := ih hopen (List.cons.inj hcut).2
        refine ⟨open?, fun more => ?_⟩
        obtain ⟨ht, hu⟩ := hmore more
        simp only [List.cons_append, Line.cutComment_cons, if_neg hc, ht, hu, and_self]
    | some q =>
      have hopen : IsOpen (if c = q then none else some q) := by
        intro q' hq'
        split at hq'
        · cases hq'
        · exact hquote q' hq'
      rw [Line.cutComment] at hcut
      obtain ⟨open?, hmore⟩ := ih hopen (List.cons.inj hcut).2
      refine ⟨open?, fun more => ?_⟩
      obtain ⟨ht, hu⟩ := hmore more
      simp only [List.cons_append, Line.cutComment_cons_quoted, ht, hu, and_self]
  | @swap name other t u hname hother _ ih =>
    rw [cutComment_symbol hname hquote] at hcut
    obtain ⟨open?, hmore⟩ := ih hquote (List.append_cancel_left hcut)
    refine ⟨open?, fun more => ?_⟩
    obtain ⟨ht, hu⟩ := hmore more
    rw [List.append_assoc name, List.append_assoc other, cutComment_symbol hname hquote,
      cutComment_symbol hother hquote, ht, hu, List.append_assoc, List.append_assoc]
    exact ⟨rfl, rfl⟩

end Respelled

/-! ## Separators -/

namespace Text

variable {separator : Char}

theorem join_cut (separator : Char) (t : Text) :
    join separator (t.cut separator).1 (t.cut separator).2 = t := by
  induction t with
  | nil => rfl
  | cons c t ih =>
    rw [cut_cons]
    split
    · next hc =>
      rw [join, ih, hc]
      rfl
    · cases hcut : (cut separator t).2 with
      | nil =>
        rw [hcut] at ih
        exact congrArg (c :: ·) ih
      | cons next rest =>
        rw [hcut] at ih
        exact congrArg (c :: ·) ih

/-- The pieces between separators hold none. -/
theorem not_mem_cut (separator : Char) (t : Text) :
    separator ∉ (t.cut separator).1 ∧ ∀ piece ∈ (t.cut separator).2, separator ∉ piece := by
  induction t with
  | nil => simp
  | cons c t ih =>
    rw [cut_cons]
    split
    · exact ⟨List.not_mem_nil, List.forall_mem_cons.mpr ih⟩
    · next hc =>
      refine ⟨?_, ih.2⟩
      rw [List.mem_cons, not_or]
      exact ⟨Ne.symm hc, ih.1⟩

/-- A character of joined pieces is the separator or stands in one of them. -/
theorem mem_join {first : Text} {rest : List Text} {c : Char}
    (h : c ∈ join separator first rest) :
    c = separator ∨ ∃ piece ∈ first :: rest, c ∈ piece := by
  induction rest generalizing first with
  | nil => exact .inr ⟨first, List.mem_singleton_self first, h⟩
  | cons next rest ih =>
    rcases List.mem_append.mp h with hfirst | hmore
    · exact .inr ⟨first, List.mem_cons_self .., hfirst⟩
    · rcases List.mem_cons.mp hmore with rfl | hrest
      · exact .inl rfl
      · rcases ih hrest with rfl | ⟨piece, hpiece, hc⟩
        · exact .inl rfl
        · exact .inr ⟨piece, List.mem_cons_of_mem _ hpiece, hc⟩

theorem cut_append {first : Text} (hfirst : separator ∉ first) (more : Text) :
    cut separator (first ++ more) = (first ++ (cut separator more).1, (cut separator more).2) := by
  induction first with
  | nil => rfl
  | cons c first ih =>
    rw [List.mem_cons, not_or] at hfirst
    rw [List.cons_append, cut_cons, if_neg (Ne.symm hfirst.1), ih hfirst.2]
    rfl

/-- Pieces without separators are found again when they are joined. -/
theorem cut_join {first : Text} {rest : List Text} (hfirst : separator ∉ first)
    (hrest : ∀ piece ∈ rest, separator ∉ piece) :
    cut separator (join separator first rest) = (first, rest) := by
  induction rest generalizing first with
  | nil =>
    have hcut := cut_append hfirst []
    rwa [List.append_nil, cut_nil, List.append_nil] at hcut
  | cons next rest ih =>
    rw [List.forall_mem_cons] at hrest
    rw [join, cut_append hfirst, cut_cons, if_pos rfl, ih hrest.1 hrest.2, List.append_nil]

end Text

theorem Respelled.join (separator : Char) {f : Text → Text} (h : ∀ t, Respelled t (f t))
    (first : Text) (rest : List Text) :
    Respelled (Text.join separator first rest) (Text.join separator (f first) (rest.map f)) := by
  induction rest generalizing first with
  | nil => exact h first
  | cons next rest ih => exact (h first).append (.keep separator (ih next))

/-! ## Renamings -/

namespace Renaming

variable (r : Renaming)

theorem respelled_name (t : Text) : Respelled t (r.name t) := by
  unfold name
  split
  · next h =>
    have hswap := Respelled.swap h (r.isSymbol_map t h) .nil
    rwa [List.append_nil, List.append_nil] at hswap
  · exact .refl t

theorem respelled_ofTerms (first : Text) (others : List (Char × Text)) :
    Respelled (Text.ofTerms first others)
      (Text.ofTerms (r.name first) (others.map (Prod.map id r.name))) := by
  refine (r.respelled_name first).append ?_
  induction others with
  | nil => exact .nil
  | cons piece rest ih => exact .append (.keep piece.1 (r.respelled_name piece.2)) ih

theorem respelled_core (t : Text) : Respelled t (r.core t) := by
  have h := r.respelled_ofTerms t.terms.1 t.terms.2
  rwa [Text.ofTerms_terms] at h

/-- An operand in parts, of which the core is renamed. -/
theorem operand_eq (t : Text) :
    ∃ blanks opening core closing,
      (∀ c ∈ blanks, isBlank c) ∧ (∀ c ∈ opening, OperandParts.isOpening c) ∧
      (∀ c ∈ core, OperandParts.isCore c) ∧
      closing.head?.map OperandParts.isCore ≠ some true ∧
      (t.trimStart.dropWhile OperandParts.isOpening).takeWhile OperandParts.isCore = core ∧
      t = blanks ++ opening ++ core ++ closing ∧
      r.operand t = blanks ++ opening ++ r.core core ++ closing := by
  refine ⟨_, _, _, _, fun _ => List.mem_takeWhile_imp, fun _ => List.mem_takeWhile_imp,
    fun _ => List.mem_takeWhile_imp, Text.head?_dropWhile _ _, rfl, ?_, rfl⟩
  rw [List.append_assoc, List.takeWhile_append_dropWhile, List.append_assoc,
    List.takeWhile_append_dropWhile, t.blanks_append_trimStart]

theorem respelled_operand (t : Text) : Respelled t (r.operand t) := by
  obtain ⟨blanks, opening, core, closing, -, -, -, -, -, ht, hoperand⟩ := r.operand_eq t
  have h := ((Respelled.refl (blanks ++ opening)).append (r.respelled_core core)).append
    (.refl closing)
  rwa [← ht, ← hoperand] at h

theorem respelled_field (d : Option Directive) (t : Text) : Respelled t (r.field d t) := by
  unfold field
  split
  · exact r.respelled_operand t
  · exact r.respelled_operand t
  · exact r.respelled_operand t
  · exact r.respelled_operand t
  · have h := Respelled.join ',' r.respelled_operand (t.cut ',').1 (t.cut ',').2
    rwa [Text.join_cut] at h
  · exact .refl t
  · exact .refl t
  · exact .refl t

theorem respelled_body (t : Text) : Respelled t (r.body t) := by
  have h := (Respelled.refl (t.takeWhile isBlank ++ t.trimStart.word ++
    t.trimStart.afterWord.takeWhile isBlank)).append
      (r.respelled_field (Directive.ofText? t.trimStart.word.upper)
        t.trimStart.afterWord.trimStart)
  rwa [List.append_assoc, Text.blanks_append_trimStart, List.append_assoc,
    Text.word_append_afterWord, Text.blanks_append_trimStart] at h

theorem respelled_code (t : Text) : Respelled t (r.code t) := by
  have h := (r.respelled_name t.word).append (r.respelled_body t.afterWord)
  rwa [Text.word_append_afterWord] at h

theorem respelled_line (t : Text) : Respelled t (r.line t) := by
  unfold line
  split
  · exact .refl t
  · have h := (r.respelled_code (Line.stripComment t)).append
      (.refl (t.drop (Line.stripComment t).length))
    rwa [Line.stripComment_append_drop] at h

/-! ## Lines -/

/-- The line without its comment is renamed as it stands there. -/
theorem stripComment_line {t : Text} (h : t.head? ≠ some '*') :
    Line.stripComment (r.line t) = r.code (Line.stripComment t) := by
  have hcode := r.respelled_code (Line.stripComment t)
  obtain ⟨open?, hopen⟩ := hcode.cutComment Respelled.isOpen_none
    (Line.cutComment_of_prefix (Line.isPrefix_stripComment t))
  obtain ⟨ht, hline⟩ := hopen (t.drop (Line.stripComment t).length)
  rw [Line.stripComment_append_drop] at ht
  -- What stands between the code and the comment is white space.
  obtain ⟨blanks, hblanks, hcut⟩ := (Line.cutComment none t).exists_trimEnd_append
  rw [← Line.stripComment, ht] at hcut
  have htrim : (r.code (Line.stripComment t)).trimEnd = r.code (Line.stripComment t) := by
    rw [Text.trimEnd_eq_self_iff, hcode.getLast? Respelled.ignores_blank,
      ← Text.trimEnd_eq_self_iff]
    exact List.rdropWhile_idempotent _ _
  rw [line, if_neg h, Line.stripComment, hline, List.append_cancel_left hcut,
    Text.trimEnd_append_blank _ hblanks, htrim]

theorem head?_line (t : Text) : (r.line t).head? = some '*' ↔ t.head? = some '*' := by
  have hhead := (r.respelled_line t).head? (Respelled.ignores_eq (x := '*') rfl)
  cases ht : t.head? <;> cases hu : (r.line t).head? <;> simp_all

/-- A carriage return at the end of a line stays there. -/
theorem line_append_return (t : Text) : r.line (t ++ ['\r']) = r.line t ++ ['\r'] := by
  have hhead : (t ++ ['\r']).head? = some '*' ↔ t.head? = some '*' := by
    cases t <;> simp
  unfold line
  by_cases hstar : t.head? = some '*'
  · rw [if_pos hstar, if_pos (hhead.mpr hstar)]
  · rw [if_neg hstar, if_neg (mt hhead.mp hstar),
      Line.stripComment_append_blank t (List.forall_mem_singleton.mpr rfl),
      List.drop_append_of_le_length (Line.isPrefix_stripComment_self t).length_le,
      List.append_assoc]

theorem dropReturn_line (t : Text) : (r.line t).dropReturn = r.line t.dropReturn := by
  by_cases hreturn : t.getLast? = some '\r'
  · obtain ⟨init, rfl⟩ := List.getLast?_eq_some_iff.mp hreturn
    rw [line_append_return]
    simp [Text.dropReturn]
  · have hlast := (r.respelled_line t).getLast? (Respelled.ignores_eq (x := '\r') rfl)
    have hreturn' : (r.line t).getLast? ≠ some '\r' := by
      cases ht : t.getLast? <;> cases hu : (r.line t).getLast? <;> simp_all
    rw [Text.dropReturn, if_neg hreturn', Text.dropReturn, if_neg hreturn]

theorem linesOfPieces_line (first : Text) (rest : List Text) :
    Text.linesOfPieces (r.line first) (rest.map r.line) =
      (Text.linesOfPieces first rest).map r.line := by
  induction rest generalizing first with
  | nil =>
    have hnil := (r.respelled_line first).eq_nil_iff
    simp only [List.map_nil, Text.linesOfPieces, hnil]
    split <;> rfl
  | cons next rest ih =>
    rw [List.map_cons, Text.linesOfPieces, ih, dropReturn_line]
    rfl

/-- The lines of a renamed text are its lines renamed. -/
theorem lines_source (t : Text) : (r.source t).lines = t.lines.map r.line := by
  have hline {piece : Text} (h : '\n' ∉ piece) : '\n' ∉ r.line piece :=
    (r.respelled_line piece).not_mem rfl h
  obtain ⟨hfirst, hrest⟩ := Text.not_mem_cut '\n' t
  have hrest' : ∀ piece ∈ (t.cut '\n').2.map r.line, '\n' ∉ piece := by
    intro piece hpiece
    obtain ⟨original, hmem, rfl⟩ := List.mem_map.mp hpiece
    exact hline (hrest original hmem)
  unfold source Text.lines
  rw [Text.cut_join (hline hfirst) hrest']
  exact r.linesOfPieces_line _ _

end Renaming

end Asm65
