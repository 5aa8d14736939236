-- SUMMARY: A renamed line is read as the line renamed, and fails for the same kind of reason.
import Asm65.Proofs.Decoration
import Asm65.Proofs.Respelling

/-!
# Renamed lines

Layer by layer, from operands to whole lines: the reading of a renamed text is the reading
of the text, renamed. Where a text cannot be read its renaming cannot be read either, and
the faults are of one kind, though they may quote the text.
-/
namespace Asm65

/-- Outcomes that correspond: results by a function, faults by their kind. -/
inductive Alike {α : Type} (f : α → α) : Except Fault α → Except Fault α → Prop
  | ok (a : α) : Alike f (.ok a) (.ok (f a))
  | error {e e' : Fault} : e'.kind = e.kind → Alike f (.error e) (.error e')

namespace Alike

variable {α β : Type} {f : α → α} {x y : Except Fault α}

theorem cases (h : Alike f x y) :
    (∃ a, x = .ok a ∧ y = .ok (f a)) ∨
      ∃ e e', x = .error e ∧ y = .error e' ∧ e'.kind = e.kind := by
  cases h with
  | ok a => exact .inl ⟨a, rfl, rfl⟩
  | error hkind => exact .inr ⟨_, _, rfl, rfl, hkind⟩

theorem bind {g : β → β} {k k' : α → Except Fault β} (h : Alike f x y)
    (hk : ∀ a, x = .ok a → Alike g (k a) (k' (f a))) : Alike g (x >>= k) (y >>= k') := by
  cases h with
  | ok a => exact hk a rfl
  | error hkind => exact .error hkind

theorem map {g : β → β} {k k' : α → β} (h : Alike f x y) (hk : ∀ a, k' (f a) = g (k a)) :
    Alike g (k <$> x) (k' <$> y) := by
  cases h with
  | ok a =>
    have hok := Alike.ok (f := g) (k a)
    rwa [← hk] at hok
  | error hkind => exact .error hkind

end Alike

/-! ## Operands -/

namespace OperandParts

theorem isBlank_of_isOpening {c : Char} (h : isOpening c) : isBlank c = false := by
  unfold isOpening at h
  rw [Bool.or_eq_true, beq_iff_eq, beq_iff_eq] at h
  rcases h with rfl | rfl <;> rfl

/-- The parts of an operand, as they stand in the text with white space around it. -/
theorem ofText_of_core {blanks opening core closing : Text} (hblanks : ∀ c ∈ blanks, isBlank c)
    (hopening : ∀ c ∈ opening, isOpening c) (hne : core ≠ []) (hcore : ∀ c ∈ core, isCore c)
    (hclosing : closing.head?.map isCore ≠ some true) :
    ofText (blanks ++ opening ++ core ++ closing) =
      if closing.trimEnd.all isClosing then .ok ⟨opening, core, closing.trimEnd⟩
      else .error (.parse ("bad operand `" ++
        String.ofList (opening ++ (core ++ closing.trimEnd)) ++ "`")) := by
  obtain ⟨first, others, rfl⟩ := List.exists_cons_of_ne_nil hne
  have hfirst := hcore first (List.mem_cons_self ..)
  have htrim : (blanks ++ opening ++ (first :: others) ++ closing).trim =
      opening ++ (first :: others ++ closing.trimEnd) := by
    have hlast : (blanks ++ opening ++ (first :: others)).getLast?.map isBlank ≠ some true := by
      rw [List.getLast?_append_of_ne_nil _ hne, List.getLast?_eq_some_getLast hne]
      intro h
      have hblank := Option.some.inj h
      rw [isBlank_of_isCore (hcore _ (List.getLast_mem hne))] at hblank
      cases hblank
    have hhead : (opening ++ (first :: others ++ closing.trimEnd)).head?.map isBlank ≠
        some true := by
      cases opening with
      | nil => exact Text.head?_cons_ne (isBlank_of_isCore hfirst) _
      | cons c opening =>
        exact Text.head?_cons_ne (isBlank_of_isOpening (hopening c (List.mem_cons_self ..))) _
    rw [Text.trim, Text.trimEnd_append hlast closing, List.append_assoc, List.append_assoc]
    exact Text.dropWhile_append hblanks hhead
  have hopens : (first :: others ++ closing.trimEnd).head?.map isOpening ≠ some true :=
    Text.head?_cons_ne (isOpening_of_isCore hfirst) _
  have hcloses := Text.head?_ne_of_prefix closing.isPrefix_trimEnd hclosing
  unfold ofText
  simp only [htrim, Text.takeWhile_append hopening hopens, Text.dropWhile_append hopening hopens,
    Text.takeWhile_append hcore hcloses, Text.dropWhile_append hcore hcloses]
  by_cases hall : closing.trimEnd.all isClosing
  · rw [if_pos ⟨hne, hall⟩, if_pos hall]
  · rw [if_neg fun h => hall h.2, if_neg hall]

/-- Without a core there is no operand. -/
theorem ofText_of_not_core {t : Text}
    (h : (t.trimStart.dropWhile isOpening).takeWhile isCore = []) :
    ∃ detail, ofText t = .error (.parse detail) := by
  have hprefix : t.trim.dropWhile isOpening <+: t.trimStart.dropWhile isOpening :=
    Text.isPrefix_dropWhile isOpening (Text.isPrefix_dropWhile isBlank t.isPrefix_trimEnd)
  have hcore : (t.trim.dropWhile isOpening).takeWhile isCore = [] :=
    Text.takeWhile_eq_nil_iff.mpr
      (Text.head?_ne_of_prefix hprefix (Text.takeWhile_eq_nil_iff.mp h))
  unfold ofText
  simp only [hcore]
  exact ⟨_, if_neg fun h => h.1 rfl⟩

end OperandParts

namespace Renaming

variable (r : Renaming)

theorem core_nil : r.core [] = [] := (r.core_eq_nil_iff []).mpr rfl

theorem isCore_core {t : Text} (h : ∀ c ∈ t, OperandParts.isCore c) :
    ∀ c ∈ r.core t, OperandParts.isCore c :=
  (r.respelled_core t).forall_mem (fun _ => OperandParts.isCore_of_isNameChar) h

def parts (parts : OperandParts) : OperandParts := { parts with core := r.core parts.core }

theorem alike_parts (t : Text) :
    Alike r.parts (OperandParts.ofText t) (OperandParts.ofText (r.operand t)) := by
  obtain ⟨blanks, opening, core, closing, hblanks, hopening, hcore, hclosing, hread, ht,
    hoperand⟩ := r.operand_eq t
  by_cases hnil : core = []
  · have hsame : r.operand t = t := by rw [hoperand, hnil, core_nil, ht, hnil]
    obtain ⟨detail, herror⟩ := OperandParts.ofText_of_not_core (hread.trans hnil)
    rw [hsame, herror]
    exact .error rfl
  · have hnil' := (r.core_eq_nil_iff core).not.mpr hnil
    rw [hoperand, ht, OperandParts.ofText_of_core hblanks hopening hnil hcore hclosing,
      OperandParts.ofText_of_core hblanks hopening hnil' (r.isCore_core hcore) hclosing]
    split
    · exact .ok (OperandParts.mk opening core closing.trimEnd)
    · exact .error rfl

/-! ## Arguments -/

theorem alike_ofCore {core : Text} (h : ∀ c ∈ core, OperandParts.isCore c) :
    Alike r.argument (Argument.ofCore core) (Argument.ofCore (r.core core)) := by
  have hparse := r.parse_core fun c hc => OperandParts.isBlank_of_isCore (h c hc)
  unfold Argument.ofCore
  cases he : Expr.parse core with
  | error e =>
    cases he' : Expr.parse (r.core core) with
    | error e' => exact .error rfl
    | ok e' =>
      rw [he, he'] at hparse
      cases hparse
  | ok e =>
    cases he' : Expr.parse (r.core core) with
    | error e' =>
      rw [he, he'] at hparse
      cases hparse
    | ok e' =>
      rw [he, he'] at hparse
      cases hparse
      exact .ok (Argument.mk core e)

theorem alike_ofText (t : Text) :
    Alike r.argument (Argument.ofText t) (Argument.ofText (r.operand t)) :=
  (r.alike_parts t).bind fun _ hread =>
    r.alike_ofCore (OperandParts.divides_of_ofText hread).isCore_core

theorem alike_ofRequired (t : Option Text) :
    Alike r.argument (Argument.ofRequired t) (Argument.ofRequired (t.map r.operand)) := by
  cases t with
  | none => exact .error rfl
  | some t => exact r.alike_ofText t

theorem alike_mapM (ts : List Text) :
    Alike (List.map r.argument) (ts.mapM Argument.ofText)
      ((ts.map r.operand).mapM Argument.ofText) := by
  induction ts with
  | nil => exact .ok []
  | cons t rest ih =>
    rw [List.map_cons, List.mapM_cons, List.mapM_cons]
    refine (r.alike_ofText t).bind fun a _ => ih.bind fun others _ => ?_
    exact .ok (a :: others)

theorem leading_operand (ts : List Text) :
    Argument.leading (ts.map r.operand) = (Argument.leading ts).map r.argument := by
  induction ts with
  | nil => rfl
  | cons t rest ih =>
    rw [List.map_cons, Argument.leading, Argument.leading]
    rcases (r.alike_ofText t).cases with ⟨a, ha, ha'⟩ | ⟨e, e', he, he', -⟩
    · rw [ha, ha', ih]
      rfl
    · rw [he, he']
      rfl

/-! ## Statements -/

theorem core_eq_accumulator_iff (t : Text) : r.core t = ['A'] ↔ t = ['A'] := by
  have h := r.respelled_core t
  constructor
  · intro heq
    rw [heq] at h
    exact h.symm.eq_accumulator rfl
  · exact h.eq_accumulator

/-- The register `A` is no symbol, so an operand that is not it never becomes it. -/
theorem shape?_parts (parts : OperandParts) : (r.parts parts).shape? = parts.shape? := by
  unfold OperandParts.shape?
  simp only [Renaming.parts, core_eq_accumulator_iff]

/-- A renamed operand means the same modes, around a renamed core. -/
theorem alike_operand (t : Text) :
    Alike (fun operand : Operand => { operand with core := r.core operand.core })
      (Operand.parse t) (Operand.parse (r.operand t)) := by
  refine (r.alike_parts t).bind fun parts _ => ?_
  rw [shape?_parts]
  split
  · next shape _ => exact .ok (Operand.mk parts.core shape)
  · exact .error rfl

theorem modes_operand (operand : Option Operand) :
    Operand.modes (operand.map fun o => { o with core := r.core o.core }) =
      Operand.modes operand := by
  cases operand <;> rfl

theorem alike_ofInstruction (mnemonic : Text) {operand : Option Operand}
    (h : ∀ o, operand = some o → ∀ c ∈ o.core, OperandParts.isCore c) :
    Alike r.reading (Reading.ofInstruction mnemonic operand)
      (Reading.ofInstruction mnemonic
        (operand.map fun o => { o with core := r.core o.core })) := by
  unfold Reading.ofInstruction
  rw [modes_operand]
  split
  · exact .error rfl
  · next m _ =>
    split
    · exact .error rfl
    · next wide _ =>
      cases operand with
      | none => exact .ok (Reading.instruction m wide none)
      | some o =>
        dsimp only [Option.map_some]
        split
        · exact (r.alike_ofCore (h o rfl)).map fun a => rfl
        · exact .ok (Reading.instruction m wide none)

theorem splitOn_field (t : Text) :
    (r.field (some .da) t).splitOn ',' = (t.splitOn ',').map r.operand := by
  have hoperand {piece : Text} (h : ',' ∉ piece) : ',' ∉ r.operand piece :=
    (r.respelled_operand piece).not_mem rfl h
  obtain ⟨hfirst, hrest⟩ := Text.not_mem_cut ',' t
  have hrest' : ∀ piece ∈ (t.cut ',').2.map r.operand, ',' ∉ piece := by
    intro piece hpiece
    obtain ⟨original, hmem, rfl⟩ := List.mem_map.mp hpiece
    exact hoperand (hrest original hmem)
  unfold field Text.splitOn
  rw [Text.cut_join (hoperand hfirst) hrest']
  rfl

theorem alike_ofDirective (label : Option Text) (d : Directive) (operand : Option Text) :
    Alike r.reading (Reading.ofDirective label d operand)
      (Reading.ofDirective (label.map r.name) d (operand.map (r.field (some d)))) := by
  cases d with
  | data kind =>
    have hsame : operand.map (r.field (some (.data kind))) = operand := Option.map_id_apply
    rw [hsame]
    unfold Reading.ofDirective
    dsimp only
    split
    · next bytes _ => exact .ok (Reading.data (kind.arrange bytes))
    · exact .error rfl
  | equ =>
    cases label with
    | none => exact .error rfl
    | some name => exact (r.alike_ofRequired operand).map fun a => rfl
  | org => exact (r.alike_ofRequired operand).map fun a => rfl
  | da =>
    cases operand with
    | none => exact .error rfl
    | some text =>
      have hwords := r.alike_mapM (text.splitOn ',')
      rw [← splitOn_field] at hwords
      exact hwords.map fun arguments => rfl
  | ds => exact (r.alike_ofRequired operand).map fun a => rfl
  | chk => exact .ok Reading.nothing
  | skipped kind => exact .ok Reading.nothing

/-! ## Lines -/

theorem arguments_reading (rd : Reading) :
    (r.reading rd).arguments = rd.arguments.map r.argument := by
  cases rd with
  | instruction m wide argument => cases argument <;> rfl
  | _ => rfl

/-- The second line is the first one renamed: this is all that assembling lines looks at. -/
structure Lines (line line' : Line) : Prop where
  addressLabel? : line'.addressLabel? = line.addressLabel?.map r.name
  reading : Alike r.reading line.reading line'.reading
  arguments : line'.arguments = line.arguments.map r.argument

variable {r} {line line' : Line}

/-- The arguments follow from the reading, unless a list of words cannot be read. -/
theorem arguments_of_alike (h : Alike r.reading line.reading line'.reading)
    (herror : ∀ e e', line.reading = .error e → line'.reading = .error e' →
      line'.arguments = line.arguments.map r.argument) :
    line'.arguments = line.arguments.map r.argument := by
  rcases h.cases with ⟨rd, hread, hread'⟩ | ⟨e, e', he, he', -⟩
  · rw [Line.arguments_of_reading hread, Line.arguments_of_reading hread', arguments_reading]
  · exact herror e e' he he'

variable (r)

theorem lines_directive (label : Option Text) (d : Directive) (operand : Option Text) :
    r.Lines ⟨label, .ok (.directive d operand)⟩
      ⟨label.map r.name, .ok (.directive d (operand.map (r.field (some d))))⟩ := by
  have hread := r.alike_ofDirective label d operand
  refine ⟨?_, hread, arguments_of_alike hread fun e e' he he' => ?_⟩
  · cases d <;> rfl
  · unfold Line.arguments
    rw [he, he']
    cases d with
    | da =>
      cases operand with
      | none => rfl
      | some text =>
        dsimp only [Option.map_some]
        rw [splitOn_field, leading_operand]
    | _ => rfl

theorem lines_instruction (label : Option Text) (mnemonic : Text) {operand : Option Operand}
    (h : ∀ o, operand = some o → ∀ c ∈ o.core, OperandParts.isCore c) :
    r.Lines ⟨label, .ok (.instruction mnemonic operand)⟩
      ⟨label.map r.name, .ok (.instruction mnemonic
        (operand.map fun o => { o with core := r.core o.core }))⟩ := by
  have hread := r.alike_ofInstruction mnemonic h
  refine ⟨rfl, hread, arguments_of_alike hread fun e e' he he' => ?_⟩
  unfold Line.arguments
  rw [he, he']
  rfl

theorem lines_error (label : Option Text) {e e' : Fault} (h : e'.kind = e.kind) :
    r.Lines ⟨label, .error e⟩ ⟨label.map r.name, .error e'⟩ :=
  ⟨rfl, .error h, rfl⟩

theorem lines_blank (label : Option Text) :
    r.Lines ⟨label, .ok .blank⟩ ⟨label.map r.name, .ok .blank⟩ :=
  ⟨rfl, .ok Reading.nothing, rfl⟩

theorem lines_statement (label : Option Text) (mnemonic : Text) (operand : Option Text) :
    r.Lines ⟨label, Line.parseStatement mnemonic operand⟩
      ⟨label.map r.name, Line.parseStatement mnemonic
        (operand.map (r.field (Directive.ofText? mnemonic)))⟩ := by
  unfold Line.parseStatement
  cases Directive.ofText? mnemonic with
  | some d => exact r.lines_directive label d operand
  | none =>
    cases operand with
    | none => exact r.lines_instruction label mnemonic fun o h => nomatch h
    | some text =>
      dsimp only [Option.map_some]
      rcases (r.alike_operand text).cases with ⟨o, ho, ho'⟩ | ⟨e, e', he, he', hkind⟩
      · have hcore : ∀ o', some o = some o' → ∀ c ∈ o'.core, OperandParts.isCore c := by
          intro o' heq
          obtain rfl := Option.some.inj heq
          exact (Operand.parse_ok_iff_denotes.mp ho).isCore_core
        have hlines := r.lines_instruction label mnemonic hcore
        rw [ho]
        change r.Lines _ ⟨_, _ <$> Operand.parse (r.operand text)⟩
        rw [ho']
        exact hlines
      · rw [he]
        change r.Lines _ ⟨_, _ <$> Operand.parse (r.operand text)⟩
        rw [he']
        exact r.lines_error label hkind

/-! ## Fields -/

/-- The label of a line ends where it did. -/
theorem fields_code (t : Text) :
    (r.code t).word = r.name t.word ∧ (r.code t).afterWord = r.body t.afterWord := by
  have hword : ∀ c ∈ r.name t.word, (!isBlank c) = true := by
    refine (r.respelled_name t.word).forall_mem (fun c hc => ?_) fun c hc => ?_
    · rw [isBlank_of_isNameChar hc]
      rfl
    · rw [Text.not_blank_of_mem_word hc]
      rfl
  have hbody : (r.body t.afterWord).head?.map (fun c => !isBlank c) ≠ some true := by
    rw [(r.respelled_body t.afterWord).head? Respelled.ignores_not_blank]
    exact Text.head?_dropWhile _ t
  exact ⟨Text.takeWhile_append hword hbody, Text.dropWhile_append hword hbody⟩

/-- The operand field of a line is renamed as it stands there. -/
theorem field?_operand (d : Option Directive) {t : Text} (h : t.trimEnd = t) :
    Line.field? (t.takeWhile isBlank ++ r.field d t.trimStart) =
      (Line.field? t).map (r.field d) := by
  have hfield := r.respelled_field d t.trimStart
  have hblanks : ∀ c ∈ t.takeWhile isBlank, isBlank c := fun _ => List.mem_takeWhile_imp
  have hstart : Text.trimStart (t.takeWhile isBlank ++ r.field d t.trimStart) =
      r.field d t.trimStart := by
    refine Text.dropWhile_append hblanks ?_
    rw [hfield.head? Respelled.ignores_blank]
    exact Text.head?_dropWhile isBlank t
  have hend : Text.trimEnd (t.takeWhile isBlank ++ r.field d t.trimStart) =
      t.takeWhile isBlank ++ r.field d t.trimStart := by
    have hwhole := (Respelled.refl (t.takeWhile isBlank)).append hfield
    rw [t.blanks_append_trimStart] at hwhole
    rw [Text.trimEnd_eq_self_iff, hwhole.getLast? Respelled.ignores_blank,
      ← Text.trimEnd_eq_self_iff]
    exact h
  unfold Line.field? Text.trim
  rw [hend, hstart, h]
  simp only [hfield.eq_nil_iff]
  split <;> rfl

/-- The mnemonic of a line stays, and it tells how the operand field was renamed. -/
theorem parseBody_body {t : Text} (h : t.trimEnd = t) :
    Line.parseBody (r.body t) =
      if t.trimStart = [] then .ok .blank
      else Line.parseStatement t.trimStart.word.upper ((Line.field? t.trimStart.afterWord).map
        (r.field (Directive.ofText? t.trimStart.word.upper))) := by
  have hblanks : ∀ c ∈ t.takeWhile isBlank, isBlank c := fun _ => List.mem_takeWhile_imp
  have hword : ∀ c ∈ t.trimStart.word, (!isBlank c) = true := fun _ => List.mem_takeWhile_imp
  generalize hd : Directive.ofText? t.trimStart.word.upper = d
  -- The operand field, with the white space before it, and what comes before that.
  have hrest := (Respelled.refl (t.trimStart.afterWord.takeWhile isBlank)).append
    (r.respelled_field d t.trimStart.afterWord.trimStart)
  rw [Text.blanks_append_trimStart] at hrest
  have hbody := (Respelled.refl t.trimStart.word).append hrest
  rw [Text.word_append_afterWord] at hbody
  have hstart : (r.body t).trimStart = t.trimStart.word ++
      (t.trimStart.afterWord.takeWhile isBlank ++
        r.field d t.trimStart.afterWord.trimStart) := by
    unfold body
    rw [hd, List.append_assoc, List.append_assoc]
    refine Text.dropWhile_append hblanks ?_
    rw [hbody.head? Respelled.ignores_blank]
    exact Text.head?_dropWhile isBlank t
  have hboundary : (t.trimStart.afterWord.takeWhile isBlank ++
      r.field d t.trimStart.afterWord.trimStart).head?.map (fun c => !isBlank c) ≠
        some true := by
    rw [hrest.head? Respelled.ignores_not_blank]
    exact Text.head?_dropWhile _ t.trimStart
  have hafter : t.trimStart.afterWord.trimEnd = t.trimStart.afterWord :=
    Text.trimEnd_of_suffix h ((List.dropWhile_suffix _).trans (List.dropWhile_suffix _))
  unfold Line.parseBody
  rw [hstart]
  simp only [hbody.eq_nil_iff]
  split
  · rfl
  · rw [Text.word, Text.takeWhile_append hword hboundary, Text.afterWord,
      Text.dropWhile_append hword hboundary, r.field?_operand d hafter]

theorem lines_code {t : Text} (h : t.trimEnd = t) :
    r.Lines (Line.parseFields t) (Line.parseFields (r.code t)) := by
  obtain ⟨hword, hafter⟩ := r.fields_code t
  have hlabel : (if r.name t.word = [] then none else some (r.name t.word)) =
      (if t.word = [] then none else some t.word).map r.name := by
    simp only [r.name_eq_nil_iff]
    split <;> rfl
  have hsuffix : t.afterWord.trimEnd = t.afterWord :=
    Text.trimEnd_of_suffix h (List.dropWhile_suffix _)
  rw [Line.parseFields_eq, Line.parseFields_eq, hword, hafter, hlabel, r.parseBody_body hsuffix]
  generalize (if t.word = [] then none else some t.word) = label
  unfold Line.parseBody
  split
  · exact r.lines_blank label
  · exact r.lines_statement label _ _

/-- What is read from a renamed line is what is read from the line, renamed. -/
theorem lines_line (t : Text) : r.Lines (Line.parse t) (Line.parse (r.line t)) := by
  unfold Line.parse
  by_cases hstar : t.head? = some '*'
  · rw [if_pos hstar, if_pos ((r.head?_line t).mpr hstar)]
    exact r.lines_blank none
  · rw [if_neg hstar, if_neg (mt (r.head?_line t).mp hstar), r.stripComment_line hstar]
    exact r.lines_code (List.rdropWhile_idempotent _ _)

end Renaming

end Asm65
