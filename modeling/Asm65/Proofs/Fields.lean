-- SUMMARY: Comments and fields of a line: what is cut off, and the line that holds the label only.
import Asm65.Line
import Mathlib.Data.List.DropRight
import Mathlib.Data.List.Infix
import Mathlib.Data.List.TakeWhile

/-!
# Fields of a line

A line is read from left to right, and so each part of it is a prefix of what is left of the
line: the text before the comment, that text without the white space at its end, and the
label. A prefix of a text without a comment has none either. Hence the label of a line, taken
as a line, is read as that label alone.
-/
namespace Asm65

namespace Text

theorem isPrefix_trimEnd (t : Text) : t.trimEnd <+: t :=
  t.rdropWhile_prefix Asm65.isBlank

theorem trimEnd_of_not_blank {t : Text} (h : ∀ c ∈ t, Asm65.isBlank c = false) :
    t.trimEnd = t := by
  refine List.rdropWhile_eq_self_iff.mpr fun hne hblank => ?_
  rw [h _ (List.getLast_mem hne)] at hblank
  cases hblank

theorem trim_of_not_blank {t : Text} (h : ∀ c ∈ t, Asm65.isBlank c = false) : t.trim = t := by
  rw [trim, trimEnd_of_not_blank h]
  refine List.dropWhile_eq_self_iff.mpr fun hpos hblank => ?_
  rw [h _ (List.getElem_mem hpos)] at hblank
  cases hblank

theorem isPrefix_word (t : Text) : t.word <+: t := List.takeWhile_prefix _

theorem not_blank_of_mem_word {t : Text} {c : Char} (h : c ∈ t.word) :
    Asm65.isBlank c = false := by
  simpa using List.mem_takeWhile_imp h

theorem word_of_not_blank {t : Text} (h : ∀ c ∈ t, Asm65.isBlank c = false) : t.word = t := by
  refine List.takeWhile_eq_self_iff.mpr fun c hc => ?_
  rw [h c hc]
  rfl

theorem afterWord_of_not_blank {t : Text} (h : ∀ c ∈ t, Asm65.isBlank c = false) :
    t.afterWord = [] := by
  refine List.dropWhile_eq_nil_iff.mpr fun c hc => ?_
  rw [h c hc]
  rfl

/-! ## Runs of characters -/

/-- A run ends where the predicate first fails. -/
theorem takeWhile_append {p : Char → Bool} {run rest : Text} (hrun : ∀ c ∈ run, p c)
    (hrest : rest.head?.map p ≠ some true) : (run ++ rest).takeWhile p = run := by
  rw [List.takeWhile_append_of_pos hrun]
  cases rest with
  | nil => simp
  | cons c rest => simpa using hrest

theorem dropWhile_append {p : Char → Bool} {run rest : Text} (hrun : ∀ c ∈ run, p c)
    (hrest : rest.head?.map p ≠ some true) : (run ++ rest).dropWhile p = rest := by
  rw [List.dropWhile_append_of_pos hrun]
  cases rest with
  | nil => rfl
  | cons c rest => exact List.dropWhile_cons_of_neg fun hc => hrest (congrArg some hc)

theorem head?_dropWhile (p : Char → Bool) (t : Text) :
    (t.dropWhile p).head?.map p ≠ some true := by
  induction t with
  | nil => simp
  | cons c t ih =>
    rw [List.dropWhile_cons]
    split
    · exact ih
    · next hc => exact fun h => hc (Option.some.inj h)

theorem head?_cons_ne {p : Char → Bool} {c : Char} (h : p c = false) (t : Text) :
    (c :: t).head?.map p ≠ some true := by
  intro heq
  rw [Option.some.inj heq] at h
  cases h

theorem head?_ne_of_prefix {p : Char → Bool} {t u : Text} (h : t <+: u)
    (hu : u.head?.map p ≠ some true) : t.head?.map p ≠ some true := by
  obtain ⟨rest, rfl⟩ := h
  cases t with
  | nil => simp
  | cons c t => exact hu

theorem isPrefix_dropWhile (p : Char → Bool) {t u : Text} (h : t <+: u) :
    t.dropWhile p <+: u.dropWhile p := by
  obtain ⟨rest, rfl⟩ := h
  rw [List.dropWhile_append]
  split
  · next hempty =>
    rw [List.isEmpty_iff.mp hempty]
    exact List.nil_prefix
  · exact List.prefix_append _ _

theorem takeWhile_eq_nil_iff {p : Char → Bool} {t : Text} :
    t.takeWhile p = [] ↔ t.head?.map p ≠ some true := by
  cases t with
  | nil => simp
  | cons c t => simp [List.takeWhile_cons]

theorem blanks_append_trimStart (t : Text) : t.takeWhile Asm65.isBlank ++ t.trimStart = t :=
  List.takeWhile_append_dropWhile

/-! ## White space at the end -/

theorem trimEnd_eq_self_iff {t : Text} :
    t.trimEnd = t ↔ t.getLast?.map Asm65.isBlank ≠ some true := by
  refine List.rdropWhile_eq_self_iff.trans ?_
  cases t with
  | nil => simp
  | cons c t => simp [List.getLast?_eq_some_getLast]

theorem trimEnd_of_suffix {t suffix : Text} (h : t.trimEnd = t) (hsuffix : suffix <:+ t) :
    suffix.trimEnd = suffix := by
  obtain ⟨init, rfl⟩ := hsuffix
  rw [trimEnd_eq_self_iff] at h ⊢
  cases suffix with
  | nil => simp
  | cons c suffix =>
    rwa [List.getLast?_append_of_ne_nil _ (List.cons_ne_nil c suffix)] at h

/-- What trimming takes away is white space. -/
theorem exists_trimEnd_append (t : Text) :
    ∃ blanks, (∀ c ∈ blanks, Asm65.isBlank c) ∧ t = t.trimEnd ++ blanks :=
  ⟨t.rtakeWhile Asm65.isBlank, fun _ hc => List.mem_rtakeWhile_imp hc,
    List.rdropWhile_append_rtakeWhile.symm⟩

theorem trimEnd_append {t : Text} (h : t.getLast?.map Asm65.isBlank ≠ some true) (more : Text) :
    (t ++ more).trimEnd = t ++ more.trimEnd := by
  have ht : t.reverse.dropWhile Asm65.isBlank = t.reverse :=
    List.reverse_inj.mp ((trimEnd_eq_self_iff.mpr h).trans t.reverse_reverse.symm)
  unfold trimEnd
  rw [List.reverse_append, List.dropWhile_append, ht]
  split
  · next hempty => rw [List.isEmpty_iff.mp hempty, List.reverse_reverse]; simp
  · rw [List.reverse_append, List.reverse_reverse]

theorem trimEnd_append_blank (t : Text) {blanks : Text} (h : ∀ c ∈ blanks, Asm65.isBlank c) :
    (t ++ blanks).trimEnd = t.trimEnd := by
  have hreverse : ∀ c ∈ blanks.reverse, Asm65.isBlank c :=
    fun c hc => h c (List.mem_reverse.mp hc)
  unfold trimEnd
  rw [List.reverse_append, List.dropWhile_append_of_pos hreverse]

end Text

/-! ## White space at both ends -/

/-- White space; there may be none. -/
abbrev Blanks := { t : Text // t.isBlank }

namespace Blanks

theorem isBlank (b : Blanks) : ∀ c ∈ b.val, Asm65.isBlank c := List.all_eq_true.mp b.property

/-- White space ends the word before it. -/
theorem head?_append (b : Blanks) (h : b.val ≠ []) (rest : Text) :
    (b.val ++ rest).head?.map (!Asm65.isBlank ·) ≠ some true := by
  obtain ⟨c, others, hcons⟩ := List.exists_cons_of_ne_nil h
  have hc := b.isBlank c (hcons ▸ List.mem_cons_self ..)
  rw [hcons]
  exact Text.head?_cons_ne (congrArg not hc) _

def append (a b : Blanks) : Blanks :=
  ⟨a.val ++ b.val, List.all_eq_true.mpr (List.forall_mem_append.mpr ⟨a.isBlank, b.isBlank⟩)⟩

end Blanks

namespace Text

variable {t : Text}

/-- A text is what is left of it when it is trimmed, with white space on both sides. -/
theorem exists_blanks_trim (t : Text) :
    ∃ leading trailing : Blanks, t = leading.val ++ t.trim ++ trailing.val := by
  obtain ⟨blanks, hblanks, ht⟩ := t.exists_trimEnd_append
  have hleading : ∀ c ∈ t.trimEnd.takeWhile Asm65.isBlank, Asm65.isBlank c :=
    fun _ => List.mem_takeWhile_imp
  refine ⟨⟨_, List.all_eq_true.mpr hleading⟩, ⟨blanks, List.all_eq_true.mpr hblanks⟩, ?_⟩
  rw [trim, t.trimEnd.blanks_append_trimStart]
  exact ht

theorem trimEnd_of_trim (h : t.trim = t) : t.trimEnd = t := by
  have hsuffix : t.trim <:+ t.trimEnd := List.dropWhile_suffix _
  rw [h] at hsuffix
  exact t.isPrefix_trimEnd.eq_of_length_le hsuffix.length_le

theorem trim_of_ends (hhead : t.head?.map Asm65.isBlank ≠ some true)
    (hlast : t.getLast?.map Asm65.isBlank ≠ some true) : t.trim = t := by
  rw [trim, trimEnd_eq_self_iff.mpr hlast]
  exact dropWhile_append (List.forall_mem_nil _) hhead

theorem trimStart_of_trim (h : t.trim = t) : t.trimStart = t := by
  rwa [trim, trimEnd_of_trim h] at h

/-- White space around a text that has none at its ends is all that trimming takes away. -/
theorem trim_blanks_append (leading trailing : Blanks) (h : t.trim = t) :
    (leading.val ++ t ++ trailing.val).trim = t := by
  rw [trim, trimEnd_append_blank _ trailing.isBlank]
  by_cases hnil : t = []
  · subst hnil
    have hend := trimEnd_append_blank [] leading.isBlank
    rw [List.nil_append] at hend
    rw [List.append_nil, hend]
    rfl
  · have hlast := trimEnd_eq_self_iff.mp (trimEnd_of_trim h)
    have hhead := head?_dropWhile Asm65.isBlank t
    rw [← trimStart, trimStart_of_trim h] at hhead
    have hend : (leading.val ++ t).trimEnd = leading.val ++ t := by
      rw [trimEnd_eq_self_iff, List.getLast?_append_of_ne_nil _ hnil]
      exact hlast
    rw [hend]
    exact dropWhile_append leading.isBlank hhead

end Text

namespace Line

/-! ## Comments -/

theorem cutComment_cons (c : Char) (t : Text) :
    cutComment none (c :: t) =
      if c = ';' then [] else c :: cutComment (if isQuote c then some c else none) t := rfl

theorem cutComment_cons_quoted (q c : Char) (t : Text) :
    cutComment (some q) (c :: t) = c :: cutComment (if c = q then none else some q) t := rfl

theorem isPrefix_cutComment (quote : Option Char) (t : Text) : cutComment quote t <+: t := by
  fun_induction cutComment quote t with
  | case1 => exact List.nil_prefix
  | case2 => exact List.nil_prefix
  | case3 c rest _ ih => exact (List.prefix_cons_inj c).mpr ih
  | case4 q c rest ih => exact (List.prefix_cons_inj c).mpr ih

/-- A text whose comment was cut off has none left, nor has the beginning of such a text. -/
theorem cutComment_of_prefix {quote : Option Char} {t piece : Text}
    (h : piece <+: cutComment quote t) : cutComment quote piece = piece := by
  fun_induction cutComment quote t generalizing piece with
  | case1 =>
    rw [List.prefix_nil.mp h, cutComment]
  | case2 =>
    rw [List.prefix_nil.mp h, cutComment]
  | case3 c rest hc ih =>
    rcases List.prefix_cons_iff.mp h with rfl | ⟨tail, rfl, htail⟩
    · rw [cutComment]
    · rw [cutComment, if_neg hc, ih htail]
  | case4 q c rest ih =>
    rcases List.prefix_cons_iff.mp h with rfl | ⟨tail, rfl, htail⟩
    · rw [cutComment]
    · rw [cutComment, ih htail]

theorem isPrefix_stripComment (t : Text) : stripComment t <+: cutComment none t :=
  (cutComment none t).isPrefix_trimEnd

theorem isPrefix_stripComment_self (t : Text) : stripComment t <+: t :=
  (isPrefix_stripComment t).trans (isPrefix_cutComment none t)

theorem stripComment_append_drop (t : Text) :
    stripComment t ++ t.drop (stripComment t).length = t :=
  List.prefix_iff_eq_append.mp (isPrefix_stripComment_self t)

/-- White space at the end of a line is part of a comment or of nothing. -/
theorem cutComment_append_blank (quote : Option Char) (t : Text) {blanks : Text}
    (h : ∀ c ∈ blanks, isBlank c) :
    ∃ more, (∀ c ∈ more, isBlank c) ∧
      cutComment quote (t ++ blanks) = cutComment quote t ++ more := by
  fun_induction cutComment quote t with
  | case1 quote =>
    exact ⟨cutComment quote blanks,
      fun c hc => h c ((isPrefix_cutComment quote blanks).subset hc), rfl⟩
  | case2 => exact ⟨[], List.forall_mem_nil _, rfl⟩
  | case3 c rest hc ih =>
    obtain ⟨more, hmore, heq⟩ := ih
    refine ⟨more, hmore, ?_⟩
    rw [List.cons_append, cutComment_cons, if_neg hc, heq]
    rfl
  | case4 q c rest ih =>
    obtain ⟨more, hmore, heq⟩ := ih
    refine ⟨more, hmore, ?_⟩
    rw [List.cons_append, cutComment_cons_quoted, heq]
    rfl

theorem stripComment_append_blank (t : Text) {blanks : Text} (h : ∀ c ∈ blanks, isBlank c) :
    stripComment (t ++ blanks) = stripComment t := by
  obtain ⟨more, hmore, heq⟩ := cutComment_append_blank none t h
  rw [stripComment, heq, Text.trimEnd_append_blank _ hmore, stripComment]

/-! ## Labels -/

/-- The label of a line as it stands in the text: the first word of a line that is no
comment. -/
theorem word_of_label {source name : Text} (h : (parse source).label = some name) :
    source.head? ≠ some '*' ∧ name ≠ [] ∧ (stripComment source).word = name := by
  unfold parse at h
  split at h
  · cases h
  · next hstar =>
    unfold parseFields at h
    split at h
    · cases h
    · next hword =>
      obtain rfl : (stripComment source).word = name := Option.some.inj h
      exact ⟨hstar, hword, rfl⟩

/-- A label alone on its line is read as that label. -/
theorem parse_label {source name : Text} (h : (parse source).label = some name) :
    parse name = ⟨some name, .ok .blank⟩ := by
  obtain ⟨hstar, hne, rfl⟩ := word_of_label h
  have hprefix : (stripComment source).word <+: cutComment none source :=
    (stripComment source).isPrefix_word.trans (isPrefix_stripComment source)
  have hsource := hprefix.trans (isPrefix_cutComment none source)
  generalize hname : (stripComment source).word = name at hne hprefix hsource
  have hblank : ∀ c ∈ name, isBlank c = false := fun c hc =>
    Text.not_blank_of_mem_word (hname ▸ hc)
  have hhead : name.head? ≠ some '*' := by
    obtain ⟨c, rest, rfl⟩ := List.exists_cons_of_ne_nil hne
    obtain ⟨others, rfl⟩ := hsource
    exact hstar
  have hstrip : stripComment name = name := by
    rw [stripComment, cutComment_of_prefix hprefix, Text.trimEnd_of_not_blank hblank]
  rw [parse, if_neg hhead, hstrip, parseFields, Text.word_of_not_blank hblank, if_neg hne,
    Text.afterWord_of_not_blank hblank]
  rfl

/-- The label of a line, if there is one, and what follows it. -/
theorem parseFields_eq (t : Text) :
    parseFields t = ⟨if t.word = [] then none else some t.word, parseBody t.afterWord⟩ := by
  unfold parseFields
  split
  · next hnil =>
    have hafter := t.word_append_afterWord
    rw [hnil, List.nil_append] at hafter
    rw [hafter]
  · rfl

theorem label_of_addressLabel? {line : Line} {name : Text}
    (h : line.addressLabel? = some name) : line.label = some name := by
  unfold addressLabel? at h
  split at h
  · cases h
  · exact h

/-- What is left of a source line if only its label is kept; nothing if it has none or if it
is an `EQU`. -/
def bare (source : Text) : Text := (parse source).addressLabel?.getD []

theorem parse_bare (source : Text) :
    parse (bare source) = ⟨(parse source).addressLabel?, .ok .blank⟩ := by
  unfold bare
  cases hlabel : (parse source).addressLabel? with
  | none => rfl
  | some name => exact parse_label (label_of_addressLabel? hlabel)

theorem addressLabel?_bare (source : Text) :
    (parse (bare source)).addressLabel? = (parse source).addressLabel? := by
  rw [parse_bare]
  rfl

end Line

end Asm65
