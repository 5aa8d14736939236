-- SUMMARY: White space and comments behind lines change nothing but the listing, on one line or on many.
import Asm65.Proofs.Run
import Asm65.Proofs.WrittenLine

/-!
# Remarks

White space may be put behind every line, and a comment too where no quote is open. The scan for
the comment comes through the line in the same way as before, and what is left of the line without
the comment and without the white space at its end is the same text. Nothing that a line does hangs
on more than that, and so the remarks on any lines of a source leave both passes as they were.
-/
namespace Asm65

namespace Line

/-! ## Scanning for quotes -/

/-- The quote that is open where the scan for a comment ends: at the comment or, if there is none,
at the end of the text. The scan begins with a quote open, or none. -/
def openQuote? : (quote : Option Char) → Text → Option Char
  | quote, [] => quote
  | none, c :: rest =>
    if c = ';' then none else openQuote? (if isQuote c then some c else none) rest
  | some q, c :: rest => openQuote? (if c = q then none else some q) rest

/-- What may be put behind a line: white space, and a comment after it if the line leaves no quote
open. -/
inductive IsRemark (line : Text) : Text → Prop
  | blanks (w : Blanks) : '\n' ∉ w.val → IsRemark line w.val
  | comment (w : Blanks) (c : Text) :
    '\n' ∉ w.val → '\n' ∉ c → openQuote? none line = none → IsRemark line (w.val ++ ';' :: c)

variable {line tail : Text}

theorem IsRemark.not_mem (h : IsRemark line tail) : '\n' ∉ tail := by
  cases h with
  | blanks w hw => exact hw
  | comment w c hw hc =>
    rw [List.mem_append, List.mem_cons, not_or, not_or]
    exact ⟨hw, by decide, hc⟩

/-- A comment at a place where no quote is open is cut off, and only white space is left of what was
put there. -/
theorem cutComment_append_comment (w : Blanks) (c : Text) {quote : Option Char} {t : Text}
    (h : openQuote? quote t = none) :
    ∃ more : Text, (∀ c ∈ more, isBlank c) ∧
      cutComment quote (t ++ (w.val ++ ';' :: c)) = cutComment quote t ++ more := by
  fun_induction cutComment quote t with
  | case1 quote =>
    obtain rfl : quote = none := h
    refine ⟨w.val, w.isBlank, ?_⟩
    rw [List.nil_append, (Closed.of_blanks w).cutComment_append, cutComment_cons, if_pos rfl,
      List.append_nil]
    rfl
  | case2 rest => exact ⟨[], List.forall_mem_nil _, rfl⟩
  | case3 c' rest hc ih =>
    rw [openQuote?, if_neg hc] at h
    obtain ⟨more, hmore, heq⟩ := ih h
    refine ⟨more, hmore, ?_⟩
    rw [List.cons_append, cutComment_cons, if_neg hc, heq]
    rfl
  | case4 q c' rest ih =>
    obtain ⟨more, hmore, heq⟩ := ih h
    refine ⟨more, hmore, ?_⟩
    rw [List.cons_append, cutComment_cons_quoted, heq]
    rfl

/-! ## Lines with remarks -/

/-- A line is read as before if the comment is cut off as before, and no `*` comes to its front. -/
theorem parse_append (hhead : tail.head? ≠ some '*')
    (hstrip : stripComment (line ++ tail) = stripComment line) :
    parse (line ++ tail) = parse line := by
  have hstar : (line ++ tail).head? = some '*' ↔ line.head? = some '*' := by
    cases line with
    | nil => simpa using hhead
    | cons c rest => rfl
  simp only [parse, hstar, hstrip]

theorem head?_blanks_append (w : Blanks) (more : Text) (h : more.head? ≠ some '*') :
    (w.val ++ more).head? ≠ some '*' := by
  have hblank := w.isBlank
  cases hw : w.val with
  | nil => exact h
  | cons c rest =>
    rw [hw] at hblank
    rintro ⟨⟩
    cases hblank '*' (List.mem_cons_self ..)

theorem parse_append_blanks (line : Text) (w : Blanks) : parse (line ++ w.val) = parse line := by
  have hhead := head?_blanks_append w [] nofun
  rw [List.append_nil] at hhead
  exact parse_append hhead (stripComment_append_blank line w.isBlank)

theorem IsRemark.parse_append (h : IsRemark line tail) : parse (line ++ tail) = parse line := by
  cases h with
  | blanks w hw => exact parse_append_blanks line w
  | comment w c hw hc hopen =>
    refine Line.parse_append (head?_blanks_append w _ (by simp)) ?_
    obtain ⟨more, hmore, heq⟩ := cutComment_append_comment w c hopen
    rw [stripComment, heq, Text.trimEnd_append_blank _ hmore, stripComment]

end Line

/-! ## Sources with remarks -/

namespace Text

/-- The lines of a source from index `i` on, as the pieces between line feeds, with a text put
behind each of them. A carriage return that belongs to the line end stays there. -/
def extendPieces (tails : Nat → Text) : (i : Nat) → Text → List Text → Text
  | i, last, [] => if last = [] then [] else last ++ tails i
  | i, line, next :: rest =>
    line.dropReturn ++ tails i ++ line.drop line.dropReturn.length ++
      '\n' :: extendPieces tails (i + 1) next rest

/-- Put a text behind every line, by its index; the line ends stay. -/
def extend (tails : Nat → Text) (t : Text) : Text :=
  extendPieces tails 0 (cut '\n' t).1 (cut '\n' t).2

/-- Before the line feed, a line end may have a carriage return. -/
theorem exists_return (t : Text) :
    ∃ w : Blanks, '\n' ∉ w.val ∧ t.drop t.dropReturn.length = w.val ∧ t = t.dropReturn ++ w.val := by
  unfold dropReturn
  split
  · next hlast =>
    obtain ⟨init, rfl⟩ := List.getLast?_eq_some_iff.mp hlast
    refine ⟨⟨['\r'], rfl⟩, by decide, ?_⟩
    simp
  · refine ⟨⟨[], rfl⟩, List.not_mem_nil, ?_⟩
    simp

theorem lines_last {last : Text} (h : '\n' ∉ last) (hne : last ≠ []) : last.lines = [last] := by
  have hnone : ∀ piece ∈ ([] : List Text), '\n' ∉ piece := List.forall_mem_nil _
  have hcut : cut '\n' last = (last, []) := cut_join h hnone
  rw [lines, hcut, linesOfPieces, if_neg hne]

theorem lines_line {line : Text} (h : '\n' ∉ line) (more : Text) :
    (line ++ '\n' :: more).lines = line.dropReturn :: more.lines := by
  rw [lines, cut_append h, cut_cons, if_pos rfl, List.append_nil]
  rfl

theorem parse_dropReturn (t : Text) : Line.parse t.dropReturn = Line.parse t := by
  obtain ⟨w, -, -, ht⟩ := t.exists_return
  conv_rhs => rw [ht]
  exact (Line.parse_append_blanks _ w).symm

/-- Remarks leave every line as it is read. -/
theorem parse_extendPieces {tails : Nat → Text} {first : Text} {rest : List Text} {i : Nat}
    (hfirst : '\n' ∉ first) (hrest : ∀ piece ∈ rest, '\n' ∉ piece)
    (remarks : ∀ k line, (linesOfPieces first rest)[k]? = some line →
      Line.IsRemark line (tails (i + k))) :
    (extendPieces tails i first rest).lines.map Line.parse =
      (linesOfPieces first rest).map Line.parse := by
  induction rest generalizing first i with
  | nil =>
    by_cases hnil : first = []
    · subst hnil
      rfl
    · have hlast : linesOfPieces first [] = [first] := if_neg hnil
      rw [hlast] at remarks ⊢
      have hremark : Line.IsRemark first (tails i) := remarks 0 first rfl
      have hfeed : '\n' ∉ first ++ tails i := by simp [hfirst, hremark.not_mem]
      have hne : first ++ tails i ≠ [] := by simp [hnil]
      rw [extendPieces, if_neg hnil, lines_last hfeed hne, List.map_singleton, List.map_singleton,
        hremark.parse_append]
  | cons next rest ih =>
    obtain ⟨hnext, hothers⟩ := List.forall_mem_cons.mp hrest
    obtain ⟨w, hw, hreturn, hline⟩ := first.exists_return
    have hremark : Line.IsRemark first.dropReturn (tails i) := remarks 0 _ rfl
    have hfeed : '\n' ∉ first.dropReturn ++ tails i ++ w.val := by
      rw [hline, List.mem_append, not_or] at hfirst
      simp [hfirst.1, hremark.not_mem, hw]
    have hmore := ih hnext hothers (i := i + 1) fun k line hk => by
      have hthis := remarks (k + 1) line hk
      rwa [Nat.add_right_comm]
    rw [extendPieces, hreturn, lines_line hfeed, linesOfPieces, List.map_cons, List.map_cons,
      hmore, parse_dropReturn, Line.parse_append_blanks, hremark.parse_append]

theorem parse_extend {tails : Nat → Text} {t : Text}
    (remarks : ∀ i line, t.lines[i]? = some line → Line.IsRemark line (tails i)) :
    (t.extend tails).lines.map Line.parse = t.lines.map Line.parse := by
  obtain ⟨hfirst, hrest⟩ := not_mem_cut '\n' t
  refine parse_extendPieces hfirst hrest fun i line hline => ?_
  rw [Nat.zero_add]
  exact remarks i line hline

/-- Nothing but the tails is put into the source. -/
theorem extend_nil (t : Text) : t.extend (fun _ => []) = t := by
  have hpieces (i : Nat) (first : Text) (rest : List Text) :
      extendPieces (fun _ => []) i first rest = join '\n' first rest := by
    induction rest generalizing i first with
    | nil =>
      rw [extendPieces, List.append_nil, join]
      split
      · next hnil => exact hnil.symm
      · rfl
    | cons next rest ih =>
      obtain ⟨w, -, hreturn, hline⟩ := first.exists_return
      rw [extendPieces, List.append_nil, hreturn, ← hline, ih, join]
  rw [extend, hpieces, join_cut]

end Text

/-! ## Runs over lines that read alike -/

namespace State

variable {lines others : List Text}

/-- Lines are assembled as they are read. -/
theorem run_of_parse (h : others.map Line.parse = lines.map Line.parse) (s : State) (pass : Pass)
    (n : Nat) :
    (s.run pass n others).final = (s.run pass n lines).final ∧
      (s.run pass n others).bytes = (s.run pass n lines).bytes ∧
      (s.run pass n others).events = (s.run pass n lines).events := by
  induction lines generalizing others s n with
  | nil =>
    obtain rfl := List.map_eq_nil_iff.mp h
    exact ⟨rfl, rfl, rfl⟩
  | cons source rest ih =>
    obtain ⟨other, others, rfl, hline, hrest⟩ := List.map_eq_cons_iff.mp h
    have hstep : s.step ⟨pass, n⟩ other = s.step ⟨pass, n⟩ source :=
      congrArg (s.assemble ⟨pass, n⟩) hline
    obtain ⟨hfinal, hbytes, hevents⟩ := ih hrest (s.step ⟨pass, n⟩ source).state (n + 1)
    refine ⟨?_, ?_, ?_⟩
    · rw [final_cons, final_cons, hstep, hfinal]
    · rw [bytes_cons, bytes_cons, hstep, hbytes]
    · rw [events_cons, events_cons, hstep, hevents]

end State

namespace Assembly

/-- Remarks behind any lines of a source, whatever the lines hold, change neither the load address
nor the image, the symbols or the diagnostics. -/
theorem unchanged_of_remarks (start : Address) (source : Text) (tails : Nat → Text)
    (remarks : ∀ i line, source.lines[i]? = some line → Line.IsRemark line (tails i)) :
    let remarked := ofText start (source.extend tails)
    remarked.origin = (ofText start source).origin ∧
      remarked.binary = (ofText start source).binary ∧
      remarked.symbols = (ofText start source).symbols ∧
      remarked.diagnostics = (ofText start source).diagnostics := by
  have hlines := Text.parse_extend remarks
  have hfirst : (ofText start (source.extend tails)).first.final =
      (ofText start source).first.final :=
    (State.run_of_parse hlines ((State.initial start).beginPass start) .first 1).1
  have hsecond : (ofText start (source.extend tails)).second =
      ((ofText start source).first.final.beginPass start).run .second 1
        (source.extend tails).lines :=
    congrArg (fun s => State.runPass s .second start (source.extend tails).lines) hfirst
  obtain ⟨hfinal, hbytes, hevents⟩ :=
    State.run_of_parse hlines ((ofText start source).first.final.beginPass start) .second 1
  dsimp only [origin, binary, symbols, diagnostics, final]
  rw [hsecond]
  exact ⟨congrArg State.origin hfinal, hbytes, congrArg State.symbols hfinal,
    congrArg Event.diagnostics hevents⟩

/-- Remarks behind a comment with a quote in it, a line that is a comment, a literal with `;` in it,
a quote that is left open, a blank line, and the end of the source. -/
theorem quoted_unchanged_of_remarks :
    let source : Text := "L LDA #1;'x\r\n* x\n ASC 'A;\"'\n ASC \"B\n\n BNE L".toList
    let tails (i : Nat) : Text :=
      ([" ; \"", "; ;", "\t; 'C'\r", " \r", ";", "\u3000;\""].map String.toList)[i]?.getD []
    let remarked := ofText defaultOrigin (source.extend tails)
    source.extend tails = ("L LDA #1;'x ; \"\r\n* x; ;\n ASC 'A;\"'\t; 'C'\r\n" ++
        " ASC \"B \r\n;\n BNE L\u3000;\"").toList ∧
      (∀ i line, source.lines[i]? = some line → Line.IsRemark line (tails i)) ∧
      remarked.origin = (ofText defaultOrigin source).origin ∧
      remarked.binary = (ofText defaultOrigin source).binary ∧
      remarked.symbols = (ofText defaultOrigin source).symbols ∧
      remarked.diagnostics = (ofText defaultOrigin source).diagnostics := by
  intro source tails remarked
  have remarks : ∀ i line, source.lines[i]? = some line → Line.IsRemark line (tails i) := by
    have hlines : source.lines = ["L LDA #1;'x", "* x", " ASC 'A;\"'", " ASC \"B", "", " BNE L"].map
        String.toList := by decide +kernel
    intro i line h
    rw [hlines] at h
    rcases i with _ | _ | _ | _ | _ | _ | i
    · obtain rfl := Option.some.inj h
      exact .comment ⟨" ".toList, rfl⟩ " \"".toList (by decide) (by decide) (by decide)
    · obtain rfl := Option.some.inj h
      exact .comment ⟨[], rfl⟩ " ;".toList (by decide) (by decide) (by decide)
    · obtain rfl := Option.some.inj h
      exact .comment ⟨"\t".toList, rfl⟩ " 'C'\r".toList (by decide) (by decide) (by decide)
    · exact .blanks ⟨" \r".toList, rfl⟩ (by decide)
    · obtain rfl := Option.some.inj h
      exact .comment ⟨[], rfl⟩ [] (by decide) (by decide) (by decide)
    · obtain rfl := Option.some.inj h
      exact .comment ⟨"\u3000".toList, rfl⟩ "\"".toList (by decide) (by decide) (by decide)
    · cases h
  exact ⟨by decide +kernel, remarks, unchanged_of_remarks defaultOrigin source tails remarks⟩

end Assembly

end Asm65
