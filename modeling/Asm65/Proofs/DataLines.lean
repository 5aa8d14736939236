-- SUMMARY: Lines of data: what stands between quotes or in hexadecimal digits is emitted, byte for byte.
import Asm65.Proofs.Fault
import Asm65.Proofs.Placement
import Asm65.Proofs.WrittenLine
import Mathlib.Data.List.ModifyLast

/-!
# Lines of data

The payload of a data directive passes through every layer of the reader before it is taken for a
literal, and between quotes it may hold what these layers look for: white space, `;` and quotes of
the other kind. Its quotes are closed, and so it comes out as it was written. Then a payload
between quotes has a byte for each character, a bare one has them where it is pairs of digits, and
the line emits these bytes in the order of its directive, or nothing at all.
-/
namespace Asm65

/-! ## Payloads -/

namespace Literal

/-- The quotes that text stands between. -/
inductive Quote where
  | double
  | single
  deriving DecidableEq

namespace Quote

def char : Quote → Char
  | double => '"'
  | single => '\''

/-- The low seven bits of a character, with the top bit set between double quotes only. -/
def byte (c : Char) : Quote → UInt8
  | double => UInt8.ofNat (c.toNat % 128 + 128)
  | single => UInt8.ofNat (c.toNat % 128)

theorem isQuote_char (q : Quote) : Line.isQuote q.char := by
  cases q <;> rfl

end Quote

/-- A payload without quotes. White space may stand in it, but not at its ends. -/
structure IsBare (t : Text) : Prop where
  ne_nil : t ≠ []
  trimmed : t.trim = t
  not_quote : ∀ c ∈ t, Line.isQuote c = false
  no_comment : ';' ∉ t

/-- What is left without the commas. -/
def digits (t : Text) : Text := t.filter (· ≠ ',')

/-- Every character is a digit of either case. -/
def allDigits (t : Text) : Bool := t.all fun c => (Numeral.hexDigit? c).isSome

/-- Digits and commas, and a positive even number of digits. -/
structure IsHex (t : Text) : Prop where
  only_digits : allDigits (digits t)
  even : 2 ∣ (digits t).length
  ne_nil : digits t ≠ []

instance (t : Text) : Decidable (IsHex t) :=
  decidable_of_iff
    (allDigits (digits t) ∧ 2 ∣ (digits t).length ∧ digits t ≠ [])
    ⟨fun ⟨only_digits, even, ne_nil⟩ => ⟨only_digits, even, ne_nil⟩,
      fun h => ⟨h.only_digits, h.even, h.ne_nil⟩⟩

def digitValue (c : Char) : Nat := (Numeral.hexDigit? c).getD 0

/-- The bytes that pairs of digits spell. -/
def spelled : Text → List UInt8
  | [] => []
  | [_] => []
  | high :: low :: rest => UInt8.ofNat (digitValue high * 16 + digitValue low) :: spelled rest

/-- What is written behind a data directive: text between quotes that does not hold that quote,
or something without quotes. -/
inductive Payload where
  | quoted (quote : Quote) (text : Text) (ne_nil : text ≠ []) (closed : quote.char ∉ text)
  | bare (text : Text) (isBare : IsBare text)

namespace Payload

def text : Payload → Text
  | quoted quote text _ _ => quote.char :: (text ++ [quote.char])
  | bare text _ => text

/-- The bytes that a payload spells, if it spells any. -/
def bytes? : Payload → Option (List UInt8)
  | quoted quote text _ _ => some (text.map quote.byte)
  | bare text _ => if IsHex text then some (spelled (digits text)) else none

/-! ## Payloads are operands -/

/-- A payload comes through the layers of a line. -/
theorem isOperandText (p : Payload) : Line.IsOperandText p.text := by
  cases p with
  | quoted quote text _ hclosed =>
    have hblank : Asm65.isBlank quote.char = false := by cases quote <;> rfl
    have hhead : (quote.char :: (text ++ [quote.char])).head?.map Asm65.isBlank ≠ some true :=
      Text.head?_cons_ne hblank _
    have hlast :
        ((quote.char :: text) ++ [quote.char]).getLast?.map Asm65.isBlank ≠ some true := by
      rw [List.getLast?_concat, Option.map_some, hblank]
      exact nofun
    exact ⟨List.cons_ne_nil quote.char _, Text.trim_of_ends hhead hlast,
      .quoted quote.isQuote_char hclosed .nil⟩
  | bare text h =>
    have hclosed : Line.Closed text :=
      .of_plain fun c hc => ⟨h.not_quote c hc, ne_of_mem_of_not_mem hc h.no_comment⟩
    exact ⟨h.ne_nil, h.trimmed, hclosed⟩

end Payload

/-! ## Payloads are literals -/

theorem quoted?_quoted {q : Char} {text : Text} (hne : text ≠ []) (hclosed : q ∉ text) :
    quoted? q (q :: (text ++ [q])) = some text := by
  simp [quoted?, hne, hclosed]

theorem quoted?_eq_none {q : Char} {t : Text} (h : t.head? ≠ some q) : quoted? q t = none := by
  cases t with
  | nil => rfl
  | cons c rest =>
    have hc : c ≠ q := fun heq => h (congrArg some heq)
    simp only [quoted?, hc, false_and, if_false]

theorem lowBits_or (c : Char) : lowBits c ||| 0x80 = UInt8.ofNat (c.toNat % 128 + 128) := by
  have hlt : c.toNat % 128 < 2 ^ 7 := Nat.mod_lt _ (by decide)
  have hsum : 128 + c.toNat % 128 = 128 ||| c.toNat % 128 := Nat.two_pow_add_eq_or_of_lt hlt 1
  rw [Nat.add_comm, hsum, UInt8.ofNat_or, UInt8.or_comm]
  rfl

theorem mapM_hexDigit? (t : Text) :
    t.mapM Numeral.hexDigit? =
      if allDigits t then some (t.map digitValue) else none := by
  induction t with
  | nil => rfl
  | cons c t ih =>
    have hall : allDigits (c :: t) = ((Numeral.hexDigit? c).isSome && allDigits t) := rfl
    simp only [List.mapM_cons, ih, hall, List.map_cons, digitValue]
    cases Numeral.hexDigit? c with
    | none => rfl
    | some d => cases allDigits t <;> rfl

theorem pairs?_map (t : Text) :
    pairs? (t.map digitValue) = if 2 ∣ t.length then some (spelled t) else none := by
  fun_induction spelled t with
  | case1 => rfl
  | case2 c => rfl
  | case3 high low rest ih =>
    have heven : 2 ∣ (high :: low :: rest).length ↔ 2 ∣ rest.length :=
      Nat.dvd_add_left (Nat.dvd_refl 2)
    simp only [List.map_cons, pairs?, ih, heven]
    split <;> rfl

theorem hexBytes?_eq (t : Text) :
    hexBytes? t = if IsHex t then some (spelled (digits t)) else none := by
  have hread : hexBytes? t = ((digits t).mapM Numeral.hexDigit?).bind fun values =>
      if values = [] then none else pairs? values := rfl
  rw [hread, mapM_hexDigit?]
  by_cases hdigits : allDigits (digits t)
  · by_cases hnil : digits t = []
    · have hhex : ¬ IsHex t := fun h => h.ne_nil hnil
      simp [hnil, hhex]
    · have hhex : IsHex t ↔ 2 ∣ (digits t).length :=
        ⟨IsHex.even, fun heven => ⟨hdigits, heven, hnil⟩⟩
      simp only [if_pos hdigits, Option.bind_some, List.map_eq_nil_iff, if_neg hnil, pairs?_map,
        hhex]
  · have hhex : ¬ IsHex t := fun h => hdigits h.only_digits
    rw [if_neg hdigits, if_neg hhex]
    rfl

example : hexBytes? "0a,,fF,".toList = some [0x0A, 0xFF] := by decide

namespace Payload

theorem bytes?_text (p : Payload) : Literal.bytes? p.text = p.bytes? := by
  unfold Literal.bytes?
  rw [p.isOperandText.trimmed]
  cases p with
  | quoted quote text hne hclosed =>
    cases quote with
    | double =>
      have hdouble : quoted? '"' ('"' :: (text ++ ['"'])) = some text := quoted?_quoted hne hclosed
      simp only [Payload.text, Quote.char, hdouble, lowBits_or]
      rfl
    | single =>
      have hdouble : quoted? '"' ('\'' :: (text ++ ['\''])) = none := quoted?_eq_none (by simp)
      have hsingle : quoted? '\'' ('\'' :: (text ++ ['\''])) = some text :=
        quoted?_quoted hne hclosed
      simp only [Payload.text, Quote.char, hdouble, hsingle]
      rfl
  | bare text h =>
    have hhead (q : Char) (hq : Line.isQuote q) : text.head? ≠ some q := by
      intro heq
      have hquote := h.not_quote q (List.mem_of_head? heq)
      rw [hq] at hquote
      cases hquote
    have hdouble : quoted? '"' text = none := quoted?_eq_none (hhead '"' rfl)
    have hsingle : quoted? '\'' text = none := quoted?_eq_none (hhead '\'' rfl)
    simp only [Payload.text, hdouble, hsingle]
    exact hexBytes?_eq text

end Payload

end Literal

/-! ## The order of the bytes -/

namespace DataKind

/-- The bytes that a directive emits for those of its payload. -/
def emitted (bytes : List UInt8) : DataKind → List UInt8
  | asc | hex => bytes
  | rev => bytes.reverse
  | dci | fls | inv => bytes.modifyLast (· ^^^ 0x80)

theorem flipLast_eq (bytes : List UInt8) : flipLast bytes = bytes.modifyLast (· ^^^ 0x80) := by
  fun_induction flipLast bytes with
  | case1 => rfl
  | case2 b => rfl
  | case3 b next rest ih =>
    have htail := List.modifyLast_append_of_right_ne_nil (· ^^^ (0x80 : UInt8)) [b] (next :: rest)
      (List.cons_ne_nil next rest)
    rw [ih]
    exact htail.symm

theorem arrange_eq (kind : DataKind) (bytes : List UInt8) :
    kind.arrange bytes = kind.emitted bytes := by
  cases kind <;> simp [arrange, flipsLast, emitted, flipLast_eq]

@[simp] theorem length_emitted (kind : DataKind) (bytes : List UInt8) :
    (kind.emitted bytes).length = bytes.length := by
  rw [← arrange_eq, length_arrange]

end DataKind

/-! ## Lines of data -/

/-- A line of data as it is written. -/
structure DataLine where
  kind : DataKind
  label : Option Text
  mnemonic : Text
  payload : Option Literal.Payload
  layout : Line.Layout
  label_isToken : ∀ name ∈ label, Line.IsToken name
  /-- A line that begins with `*` is a comment. -/
  label_head : ∀ name ∈ label, name.head? ≠ some '*'
  /-- The directive may be written in letters of either case. -/
  upper_mnemonic : mnemonic.upper = (Directive.data kind).name.toList

namespace DataLine

variable (d : DataLine)

/-- The bytes of the payload, if there is one that spells any. -/
def bytes? : Option (List UInt8) := d.payload.bind Literal.Payload.bytes?

theorem isToken_mnemonic : Line.IsToken d.mnemonic := by
  have hletters : (Directive.data d.kind).name.toList.all
      (fun c => OperandParts.isCore c && OperandParts.isCore c.toLower) := by
    cases d.kind <;> rfl
  refine .of_core ?_ fun c hc => ?_
  · intro hnil
    have hname := d.upper_mnemonic
    rw [hnil] at hname
    revert hname
    cases d.kind <;> decide
  · have hmem : c.toUpper ∈ (Directive.data d.kind).name.toList := by
      rw [← d.upper_mnemonic]
      exact List.mem_map_of_mem hc
    obtain ⟨hupper, hlower⟩ := Bool.and_eq_true_iff.mp (List.all_eq_true.mp hletters _ hmem)
    rcases OperandParts.eq_of_toUpper c with heq | heq
    · rwa [heq]
    · rwa [heq]

def fields : Line.Fields where
  label := d.label
  mnemonic := d.mnemonic
  operand := d.payload.map Literal.Payload.text
  label_isToken := d.label_isToken
  label_head := d.label_head
  mnemonic_isToken := d.isToken_mnemonic
  operand_isText := by
    intro text htext
    obtain ⟨p, -, rfl⟩ := Option.mem_map.mp htext
    exact p.isOperandText

/-- The source of the line. -/
def source : Text := d.layout.text d.fields

theorem parse_source :
    Line.parse d.source =
      ⟨d.label, .ok (.directive (.data d.kind) (d.payload.map Literal.Payload.text))⟩ := by
  have hparse : Line.parse d.source = ⟨d.label, Line.parseStatement d.mnemonic.upper
      (d.payload.map Literal.Payload.text)⟩ := d.layout.parse_text d.fields
  rw [hparse, d.upper_mnemonic]
  simp only [Line.parseStatement, Directive.ofText?_name]

/-- The payload is taken for what it spells. -/
theorem reading_source :
    (Line.parse d.source).reading =
      match d.bytes? with
      | some bytes => .ok (.data (d.kind.emitted bytes))
      | none => .error (.missingString (Directive.data d.kind).name) := by
  have hbytes : (d.payload.map Literal.Payload.text).bind Literal.bytes? = d.bytes? := by
    unfold bytes?
    cases d.payload with
    | none => rfl
    | some p => exact p.bytes?_text
  have hread : (Line.parse d.source).reading = Reading.ofDirective d.label (.data d.kind)
      (d.payload.map Literal.Payload.text) := by
    rw [d.parse_source]
    rfl
  rw [hread]
  unfold Reading.ofDirective
  simp only [hbytes]
  cases d.bytes? with
  | some bytes =>
    change Except.ok (Reading.data (d.kind.arrange bytes)) = _
    rw [DataKind.arrange_eq]
  | none => rfl

theorem arguments_source : (Line.parse d.source).arguments = [] := by
  have hread := d.reading_source
  cases hbytes : d.bytes? with
  | some bytes =>
    simp only [hbytes] at hread
    exact Line.arguments_of_reading hread
  | none =>
    simp only [hbytes] at hread
    have hbody := congrArg Line.body d.parse_source
    simp only [Line.arguments, hread, hbody]

end DataLine

/-! ## What the line does -/

/-- What a line has to report, apart from a label that moved. -/
def Outcome.faults (o : Outcome) : List Diagnostic :=
  (Event.diagnostics o.events).filter fun d => d.fault.kind ≠ .labelMoved

namespace State

variable (s : State) (site : Site)

/-- A line without arguments has to report what makes it fail. -/
theorem faults_step {source : Text} (h : (Line.parse source).arguments = []) :
    (s.step site source).faults =
      match s.attempt site (Line.parse source) with
      | .ok _ => []
      | .error e => if site.pass.reports then [⟨site.line, e⟩] else [] := by
  have hlabel : ∀ d ∈ Event.diagnostics (s.lineLabelEvents site (Line.parse source)),
      d.fault.kind = .labelMoved := fun d => kind_of_labelDiagnostic
  have hnone : (Event.diagnostics (s.lineLabelEvents site (Line.parse source))).filter
      (fun d => d.fault.kind ≠ .labelMoved) = [] :=
    List.filter_eq_nil_iff.mpr (by simpa using hlabel)
  unfold Outcome.faults step
  rw [diagnostics_assemble, h, List.filter_append, List.filter_append, hnone]
  cases hattempt : s.attempt site (Line.parse source) with
  | ok effect => rfl
  | error e =>
    have hkind : e.kind ≠ .labelMoved :=
      kind_ne_of_attempt_error (by decide) (by decide) hattempt
    simp only [diagnostics_report_eq]
    split
    · simp [argumentDiagnostics, hkind]
    · rfl

/-- A line of data in any state and either pass. A payload that spells bytes is emitted, the address
moves on by their number, and there is nothing to report but the label; any other, or none, is
reported in the second pass and moves nothing. -/
theorem data_exact (d : DataLine) :
    let outcome := s.step site d.source
    match d.bytes? with
    | some bytes =>
      outcome.bytes = d.kind.emitted bytes ∧
        outcome.state.pc.toNat = (s.pc.toNat + bytes.length) % 65536 ∧ outcome.faults = []
    | none =>
      outcome.bytes = [] ∧ outcome.state.pc = s.pc ∧
        outcome.faults = if site.pass.reports then
          [⟨site.line, .missingString (Directive.data d.kind).name⟩] else [] := by
  intro outcome
  have hread := d.reading_source
  have hfaults := s.faults_step site d.arguments_source
  have hbytes : outcome.bytes = (s.action site (Line.parse d.source)).bytes := s.bytes_step site _
  have hpc : outcome.state.pc = (s.action site (Line.parse d.source)).move s.pc := s.pc_step site _
  cases hspelled : d.bytes? with
  | some bytes =>
    simp only [hspelled] at hread
    have hattempt : s.attempt site (Line.parse d.source) =
        .ok (.emit (d.kind.emitted bytes) false) := attempt_of_reading hread
    rw [action_of_attempt_ok hattempt] at hbytes hpc
    rw [hattempt] at hfaults
    refine ⟨hbytes, ?_, hfaults⟩
    rw [hpc, Effect.move, Address.toNat_advance, DataKind.length_emitted]
  | none =>
    simp only [hspelled] at hread
    rw [action_of_error hread] at hbytes hpc
    rw [attempt_of_error hread] at hfaults
    exact ⟨hbytes, hpc, hfaults⟩

/-- A payload of everything that ends a field or begins a comment elsewhere, across the end of the
address space. -/
theorem quoted_data_exact :
    let d : DataLine := {
      kind := .dci
      label := some "MSG".toList
      mnemonic := "Dci".toList
      payload := some (.quoted .double "Say 'HI'; \u00e9".toList (by decide) (by decide))
      layout := ⟨⟨['\t'], rfl⟩, ⟨[' ', ' '], rfl⟩, ⟨[' '], rfl⟩, some " don't".toList, by decide,
        by decide⟩
      label_isToken := by
        rintro _ ⟨⟩
        exact .of_symbol (by decide)
      label_head := by
        rintro _ ⟨⟩
        decide
      upper_mnemonic := by decide }
    let outcome := (State.initial 0xFFFE).step ⟨.second, 1⟩ d.source
    d.source = "MSG\tDci  \"Say 'HI'; \u00e9\" ; don't".toList ∧
      outcome.bytes = [0xD3, 0xE1, 0xF9, 0xA0, 0xA7, 0xC8, 0xC9, 0xA7, 0xBB, 0xA0, 0x69] ∧
      outcome.state.pc.toNat = 9 ∧ outcome.faults = [] := by
  intro d
  have hspelled : d.bytes? =
      some [0xD3, 0xE1, 0xF9, 0xA0, 0xA7, 0xC8, 0xC9, 0xA7, 0xBB, 0xA0, 0xE9] := by decide
  have hline := (State.initial 0xFFFE).data_exact ⟨.second, 1⟩ d
  rw [hspelled] at hline
  obtain ⟨hbytes, hpc, hfaults⟩ := hline
  exact ⟨by decide, hbytes.trans (by decide), hpc.trans (by decide), hfaults⟩

end State

end Asm65
