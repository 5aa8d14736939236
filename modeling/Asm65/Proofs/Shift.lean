-- SUMMARY: One line in two states that differ by a shift of the program counter and of the labels.
import Asm65.Proofs.Placement
import Asm65.Proofs.Resolution
import Asm65.Proofs.Selection

/-!
# Shifted states

Assembled from another origin, a source meets states in which the program counter and all labels
are shifted by the same distance, while everything else is as before. A line does the same in
both states if it reads labels for branches only, and a branch nothing else: the distance of a
branch is a difference of two addresses that are shifted alike.
-/
namespace Asm65

/-! ## Lines that float -/

namespace Expr

/-- A name and nothing else. -/
def isSingle : Expr → Bool
  | symbol _ => true
  | _ => false

end Expr

/-- The operand is a single name, and none of these constants. -/
def Argument.IsTarget (constants : List Text) (a : Argument) : Prop :=
  a.expr.isSingle ∧ ∀ name ∈ a.expr.names, name ∉ constants

instance (constants : List Text) (a : Argument) : Decidable (a.IsTarget constants) :=
  inferInstanceAs (Decidable (_ ∧ _))

namespace Line

/-- The line holds an `ORG`. -/
def isOrigin (line : Line) : Bool :=
  match line.body with
  | .ok (.directive .org _) => true
  | _ => false

/-- The name that the line binds by `EQU`. -/
def constant? (line : Line) : Option Text :=
  match line.reading with
  | .ok (.equate name _) => some name
  | _ => none

/-- Among these labels and constants, the line does the same wherever it stands. -/
structure Floats (labels constants : List Text) (line : Line) : Prop where
  noOrigin : line.isOrigin = false
  label : ∀ name, line.addressLabel? = some name → name ∈ labels
  constant : ∀ name, line.constant? = some name → name ∉ labels ∧ name ∈ constants
  branch : line.isBranch → ∀ a ∈ line.arguments, a.IsTarget constants
  other : line.isBranch = false → ∀ name ∈ line.mentions, name ∉ labels

end Line

/-! ## Shifted tables -/

/-- Tables with the same names, in which the labels differ by a shift and other names do not. -/
structure SymbolTable.Shifted (labels : List Text) (shift : Int) (t u : SymbolTable) : Prop where
  names : u.names = t.names
  label : ∀ name ∈ labels, ∀ v w, t.get? name = some v → u.get? name = some w →
    w.toInt = v.toInt + shift
  other : ∀ name, name ∉ labels → u.get? name = t.get? name

section

variable {labels constants : List Text} {shift : Int}

namespace SymbolTable.Shifted

variable {t u : SymbolTable} {name : Text} {v w : Value}

theorem empty : SymbolTable.empty.Shifted labels shift SymbolTable.empty where
  names := rfl
  label _ _ _ _ h := nomatch h
  other _ _ := rfl

theorem isSome_get? (h : t.Shifted labels shift u) (name : Text) :
    (u.get? name).isSome = (t.get? name).isSome := by
  rw [Bool.eq_iff_iff, isSome_get?_iff, isSome_get?_iff, h.names]

theorem insert (h : t.Shifted labels shift u)
    (label : name ∈ labels → w.toInt = v.toInt + shift) (other : name ∉ labels → w = v) :
    (t.insert name v).Shifted labels shift (u.insert name w) where
  names := by rw [names_insert, names_insert, h.names]
  label key hkey x y hx hy := by
    rw [get?_insert] at hx hy
    by_cases same : key = name
    · rw [if_pos same] at hx hy
      cases hx
      cases hy
      exact label (same ▸ hkey)
    · rw [if_neg same] at hx hy
      exact h.label key hkey x y hx hy
  other key hkey := by
    rw [get?_insert, get?_insert]
    by_cases same : key = name
    · rw [if_pos same, if_pos same, other (same ▸ hkey)]
    · rw [if_neg same, if_neg same, h.other key hkey]

theorem erase (h : t.Shifted labels shift u) (name : Text) :
    (t.erase name).Shifted labels shift (u.erase name) where
  names := by rw [names_erase, names_erase, h.names]
  label key hkey x y hx hy := by
    rw [get?_erase] at hx hy
    by_cases same : key = name
    · rw [if_pos same] at hx
      cases hx
    · rw [if_neg same] at hx hy
      exact h.label key hkey x y hx hy
  other key hkey := by
    rw [get?_erase, get?_erase, h.other key hkey]

/-- Expressions without labels keep their value. -/
theorem value?_eq (h : t.Shifted labels shift u) {a : Argument}
    (free : ∀ name ∈ a.expr.names, name ∉ labels) : a.value? u = a.value? t :=
  Argument.value?_congr fun name hname => h.other name (free name hname)

theorem isSome_value? (h : t.Shifted labels shift u) {a : Argument}
    (single : a.expr.isSingle ∨ ∀ name ∈ a.expr.names, name ∉ labels) :
    (a.value? u).isSome = (a.value? t).isSome := by
  rcases single with single | free
  · obtain ⟨core, expr⟩ := a
    cases expr with
    | symbol name => exact h.isSome_get? name
    | number value | accumulator | binary op left right => cases single
  · rw [h.value?_eq free]

theorem undefined_eq (h : t.Shifted labels shift u) (e : Expr) :
    e.undefined u = e.undefined t := by
  simp only [Expr.undefined, contains, h.isSome_get?]

end SymbolTable.Shifted

/-! ## Shifted states -/

/-- States that differ by a shift of the program counter and of the labels. -/
structure State.Shifted (labels constants : List Text) (shift : Int) (s t : State) : Prop where
  pc : (t.pc.toNat : Int) = s.pc.toNat + shift
  symbols : s.symbols.Shifted labels shift t.symbols
  /-- No other name is bound, so that a branch to it has no target. -/
  known : ∀ name ∈ s.symbols.names, name ∈ labels ∨ name ∈ constants
  wideLines : t.wideLines = s.wideLines
  labelAddresses : List.Forall₂
    (fun a b : Nat × Address => b.1 = a.1 ∧ (b.2.toNat : Int) = a.2.toNat + shift)
    s.labelAddresses t.labelAddresses

/-- The distance of a branch does not change when both ends are shifted. -/
theorem branchDistance_shift {pc pc' : Address} {target target' : Value}
    (hpc : (pc'.toNat : Int) = pc.toNat + shift)
    (htarget : target'.toInt = target.toInt + shift) :
    branchDistance pc' target' = branchDistance pc target := by
  apply Int32.toInt_inj.mp
  rw [toInt_branchDistance_eq_bmod, toInt_branchDistance_eq_bmod, hpc, htarget]
  congr 1
  omega

/-- Branches apart, the effect of a line does not hang on its address. -/
theorem Reading.effect_congr_of_not_branch {s t : State} {site : Site} {r : Reading}
    (still : ∀ m wide a, r = .instruction m wide a → m.isBranch = false ∧ wide ∈ m.encodings)
    (hwide : s.isWide site.line = t.isWide site.line)
    (hvalue : ∀ a ∈ r.arguments, a.value? s.symbols = a.value? t.symbols) :
    r.effect s site = r.effect t site := by
  -- The address moves first, which only a branch would notice, and then the values.
  have hmoved : r.effect s site = r.effect { s with pc := t.pc } site := by
    cases r with
    | instruction m wide argument =>
      obtain ⟨hm, hmem⟩ := still m wide argument rfl
      have hmode := Mnemonic.mode_ne_relative hm (m.narrow_mem_encodings hmem
        (argument.bind (Argument.value? · s.symbols)) (s.isWide site.line))
      obtain ⟨bytes, hbytes⟩ := Mode.exists_operandBytes hmode
        (argument.bind (Argument.value? · s.symbols))
      exact congrArg (_ <$> ·) ((hbytes s.pc).trans (hbytes t.pc).symm)
    | _ => rfl
  exact hmoved.trans (effect_congr rfl hwide hvalue)

/-- A branch that can be read has its one mode. -/
theorem Line.reading_of_isBranch {line : Line} {r : Reading} (branch : line.isBranch)
    (h : line.reading = .ok r) :
    ∃ m opcode argument, r = .instruction m ⟨.relative, opcode⟩ argument := by
  obtain ⟨m, wide, argument, rfl⟩ : ∃ m wide argument, r = .instruction m wide argument := by
    unfold isBranch at branch
    unfold reading at h
    split at branch
    · next hbody =>
      rw [hbody] at h
      obtain ⟨m, wide, argument, heq, -, -⟩ := Reading.ofInstruction_ok h
      exact ⟨m, wide, argument, heq⟩
    · cases branch
  rw [isBranch_of_reading h] at branch
  obtain ⟨opcode, hencodings⟩ := Mnemonic.exists_encodings_of_isBranch branch
  have hmem := mem_encodings_of_reading h
  rw [hencodings, List.mem_singleton] at hmem
  exact ⟨m, opcode, argument, by rw [hmem]⟩

theorem Line.Floats.action_ne_relocate {line : Line} (floats : line.Floats labels constants)
    (s : State) (site : Site) (address : Address) : s.action site line ≠ .relocate address := by
  intro haction
  obtain ⟨a, -, hread, -⟩ := State.origin_of_action haction
  obtain ⟨operand, hbody⟩ := body_of_origin hread
  have horigin := floats.noOrigin
  rw [isOrigin, hbody] at horigin
  cases horigin

namespace State.Shifted

variable {s t : State} {line : Line}

theorem isWide (h : s.Shifted labels constants shift t) (n : Nat) : t.isWide n = s.isWide n := by
  rw [State.isWide, State.isWide, h.wideLines]

/-- The label of a line is bound to shifted addresses. -/
theorem marked (h : s.Shifted labels constants shift t) (floats : line.Floats labels constants) :
    (line.mark s.pc s.symbols).Shifted labels shift (line.mark t.pc t.symbols) := by
  unfold Line.mark
  split
  · next name hlabel =>
    refine h.symbols.insert (fun _ => ?_) fun hother => ?_
    · rw [s.pc.toInt_toValue, t.pc.toInt_toValue]
      exact h.pc
    · exact absurd (floats.label name hlabel) hother
  · exact h.symbols

/-- Operands of other lines than branches keep their values. -/
theorem value?_eq (h : s.Shifted labels constants shift t) (floats : line.Floats labels constants)
    (hbranch : line.isBranch = false) {a : Argument} (ha : a ∈ line.arguments) :
    a.value? (line.mark t.pc t.symbols) = a.value? (line.mark s.pc s.symbols) :=
  (h.marked floats).value?_eq fun name hname =>
    floats.other hbranch name (Line.mem_mentions ha hname)

/-- With the label of a line bound as well, a name that is no constant is a label. -/
theorem mem_labels_of_marked (h : s.Shifted labels constants shift t)
    (floats : line.Floats labels constants) {name : Text} {v : Value}
    (hv : (line.mark s.pc s.symbols).get? name = some v) (hname : name ∉ constants) :
    name ∈ labels := by
  by_cases hlabel : line.addressLabel? = some name
  · exact floats.label name hlabel
  · rw [Line.get?_mark_of_ne hlabel] at hv
    have hbound := SymbolTable.isSome_get?_iff.mp (Option.isSome_of_eq_some hv)
    exact (h.known name hbound).resolve_right hname

/-- The target of a branch is a label, and so it is shifted, or it has no value. -/
theorem operandBytes_relative (h : s.Shifted labels constants shift t)
    (floats : line.Floats labels constants) (hbranch : line.isBranch) {a : Argument}
    (ha : a ∈ line.arguments) :
    Mode.relative.operandBytes t.pc (a.value? (line.mark t.pc t.symbols)) =
      Mode.relative.operandBytes s.pc (a.value? (line.mark s.pc s.symbols)) := by
  obtain ⟨hsingle, hfree⟩ := floats.branch hbranch a ha
  have hmarked := h.marked floats
  obtain ⟨core, expr⟩ := a
  cases expr with
  | number value | accumulator | binary op left right => cases hsingle
  | symbol name =>
    have hconstant : name ∉ constants := hfree name (List.mem_singleton.mpr rfl)
    change Mode.relative.operandBytes t.pc ((line.mark t.pc t.symbols).get? name) =
      Mode.relative.operandBytes s.pc ((line.mark s.pc s.symbols).get? name)
    cases hs : (line.mark s.pc s.symbols).get? name with
    | none =>
      have ht : (line.mark t.pc t.symbols).get? name = none := by
        simpa [hs] using hmarked.isSome_get? name
      rw [ht]
      rfl
    | some v =>
      obtain ⟨w, ht⟩ : ∃ w, (line.mark t.pc t.symbols).get? name = some w := by
        simpa [hs, Option.isSome_iff_exists] using hmarked.isSome_get? name
      have hlabel : name ∈ labels := h.mem_labels_of_marked floats hs hconstant
      have hshift := branchDistance_shift h.pc (hmarked.label name hlabel v w hs ht)
      simp only [ht, Mode.operandBytes, hshift]

/-- A line that floats tries to do the same in shifted states. -/
theorem attempt_eq (h : s.Shifted labels constants shift t)
    (floats : line.Floats labels constants) (site : Site) :
    t.attempt site line = s.attempt site line := by
  cases hread : line.reading with
  | error e => rw [attempt_of_error hread, attempt_of_error hread]
  | ok r =>
    have harguments := Line.arguments_of_reading hread
    -- The values that a branch reads differ, but not their distance from it; other lines read
    -- the same values and no address.
    cases hbranch : line.isBranch with
    | true =>
      obtain ⟨m, opcode, argument, rfl⟩ := Line.reading_of_isBranch hbranch hread
      have hoperand : Mode.relative.operandBytes t.pc (t.instructionValue line argument) =
          Mode.relative.operandBytes s.pc (s.instructionValue line argument) := by
        cases argument with
        | none => rfl
        | some a => exact h.operandBytes_relative floats hbranch (harguments ▸ .head _)
      rw [attempt_instruction hread rfl, attempt_instruction hread rfl]
      exact congrArg (_ <$> ·) hoperand
    | false =>
      rw [attempt_of_reading hread, attempt_of_reading hread]
      refine Reading.effect_congr_of_not_branch ?_ ?_ ?_
      · rintro m wide argument rfl
        exact ⟨(Line.isBranch_of_reading hread).symm.trans hbranch,
          Line.mem_encodings_of_reading hread⟩
      · rw [isWide_labelled, isWide_labelled, h.isWide]
      · intro a ha
        rw [symbols_labelled, symbols_labelled]
        exact h.value?_eq floats hbranch (harguments ▸ ha)

/-- A constant is defined by no label, so that it has the same value. -/
theorem defined (h : s.Shifted labels constants shift t) (floats : line.Floats labels constants) :
    (line.define s.pc s.symbols).Shifted labels shift (line.define t.pc t.symbols) := by
  rcases line.equate_or_label with ⟨name, a, hread⟩ | ⟨-, hdefine⟩
  · have hconstant := (floats.constant name (by rw [Line.constant?, hread])).1
    have hbranch : line.isBranch = false := by
      obtain ⟨-, operand, hbody⟩ := Line.body_of_equate hread
      rw [Line.isBranch, hbody]
    have hvalue : a.value? t.symbols = a.value? s.symbols := by
      have hmarked := h.value?_eq floats hbranch (a := a)
        (by rw [Line.arguments_of_reading hread]; exact .head _)
      rwa [Line.mark_of_equate hread, Line.mark_of_equate hread] at hmarked
    rw [Line.define_of_equate hread, Line.define_of_equate hread, hvalue]
    cases a.value? s.symbols with
    | none => exact h.symbols.erase name
    | some v => exact h.symbols.insert (fun hlabel => absurd hlabel hconstant) fun _ => rfl
  · rw [hdefine, hdefine]
    exact h.marked floats

theorem known_define (h : s.Shifted labels constants shift t)
    (floats : line.Floats labels constants) :
    ∀ name ∈ (line.define s.pc s.symbols).names, name ∈ labels ∨ name ∈ constants := by
  intro name hname
  rw [← SymbolTable.isSome_get?_iff] at hname
  by_cases hbound : line.bound? = some name
  · rcases Line.bound_cases hbound hname with hlabel | ⟨a, value, hread, -⟩
    · exact .inl (floats.label name hlabel)
    · exact .inr (floats.constant name (by rw [Line.constant?, hread])).2
  · rw [Line.get?_define_of_ne hbound, SymbolTable.isSome_get?_iff] at hname
    exact h.known name hname

/-- An address that moves on within the address space keeps its shift. -/
theorem toNat_advance (h : s.Shifted labels constants shift t) {bytes : List UInt8}
    (room : s.pc.toNat + bytes.length ≤ 65535) (room' : t.pc.toNat + bytes.length ≤ 65535) :
    ((t.pc.advance bytes.length).toNat : Int) = (s.pc.advance bytes.length).toNat + shift := by
  have hpc := h.pc
  rw [Address.toNat_advance, Address.toNat_advance, Nat.mod_eq_of_lt (by omega),
    Nat.mod_eq_of_lt (by omega)]
  omega

/-- A line that floats keeps the shift, as long as there is room for its bytes. -/
theorem step (h : s.Shifted labels constants shift t) {source : Text}
    (floats : (Line.parse source).Floats labels constants) (site : Site)
    (room : s.pc.toNat + (s.step site source).bytes.length ≤ 65535)
    (room' : t.pc.toNat + (t.step site source).bytes.length ≤ 65535) :
    (s.step site source).state.Shifted labels constants shift (t.step site source).state := by
  have haction : t.action site (Line.parse source) = s.action site (Line.parse source) := by
    rw [action, action, h.attempt_eq floats]
  rw [bytes_step] at room room'
  rw [haction] at room'
  have hmove := Effect.move_of_ne_relocate (floats.action_ne_relocate s site)
  refine ⟨?_, ?_, ?_, ?_, ?_⟩
  · rw [pc_step, pc_step, haction, (hmove s.pc 0).1, (hmove t.pc 0).1]
    exact h.toNat_advance room room'
  · rw [symbols_step, symbols_step]
    exact h.defined floats
  · rw [symbols_step]
    exact h.known_define floats
  · rw [State.step, State.step, wideLines_assemble, wideLines_assemble, haction, h.wideLines]
  · rw [State.step, State.step, labelAddresses_assemble, labelAddresses_assemble]
    split
    · exact .cons ⟨rfl, h.pc⟩ h.labelAddresses
    · exact h.labelAddresses

end State.Shifted

/-! ## Shifted reports -/

/-- The same fault, met from another origin: the addresses of a label that moved are shifted, and
nothing else differs. -/
inductive Fault.Shifted (shift : Int) : Fault → Fault → Prop where
  | same {e : Fault} (h : e.kind ≠ .labelMoved) : Shifted shift e e
  | moved (name : Text) {first second first' second' : Value}
      (h : first'.toInt = first.toInt + shift) (h' : second'.toInt = second.toInt + shift) :
      Shifted shift (labelMoved name first second) (labelMoved name first' second')

/-- The same report about the same line. -/
def Diagnostic.Shifted (shift : Int) (d d' : Diagnostic) : Prop :=
  d'.line = d.line ∧ d.fault.Shifted shift d'.fault

theorem Fault.Shifted.report {e e' : Fault} (h : e.Shifted shift e') (site : Site) :
    List.Forall₂ (Diagnostic.Shifted shift) (Event.diagnostics (site.report e))
      (Event.diagnostics (site.report e')) := by
  unfold Site.report
  split
  · exact .cons ⟨rfl, h⟩ .nil
  · exact .nil

theorem lookup_shift {xs ys : List (Nat × Address)}
    (h : List.Forall₂ (fun a b : Nat × Address => b.1 = a.1 ∧
      (b.2.toNat : Int) = a.2.toNat + shift) xs ys) (k : Nat) :
    xs.lookup k = none ∧ ys.lookup k = none ∨
      ∃ a b, xs.lookup k = some a ∧ ys.lookup k = some b ∧ (b.toNat : Int) = a.toNat + shift := by
  induction h with
  | nil => exact .inl ⟨rfl, rfl⟩
  | @cons x y xs ys hxy _ ih =>
    rw [List.lookup_cons, List.lookup_cons, hxy.1]
    cases k == x.1 with
    | true => exact .inr ⟨x.2, y.2, rfl, rfl, hxy.2⟩
    | false => exact ih

namespace State.Shifted

variable {s t : State} {line : Line}

theorem labelDiagnostics (h : s.Shifted labels constants shift t) (site : Site) (line : Line) :
    List.Forall₂ (Diagnostic.Shifted shift) (Event.diagnostics (s.lineLabelEvents site line))
      (Event.diagnostics (t.lineLabelEvents site line)) := by
  unfold lineLabelEvents
  split
  · next name hlabel =>
    have hpc := h.pc
    unfold labelEvents
    rcases lookup_shift h.labelAddresses site.line with ⟨hs, ht⟩ | ⟨a, b, hs, ht, hab⟩
    · rw [hs, ht]
      exact .nil
    · have hmoved : b = t.pc ↔ a = s.pc := by
        rw [← UInt16.toNat_inj, ← UInt16.toNat_inj]
        omega
      simp only [hs, ht, hmoved]
      split
      · exact .nil
      · refine Fault.Shifted.report (.moved name ?_ ?_) site
        · rw [a.toInt_toValue, b.toInt_toValue, hab]
        · rw [s.pc.toInt_toValue, t.pc.toInt_toValue, hpc]
  · exact .nil

/-- The same operands lack a value, for lack of the same names. -/
theorem argumentDiagnostics_eq (h : s.Shifted labels constants shift t)
    (floats : line.Floats labels constants) (site : Site) :
    (t.labelled site line).argumentDiagnostics site line.arguments =
      (s.labelled site line).argumentDiagnostics site line.arguments := by
  have hmarked := h.marked floats
  refine List.flatMap_congr fun a ha => ?_
  have hsome : (a.value? (line.mark t.pc t.symbols)).isSome =
      (a.value? (line.mark s.pc s.symbols)).isSome := by
    refine hmarked.isSome_value? ?_
    cases hbranch : line.isBranch with
    | true => exact .inl (floats.branch hbranch a ha).1
    | false => exact .inr fun name hname => floats.other hbranch name (Line.mem_mentions ha hname)
  unfold reportArgument reportUnresolved unresolved
  simp only [symbols_labelled, hmarked.undefined_eq]
  cases hs : a.value? (line.mark s.pc s.symbols) with
  | none =>
    rw [hs] at hsome
    rw [Option.isNone_iff_eq_none.mp (Option.isSome_eq_false_iff.mp hsome)]
  | some v =>
    rw [hs] at hsome
    obtain ⟨w, ht⟩ := Option.isSome_iff_exists.mp hsome
    rw [ht]

/-- A line that floats reports the same in shifted states. -/
theorem diagnostics_step (h : s.Shifted labels constants shift t) {source : Text}
    (floats : (Line.parse source).Floats labels constants) (site : Site) :
    List.Forall₂ (Diagnostic.Shifted shift) (Event.diagnostics (s.step site source).events)
      (Event.diagnostics (t.step site source).events) := by
  rw [State.step, State.step, diagnostics_assemble, diagnostics_assemble, h.attempt_eq floats,
    h.argumentDiagnostics_eq floats]
  refine List.rel_append (List.rel_append (h.labelDiagnostics site _) ?_) ?_
  · refine List.forall₂_same.mpr fun d hd => ⟨rfl, .same ?_⟩
    rw [kind_of_argumentDiagnostic hd]
    decide
  · cases hattempt : s.attempt site (Line.parse source) with
    | ok effect => exact .nil
    | error e =>
      exact (Fault.Shifted.same (kind_ne_of_attempt_error (by decide) (by decide) hattempt)).report
        site

end State.Shifted

end

end Asm65
