-- SUMMARY: Addresses keep step with the image: a label stands where the bytes since the last origin end.
import Asm65.Proofs.Run
import Mathlib.Data.List.DropRight

/-!
# Placement

The program counter moves in several places, and has to stay in step with the bytes of the
image: with those that were emitted since the origin was last set. One line either sets the
origin, and emits nothing, or moves on by the bytes that it emits. Over a whole pass this
gives the address before every line, and with it the value of every label.
-/
namespace Asm65

/-! ## Addresses -/

namespace Address

theorem advance_zero (a : Address) : a.advance 0 = a := UInt16.add_zero a

theorem advance_advance (a : Address) (m n : Nat) :
    (a.advance m).advance n = a.advance (m + n) := by
  simp only [advance, UInt16.ofNat_add, UInt16.add_assoc]

theorem toNat_advance (a : Address) (n : Nat) :
    (a.advance n).toNat = (a.toNat + n) % 65536 := by
  simp only [advance, UInt16.toNat_add, UInt16.toNat_ofNat']
  omega

end Address

/-! ## Lines that set the origin -/

namespace Entry

/-- The value of the operand of an `ORG`, if it has one; none on any other line. -/
def originValue? (e : Entry) : Option Value :=
  let site : Site := ⟨.second, e.number⟩
  let line := Line.parse e.source
  match line.body with
  | .ok (.directive .org operand) =>
    ((e.before.labelled site line).requiredValue site operand).result.toOption.join
  | _ => none

/-- The table after the line, in the second pass. -/
def symbolsAfter (e : Entry) : SymbolTable :=
  (e.before.step ⟨.second, e.number⟩ e.source).state.symbols

end Entry

theorem Reading.origin_of_relocate {s : State} {site : Site} {r : Reading} {address : Address}
    (h : r.effect s site = .ok (.relocate address)) : ∃ a, r = .origin a := by
  cases r with
  | origin a => exact ⟨a, rfl⟩
  | nothing => cases h
  | data bytes => cases h
  | words arguments => cases h
  | instruction m wide argument =>
    obtain ⟨bytes, -, heq⟩ := exists_of_map_ok h
    cases heq
  | equate name a =>
    simp only [effect] at h
    split at h <;> cases h
  | storage a =>
    simp only [effect] at h
    split at h
    · split at h <;> cases h
    · cases h

theorem Reading.directive_of_origin {label : Option Text} {d : Directive} {operand : Option Text}
    {a : Argument} (h : ofDirective label d operand = .ok (.origin a)) : d = .org := by
  unfold ofDirective at h
  cases d with
  | org => rfl
  | data kind =>
    dsimp only at h
    split at h <;> cases h
  | equ =>
    cases label with
    | none => cases h
    | some name =>
      obtain ⟨b, -, heq⟩ := exists_of_map_ok h
      cases heq
  | da =>
    cases operand with
    | none => cases h
    | some text =>
      obtain ⟨arguments, -, heq⟩ := exists_of_map_ok h
      cases heq
  | ds =>
    obtain ⟨b, -, heq⟩ := exists_of_map_ok h
    cases heq
  | chk => cases h
  | skipped kind => cases h

theorem Line.body_of_origin {line : Line} {a : Argument} (h : line.reading = .ok (.origin a)) :
    ∃ operand, line.body = .ok (.directive .org operand) := by
  unfold reading at h
  split at h
  · cases h
  · cases h
  · obtain ⟨m, wide, argument, heq, -, -⟩ := Reading.ofInstruction_ok h
    cases heq
  · next d operand hbody =>
    obtain rfl := Reading.directive_of_origin h
    exact ⟨operand, hbody⟩

namespace State

variable {s : State} {n : Nat} {source : Text} {value : Value}

/-- An `ORG` reads its operand as an argument. -/
theorem originValue?_entry :
    (s.entry ⟨.second, n⟩ source).originValue? =
      match (Line.parse source).reading with
      | .ok (.origin a) => a.value? ((Line.parse source).mark s.pc s.symbols)
      | _ => none := by
  simp only [Entry.originValue?, entry]
  split
  · next operand hbody =>
    have hreading : (Line.parse source).reading =
        Reading.origin <$> Argument.ofRequired operand := by
      rw [Line.reading, hbody]
      rfl
    rw [requiredValue_eq, hreading]
    cases Argument.ofRequired operand with
    | error e => rfl
    | ok a => simp [Except.toOption]
  · next hbody =>
    split
    · next a hread =>
      obtain ⟨operand, horg⟩ := Line.body_of_origin hread
      exact absurd horg (hbody operand)
    · rfl

/-- A line with such a value sets the origin and does nothing else. -/
theorem action_of_originValue (h : (s.entry ⟨.second, n⟩ source).originValue? = some value) :
    s.action ⟨.second, n⟩ (Line.parse source) = .relocate value.toAddress := by
  rw [originValue?_entry] at h
  split at h
  · next a hread =>
    rw [action, attempt_of_reading hread]
    simp only [Reading.effect, symbols_labelled, h]
    rfl
  · cases h

/-- Only an `ORG` with a value sets the origin. -/
theorem origin_of_action {site : Site} {line : Line} {address : Address}
    (h : s.action site line = .relocate address) :
    ∃ a v, line.reading = .ok (.origin a) ∧ a.value? (line.mark s.pc s.symbols) = some v := by
  have hattempt : s.attempt site line = .ok (.relocate address) := by
    unfold action at h
    cases hattempt : s.attempt site line with
    | error e =>
      rw [hattempt] at h
      cases h
    | ok effect =>
      rw [hattempt] at h
      exact congrArg Except.ok h
  obtain ⟨r, hread, heffect⟩ := s.attempt_ok _ _ hattempt
  obtain ⟨a, rfl⟩ := Reading.origin_of_relocate heffect
  simp only [Reading.effect, symbols_labelled] at heffect
  cases hvalue : a.value? (line.mark s.pc s.symbols) with
  | some v => exact ⟨a, v, hread, hvalue⟩
  | none =>
    rw [hvalue] at heffect
    cases heffect

/-- No other line sets the origin. -/
theorem action_ne_relocate (h : (s.entry ⟨.second, n⟩ source).originValue? = none)
    (address : Address) : s.action ⟨.second, n⟩ (Line.parse source) ≠ .relocate address := by
  intro haction
  obtain ⟨a, v, hread, hvalue⟩ := origin_of_action haction
  rw [originValue?_entry, hread] at h
  cases hvalue.symm.trans h

end State

/-- An effect that sets no origin moves on by its bytes, and leaves the origin. -/
theorem Effect.move_of_ne_relocate {effect : Effect} (h : ∀ address, effect ≠ .relocate address)
    (pc origin : Address) :
    effect.move pc = pc.advance effect.bytes.length ∧ effect.rebase origin = origin := by
  cases effect with
  | relocate address => exact absurd rfl (h address)
  | emit bytes held => exact ⟨rfl, rfl⟩
  | nothing => exact ⟨pc.advance_zero.symm, rfl⟩
  | bind name value => exact ⟨pc.advance_zero.symm, rfl⟩
  | unbind name => exact ⟨pc.advance_zero.symm, rfl⟩

/-! ## Bytes since the last origin -/

/-- The origin after some lines: the low sixteen bits that the last `ORG` with a value sets it
to, or where the pass began if there is none. -/
def base (start : Address) (entries : List Entry) : Address :=
  ((entries.filterMap Entry.originValue?).map Value.toAddress).getLastD start

/-- What the lines after the last `ORG` with a value emitted. -/
def emittedSince (entries : List Entry) : List UInt8 :=
  (entries.rtakeWhile fun e => e.originValue?.isNone).flatMap Entry.bytes

section Concat

variable {start : Address} {entries : List Entry} {e : Entry}

theorem base_concat_of_some {value : Value} (h : e.originValue? = some value) :
    base start (entries ++ [e]) = value.toAddress := by
  simp [base, List.filterMap_append, h]

theorem base_concat_of_none (h : e.originValue? = none) :
    base start (entries ++ [e]) = base start entries := by
  simp [base, List.filterMap_append, h]

theorem emittedSince_concat_of_some {value : Value} (h : e.originValue? = some value) :
    emittedSince (entries ++ [e]) = [] := by
  simp [emittedSince, h]

theorem emittedSince_concat_of_none (h : e.originValue? = none) :
    emittedSince (entries ++ [e]) = emittedSince entries ++ e.bytes := by
  simp [emittedSince, h]

end Concat

namespace State

variable {s : State} {n : Nat} {source : Text} {lines : List Text} {start : Address}
  {done : List Entry}

/-- The state after some lines: its origin is the last one set, and its program counter has
moved on from there by the bytes emitted since. -/
structure StandsAfter (s : State) (start : Address) (done : List Entry) : Prop where
  origin : s.origin = base start done
  pc : s.pc = (base start done).advance (emittedSince done).length

namespace StandsAfter

theorem beginPass (s : State) (origin : Address) : StandsAfter (s.beginPass origin) origin [] where
  origin := rfl
  pc := origin.advance_zero.symm

theorem step (h : StandsAfter s start done) :
    StandsAfter (s.step ⟨.second, n⟩ source).state start
      (done ++ [s.entry ⟨.second, n⟩ source]) := by
  cases hvalue : (s.entry ⟨.second, n⟩ source).originValue? with
  | some value =>
    have haction := action_of_originValue hvalue
    constructor
    · rw [origin_step, haction, base_concat_of_some hvalue]
      rfl
    · rw [pc_step, haction, base_concat_of_some hvalue, emittedSince_concat_of_some hvalue]
      exact value.toAddress.advance_zero.symm
  | none =>
    obtain ⟨hmove, hrebase⟩ :=
      Effect.move_of_ne_relocate (action_ne_relocate hvalue) s.pc s.origin
    constructor
    · rw [origin_step, hrebase, base_concat_of_none hvalue, h.origin]
    · rw [pc_step, hmove, base_concat_of_none hvalue, emittedSince_concat_of_none hvalue, h.pc,
        Address.advance_advance, List.length_append]
      simp only [entry, bytes_step]

/-- So it is before every line of a run. -/
theorem before (h : StandsAfter s start done) {i : Nat} {e : Entry}
    (get : (s.run .second n lines).entries[i]? = some e) :
    StandsAfter e.before start (done ++ (s.run .second n lines).entries.take i) := by
  induction lines generalizing s n done i with
  | nil => cases get
  | cons source rest ih =>
    cases i with
    | zero =>
      obtain rfl : s.entry ⟨.second, n⟩ source = e := Option.some.inj get
      rw [List.take_zero, List.append_nil]
      exact h
    | succ i =>
      have hnext := ih h.step get
      rw [List.append_assoc] at hnext
      exact hnext

theorem final (h : StandsAfter s start done) :
    StandsAfter (s.run .second n lines).final start
      (done ++ (s.run .second n lines).entries) := by
  induction lines generalizing s n done with
  | nil =>
    rw [run_nil, List.append_nil]
    exact h
  | cons source rest ih =>
    have hstep : StandsAfter (s.step ⟨.second, n⟩ source).state start
        (done ++ [s.entry ⟨.second, n⟩ source]) := h.step
    have hnext := ih (n := n + 1) hstep
    rw [List.append_assoc] at hnext
    exact hnext

end StandsAfter

end State

/-! ## The image -/

namespace Assembly

/-- The image and the addresses keep step. -/
structure InStep (a : Assembly) (lines : List Text) : Prop where
  /-- A label stands as far from the last origin set as bytes of the image were emitted since,
  modulo 2^16. -/
  label : ∀ i e name, a.second.entries[i]? = some e →
    (Line.parse e.source).addressLabel? = some name →
      let before := a.second.entries.take i
      e.symbolsAfter.get? name =
        some (Int32.ofNat (((base a.start before).toNat + (emittedSince before).length) % 65536))
  /-- The load address is the last origin set. -/
  origin : a.origin = base a.start a.second.entries
  binary : a.binary = a.listing.flatMap ListingEntry.bytes
  /-- Every line is listed once, with its number and text. -/
  listing : a.listing.map (fun l => (l.number, l.source)) =
    lines.mapIdx fun i text => (i + 1, text)

/-- Whatever the source and wherever it starts, every label of the second pass is bound to the
address that its place in the image gives it. -/
theorem inStep (start : Address) (source : Text) :
    (ofText start source).InStep source.lines := by
  have hstart := State.StandsAfter.beginPass (ofText start source).first.final start
  refine ⟨?_, ?_, ?_, ?_⟩
  · intro i e name get hlabel before
    have hpc := (hstart.before get).pc
    rw [List.nil_append] at hpc
    rw [Entry.symbolsAfter, State.symbols_step, Line.get?_define_label hlabel, Address.toValue,
      hpc, Address.toNat_advance]
    rfl
  · have hend : State.StandsAfter (ofText start source).final start
        ([] ++ (ofText start source).second.entries) := hstart.final
    exact hend.origin
  · rw [listing, List.flatMap_map]
    rfl
  · have hlines := State.entries_run ((ofText start source).first.final.beginPass start) .second 1
      source.lines
    simp only [Nat.add_comm 1] at hlines
    rw [listing, List.map_map]
    exact hlines

/-- An `ORG` whose operand has no value does not count. -/
example :
    let source : Text := " NOP\n ORG $13000\n LDA #1\n ORG NONE\nL RTS".toList
    let before := (ofText defaultOrigin source).second.entries.take 4
    base defaultOrigin before = 0x3000 ∧ emittedSince before = [0xA9, 1] := by
  decide +kernel

end Assembly

end Asm65
