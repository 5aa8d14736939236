-- SUMMARY: Code whose labels serve branches only assembles to the same bytes from every origin.
import Asm65.Proofs.Shift

/-!
# Position independence

A source that uses its labels for branches only, and branches to nothing else, is assembled to
the same bytes wherever it begins, as long as it does not run over the end of the address space.
Both passes meet shifted states line by line. So a branch that is out of range is so from every
origin, and the labels that move because of it move by the same distance.
-/
namespace Asm65

/-! ## Sources -/

/-- The names that lines bind to their address. -/
def labelNames (lines : List Line) : List Text := lines.filterMap Line.addressLabel?

/-- The names that lines bind by `EQU`. -/
def constantNames (lines : List Line) : List Text := lines.filterMap Line.constant?

/-- No line sets the origin, and labels serve branches only. -/
structure PositionFree (lines : List Line) : Prop where
  noOrigin : ∀ line ∈ lines, line.isOrigin = false
  /-- No name is bound both as a label and by `EQU`. -/
  apart : ∀ name ∈ constantNames lines, name ∉ labelNames lines
  /-- The operand of a branch is a single name, and no constant. -/
  branches : ∀ line ∈ lines, line.isBranch → ∀ a ∈ line.arguments,
    a.IsTarget (constantNames lines)
  /-- No other operand mentions a label. -/
  others : ∀ line ∈ lines, line.isBranch = false → ∀ name ∈ line.mentions,
    name ∉ labelNames lines

instance (lines : List Line) : Decidable (PositionFree lines) :=
  decidable_of_iff
    ((∀ line ∈ lines, line.isOrigin = false) ∧
      (∀ name ∈ constantNames lines, name ∉ labelNames lines) ∧
      (∀ line ∈ lines, line.isBranch → ∀ a ∈ line.arguments,
        a.IsTarget (constantNames lines)) ∧
      ∀ line ∈ lines, line.isBranch = false → ∀ name ∈ line.mentions, name ∉ labelNames lines)
    ⟨fun ⟨noOrigin, apart, branches, others⟩ => ⟨noOrigin, apart, branches, others⟩,
      fun h => ⟨h.noOrigin, h.apart, h.branches, h.others⟩⟩

theorem PositionFree.floats {lines : List Line} (h : PositionFree lines) {line : Line}
    (hline : line ∈ lines) : line.Floats (labelNames lines) (constantNames lines) where
  noOrigin := h.noOrigin line hline
  label _ hname := List.mem_filterMap.mpr ⟨line, hline, hname⟩
  constant name hname :=
    have hmem : name ∈ constantNames lines := List.mem_filterMap.mpr ⟨line, hline, hname⟩
    ⟨h.apart name hmem, hmem⟩
  branch := h.branches line hline
  other := h.others line hline

/-! ## Runs -/

/-- The same line of two assemblies from different origins. -/
structure Entry.Shifted (shift : Int) (e f : Entry) : Prop where
  listing : f.toListing = e.toListing
  diagnostics : List.Forall₂ (Diagnostic.Shifted shift) (Event.diagnostics e.events)
    (Event.diagnostics f.events)

namespace State

variable {labels constants : List Text} {shift : Int} {s t : State} {pass : Pass} {n : Nat}
  {source : Text} {rest lines : List Text}

/-- Two passes from shifted states, with room for the bytes of all lines to come. -/
structure Parallel (labels constants : List Text) (shift : Int) (pass : Pass) (n : Nat)
    (lines : List Text) (s t : State) : Prop extends s.Shifted labels constants shift t where
  floats : ∀ line ∈ lines.map Line.parse, line.Floats labels constants
  room : s.pc.toNat + (s.run pass n lines).bytes.length ≤ 65535
  room' : t.pc.toNat + (t.run pass n lines).bytes.length ≤ 65535

theorem length_bytes_run_cons (s : State) :
    (s.run pass n (source :: rest)).bytes.length =
      (s.step ⟨pass, n⟩ source).bytes.length +
        ((s.step ⟨pass, n⟩ source).state.run pass (n + 1) rest).bytes.length := by
  rw [bytes_cons, List.length_append]

/-- A line that floats moves on by its bytes. -/
theorem toNat_pc_step (floats : (Line.parse source).Floats labels constants) {site : Site}
    (room : s.pc.toNat + (s.step site source).bytes.length ≤ 65535) :
    (s.step site source).state.pc.toNat = s.pc.toNat + (s.step site source).bytes.length := by
  have hmove := Effect.move_of_ne_relocate (floats.action_ne_relocate s site) s.pc 0
  rw [pc_step, hmove.1, ← bytes_step, Address.toNat_advance, Nat.mod_eq_of_lt (by omega)]

namespace Parallel

/-- A line has room if all lines to come have. -/
theorem room_step (h : Parallel labels constants shift pass n (source :: rest) s t) :
    s.pc.toNat + (s.step ⟨pass, n⟩ source).bytes.length ≤ 65535 ∧
      t.pc.toNat + (t.step ⟨pass, n⟩ source).bytes.length ≤ 65535 := by
  have hroom := h.room
  have hroom' := h.room'
  rw [length_bytes_run_cons] at hroom hroom'
  omega

theorem step (h : Parallel labels constants shift pass n (source :: rest) s t) :
    Parallel labels constants shift pass (n + 1) rest (s.step ⟨pass, n⟩ source).state
      (t.step ⟨pass, n⟩ source).state := by
  have floats := h.floats (Line.parse source) (.head _)
  obtain ⟨room, room'⟩ := h.room_step
  have hroom := h.room
  have hroom' := h.room'
  rw [length_bytes_run_cons] at hroom hroom'
  refine ⟨h.toShifted.step floats ⟨pass, n⟩ room room', fun line hline => ?_, ?_, ?_⟩
  · exact h.floats line (.tail _ hline)
  · rw [toNat_pc_step floats room]
    omega
  · rw [toNat_pc_step floats room']
    omega

/-- Line by line, both runs emit the same bytes and report the same. -/
theorem run (h : Parallel labels constants shift pass n lines s t) :
    List.Forall₂ (Entry.Shifted shift) (s.run pass n lines).entries
        (t.run pass n lines).entries ∧
      (s.run pass n lines).final.Shifted labels constants shift (t.run pass n lines).final := by
  have hrun := run_forall₂
    (I := fun n lines s t => Parallel labels constants shift pass n lines s t)
    (R := Entry.Shifted shift) (p := pass) (q := pass) ?_ h
  · exact ⟨hrun.1, hrun.2.toShifted⟩
  · intro n source rest s t h
    have floats := h.floats (Line.parse source) (.head _)
    refine ⟨⟨?_, h.diagnostics_step floats ⟨pass, n⟩⟩, h.step⟩
    have hbytes : (t.step ⟨pass, n⟩ source).bytes = (s.step ⟨pass, n⟩ source).bytes := by
      rw [bytes_step, bytes_step, action, action, h.attempt_eq floats]
    simp only [Entry.toListing, entry, hbytes]

end Parallel

theorem Shifted.initial (labels constants : List Text) (o o' : Address) :
    (State.initial o).Shifted labels constants (o'.toNat - o.toNat) (State.initial o') where
  pc := by
    simp only [State.initial]
    omega
  symbols := .empty
  known _ h := nomatch h
  wideLines := rfl
  labelAddresses := .nil

/-- A pass begins with the shift between the origins. -/
theorem Shifted.beginPass {o o' : Address}
    (h : s.Shifted labels constants (o'.toNat - o.toNat) t) :
    (s.beginPass o).Shifted labels constants (o'.toNat - o.toNat) (t.beginPass o') :=
  { h with
    pc := by
      simp only [State.beginPass]
      omega }

/-- A name stays bound if no line binds it by `EQU`, and a label of the lines becomes so. -/
theorem isSome_get?_run_of_label {name : Text}
    (unequal : ∀ line ∈ lines.map Line.parse, line.constant? ≠ some name)
    (h : (s.symbols.get? name).isSome ∨ name ∈ labelNames (lines.map Line.parse)) :
    ((s.run pass n lines).final.symbols.get? name).isSome := by
  -- Bound so far or by a line to come: a line that binds the name turns the one into the other.
  induction lines generalizing s n with
  | nil => exact h.resolve_right List.not_mem_nil
  | cons source rest ih =>
    rw [final_cons]
    refine ih (fun line hline => unequal line (.tail _ hline)) ?_
    rw [symbols_step]
    by_cases hbound : (Line.parse source).bound? = some name
    · left
      rcases (Line.parse source).equate_or_label with ⟨constant, a, hread⟩ | ⟨heq, -⟩
      · have hconstant : (Line.parse source).constant? = some name := by
          rw [Line.constant?, hread, ← hbound, Line.bound?_of_equate hread]
        exact absurd hconstant (unequal _ (.head _))
      · rw [Line.get?_define_label (heq.symm.trans hbound)]
        rfl
    · rw [Line.get?_define_of_ne hbound]
      refine h.imp id fun hmem => ?_
      obtain ⟨line, hline, hlabel⟩ := List.mem_filterMap.mp hmem
      rcases List.mem_cons.mp hline with rfl | hrest
      · exact absurd (Line.bound?_of_label hlabel) hbound
      · exact List.mem_filterMap.mpr ⟨line, hrest, hlabel⟩

end State

/-! ## Assemblies from two origins -/

namespace Assembly

/-- In neither pass do the bytes reach the end of the address space. -/
structure Fits (a : Assembly) : Prop where
  first : a.start.toNat + a.first.bytes.length ≤ 65535
  second : a.start.toNat + a.second.bytes.length ≤ 65535

instance (a : Assembly) : Decidable a.Fits :=
  decidable_of_iff
    (a.start.toNat + a.first.bytes.length ≤ 65535 ∧ a.start.toNat + a.second.bytes.length ≤ 65535)
    ⟨fun ⟨first, second⟩ => ⟨first, second⟩, fun h => ⟨h.first, h.second⟩⟩

/-- The second assembly is the first one from another origin: the bytes are the same, and the
labels are shifted by the distance of the origins. -/
structure Relocated (labels : List Text) (a b : Assembly) : Prop where
  binary : b.binary = a.binary
  /-- The bytes of every line, in the second pass and in the first. -/
  listing : b.listing = a.listing
  first : b.first.entries.map Entry.toListing = a.first.entries.map Entry.toListing
  /-- The same names, in the same order. -/
  names : b.symbols.names = a.symbols.names
  shifted : ∀ name ∈ labels, ∃ v w, a.symbols.get? name = some v ∧ b.symbols.get? name = some w ∧
    w.toInt - v.toInt = b.start.toNat - a.start.toNat
  /-- Every other name has the same value, or none. -/
  others : ∀ name, name ∉ labels → b.symbols.get? name = a.symbols.get? name
  diagnostics : List.Forall₂ (Diagnostic.Shifted (b.start.toNat - a.start.toNat)) a.diagnostics
    b.diagnostics

end Assembly

theorem Run.bytes_eq (r : Run) :
    r.bytes = (r.entries.map Entry.toListing).flatMap ListingEntry.bytes := by
  rw [List.flatMap_map]
  rfl

namespace Entry

variable {shift : Int} {entries entries' : List Entry}

theorem toListing_of_shifted (h : List.Forall₂ (Entry.Shifted shift) entries entries') :
    entries'.map toListing = entries.map toListing := by
  induction h with
  | nil => rfl
  | cons hentry _ ih => rw [List.map_cons, List.map_cons, hentry.listing, ih]

theorem diagnostics_of_shifted (h : List.Forall₂ (Entry.Shifted shift) entries entries') :
    List.Forall₂ (Diagnostic.Shifted shift) (Event.diagnostics (entries.flatMap events))
      (Event.diagnostics (entries'.flatMap events)) := by
  induction h with
  | nil => exact .nil
  | cons hentry _ ih =>
    rw [List.flatMap_cons, List.flatMap_cons, Event.diagnostics_append, Event.diagnostics_append]
    exact List.rel_append hentry.diagnostics ih

end Entry

/-- Wherever it begins, a source that uses labels for branches only is assembled to the same
bytes with the same reports. -/
theorem Assembly.relocated_of_positionFree (start start' : Address) (source : Text)
    (free : PositionFree (source.lines.map Line.parse)) (fits : (ofText start source).Fits)
    (fits' : (ofText start' source).Fits) :
    (ofText start source).Relocated (labelNames (source.lines.map Line.parse))
      (ofText start' source) := by
  have floats : ∀ line ∈ source.lines.map Line.parse, line.Floats _ _ := fun _ => free.floats
  have hstart : State.Parallel _ _ (start'.toNat - start.toNat) .first 1 source.lines _ _ :=
    ⟨(State.Shifted.initial _ _ start start').beginPass, floats, fits.first, fits'.first⟩
  obtain ⟨hfirst, hbetween⟩ := hstart.run
  -- The first pass leaves its tables shifted, and the second goes on with them.
  have hagain : State.Parallel _ _ (start'.toNat - start.toNat) .second 1 source.lines _ _ :=
    ⟨hbetween.beginPass, floats, fits.second, fits'.second⟩
  obtain ⟨hsecond, hfinal⟩ := hagain.run
  have hlisting := Entry.toListing_of_shifted hsecond
  refine ⟨?_, hlisting, Entry.toListing_of_shifted hfirst, hfinal.symbols.names, ?_,
    hfinal.symbols.other, Entry.diagnostics_of_shifted hsecond⟩
  · exact (Run.bytes_eq _).trans ((congrArg _ hlisting).trans (Run.bytes_eq _).symm)
  · intro name hname
    have unequal : ∀ line ∈ source.lines.map Line.parse, line.constant? ≠ some name :=
      fun line hline hconstant =>
        free.apart name (List.mem_filterMap.mpr ⟨line, hline, hconstant⟩) hname
    have hbound (s : State) :
        ∃ v, (s.run .second 1 source.lines).final.symbols.get? name = some v :=
      Option.isSome_iff_exists.mp (State.isSome_get?_run_of_label unequal (.inr hname))
    obtain ⟨v, hv⟩ : ∃ v, (ofText start source).symbols.get? name = some v := hbound _
    obtain ⟨w, hw⟩ : ∃ w, (ofText start' source).symbols.get? name = some w := hbound _
    have hshift := hfinal.symbols.label name hname v w hv hw
    have hstarts : (ofText start' source).start = start' ∧ (ofText start source).start = start :=
      ⟨rfl, rfl⟩
    refine ⟨v, w, hv, hw, ?_⟩
    rw [hstarts.1, hstarts.2]
    omega

/-- Branches forward, back, to nowhere and out of range, the last of which moves a label. -/
theorem Assembly.branches_relocated :
    let source : Text :=
      "N EQU 2\n BNE F\nB LDA N\nF BEQ L\n BNE B\n BCC Q\n DS 130\nL STA 9".toList
    PositionFree (source.lines.map Line.parse) ∧ (ofText 0x8000 source).Fits ∧
      (ofText 0x0300 source).Fits ∧
      (ofText 0x8000 source).Relocated (labelNames (source.lines.map Line.parse))
        (ofText 0x0300 source) := by
  intro source
  have hypotheses : PositionFree (source.lines.map Line.parse) ∧ (ofText 0x8000 source).Fits ∧
      (ofText 0x0300 source).Fits := by decide +kernel
  obtain ⟨free, fits, fits'⟩ := hypotheses
  exact ⟨free, fits, fits', relocated_of_positionFree _ _ source free fits fits'⟩

end Asm65
