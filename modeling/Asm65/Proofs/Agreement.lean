-- SUMMARY: Lines that both passes assemble alike, and sources without forward references.
import Asm65.Proofs.Encoding
import Asm65.Proofs.Resolution

/-!
# Agreement of the passes

The passes assemble a line alike if it stands at one address in both and its operands have
the same values; the memory of wide lines settles the rest. A source that refers back only
consists of such lines. The second pass begins with all that the first one left, but a line
finds a name there only if an earlier line has bound it anew or none ever bound it.
-/
namespace Asm65

/-! ## One line in both passes -/

namespace Effect

/-- The effect as the second pass has it: no line is held wide any more. -/
def released : Effect → Effect
  | emit bytes _ => emit bytes false
  | effect => effect

@[simp] theorem bytes_released (effect : Effect) : effect.released.bytes = effect.bytes := by
  cases effect <;> rfl

@[simp] theorem move_released (effect : Effect) (pc : Address) :
    effect.released.move pc = effect.move pc := by
  cases effect <;> rfl

end Effect

theorem Mnemonic.staysWide_second (m : Mnemonic) (wide : Encoding) (value : Option Value) :
    m.staysWide wide value .second = false := by
  simp [staysWide]

/-- The second pass repeats the effect that a reading had in the first, if it sees the same
values at the same address. -/
theorem Reading.effect_second {s t : State} {n : Nat} {r : Reading} (address : s.pc = t.pc)
    (fresh : s.isWide n = false) (held : t.isWide n = r.staysWide s.symbols .first)
    (values : ∀ a ∈ r.arguments, a.value? s.symbols = a.value? t.symbols) :
    r.effect t ⟨.second, n⟩ = Effect.released <$> r.effect s ⟨.first, n⟩ := by
  cases r with
  | nothing => rfl
  | data bytes => rfl
  | instruction m wide argument =>
    have hargument : argument.bind (Argument.value? · s.symbols) =
        argument.bind (Argument.value? · t.symbols) := by
      cases argument with
      | none => rfl
      | some a => exact values a (List.mem_singleton.mpr rfl)
    have hheld : t.isWide n =
        m.staysWide wide (argument.bind (Argument.value? · t.symbols)) .first := by
      rw [held, ← hargument]
      rfl
    simp only [effect, hargument, address, fresh, hheld, Mnemonic.narrow_stable fun v hv => hv,
      Mnemonic.staysWide_second]
    generalize (m.narrow wide (argument.bind (Argument.value? · t.symbols)) false).mode = mode
    cases mode.operandBytes t.pc (argument.bind (Argument.value? · t.symbols)) <;> rfl
  | equate name a =>
    simp only [effect, values a (List.mem_singleton.mpr rfl)]
    cases a.value? t.symbols <;> rfl
  | origin a =>
    simp only [effect, values a (List.mem_singleton.mpr rfl)]
    cases a.value? t.symbols <;> rfl
  | words arguments =>
    have hbytes : arguments.flatMap (Argument.wordBytes · s.symbols) =
        arguments.flatMap (Argument.wordBytes · t.symbols) := by
      refine List.flatMap_congr fun a ha => ?_
      simp only [Argument.wordBytes, values a ha]
    simp only [effect, hbytes]
    rfl
  | storage a =>
    simp only [effect, values a (List.mem_singleton.mpr rfl)]
    cases a.value? t.symbols with
    | none => rfl
    | some size =>
      dsimp only
      split <;> rfl

namespace State

variable {s t : State} {n : Nat} {source : Text} {rest lines : List Text} {name : Text}

namespace Recalls

/-- The second pass does with a line what the first one did, or fails with the same fault. -/
theorem attempt_eq (h : Recalls s t n (source :: rest)) (address : s.pc = t.pc)
    (values : ∀ a ∈ (Line.parse source).arguments,
      a.value? ((Line.parse source).mark s.pc s.symbols) =
        a.value? ((Line.parse source).mark t.pc t.symbols)) :
    t.attempt ⟨.second, n⟩ (Line.parse source) =
      Effect.released <$> s.attempt ⟨.first, n⟩ (Line.parse source) := by
  cases hread : (Line.parse source).reading with
  | error e =>
    rw [attempt_of_error hread, attempt_of_error hread]
    rfl
  | ok r =>
    rw [attempt_of_reading hread, attempt_of_reading hread]
    refine Reading.effect_second ?_ ?_ ?_ ?_
    · simpa using address
    · simpa using h.fresh n (Nat.le_refl n)
    · have hheld := h.held
      simp only [holds_action, hread] at hheld
      simpa using hheld
    · intro a ha
      simpa using values a ((Line.arguments_of_reading hread).symm ▸ ha)

theorem action_eq (h : Recalls s t n (source :: rest)) (address : s.pc = t.pc)
    (values : ∀ a ∈ (Line.parse source).arguments,
      a.value? ((Line.parse source).mark s.pc s.symbols) =
        a.value? ((Line.parse source).mark t.pc t.symbols)) :
    t.action ⟨.second, n⟩ (Line.parse source) =
      (s.action ⟨.first, n⟩ (Line.parse source)).released := by
  simp only [action, h.attempt_eq address values]
  cases s.attempt ⟨.first, n⟩ (Line.parse source) <;> rfl

end Recalls

end State

/-! ## Referring back -/

/-- The line leaves a name bound: its label, or a constant whose operand has a value. -/
def Entry.Binds (e : Entry) (name : Text) : Prop :=
  (Line.parse e.source).bound? = some name ∧
    (((Line.parse e.source).define e.before.pc e.before.symbols).get? name).isSome

/-- No operand mentions a name that a later line binds. -/
def Run.RefersBack (r : Run) : Prop :=
  r.entries.Pairwise fun e later => ∀ name ∈ (Line.parse e.source).mentions, ¬ later.Binds name

namespace State

variable {s t : State} {n : Nat} {source : Text} {rest lines : List Text} {name : Text}

theorem refersBack_cons {pass : Pass} :
    (s.run pass n (source :: rest)).RefersBack ↔
      (∀ later ∈ ((s.step ⟨pass, n⟩ source).state.run pass (n + 1) rest).entries,
        ∀ name ∈ (Line.parse source).mentions, ¬ later.Binds name) ∧
      ((s.step ⟨pass, n⟩ source).state.run pass (n + 1) rest).RefersBack :=
  List.pairwise_cons

/-- The text alone may show that a source refers back: then not even a constant without a
value takes a name that an earlier operand mentions. -/
theorem refersBack_of_text {pass : Pass}
    (h : (lines.map Line.parse).Pairwise fun line later =>
      ∀ name ∈ line.mentions, later.bound? ≠ some name) :
    (s.run pass n lines).RefersBack := by
  induction lines generalizing s n with
  | nil => exact .nil
  | cons source rest ih =>
    obtain ⟨hhead, hrest⟩ := List.pairwise_cons.mp h
    refine refersBack_cons.mpr ⟨?_, ih hrest⟩
    intro later hlater name hname hbinds
    have hsource : (later.number, later.source) ∈
        rest.mapIdx fun i text => (n + 1 + i, text) := by
      rw [← entries_run]
      exact List.mem_map_of_mem hlater
    obtain ⟨i, hi, heq⟩ := List.mem_mapIdx.mp hsource
    obtain ⟨-, hline⟩ : _ ∧ rest[i] = later.source := by simpa using heq
    refine hhead (Line.parse later.source) ?_ name hname hbinds.1
    rw [← hline]
    exact List.mem_map_of_mem (List.getElem_mem hi)

/-- A name that no line leaves bound stays unbound. -/
theorem get?_run_of_not_binds {pass : Pass}
    (h : ∀ e ∈ (s.run pass n lines).entries, ¬ e.Binds name)
    (unbound : s.symbols.get? name = none) :
    (s.run pass n lines).final.symbols.get? name = none := by
  induction lines generalizing s n with
  | nil => exact unbound
  | cons source rest ih =>
    refine ih (fun e he => h e (.tail _ he)) ?_
    rw [symbols_step]
    by_cases hbound : (Line.parse source).bound? = some name
    · have hline := h (s.entry ⟨pass, n⟩ source) (.head _)
      exact Option.not_isSome_iff_eq_none.mp fun hsome => hline ⟨hbound, hsome⟩
    · rw [Line.get?_define_of_ne hbound, unbound]

/-- Nor does a line bind a name that its own operand needs, its label apart. -/
theorem get?_define_of_mention {line : Line} {a : Argument} (ha : a ∈ line.arguments)
    (hname : name ∈ a.expr.names) (hlabel : line.addressLabel? ≠ some name) {pc : Address}
    {symbols : SymbolTable} (unbound : symbols.get? name = none) :
    (line.define pc symbols).get? name = none := by
  rcases line.equate_or_label with ⟨constant, b, hread⟩ | ⟨-, hdefine⟩
  · by_cases hconstant : line.bound? = some name
    · obtain rfl : constant = name :=
        Option.some.inj ((Line.bound?_of_equate hread).symm.trans hconstant)
      obtain rfl : a = b := by
        rw [Line.arguments_of_reading hread] at ha
        exact List.mem_singleton.mp ha
      rw [Line.get?_define_constant hread]
      by_contra hvalue
      obtain ⟨value, hvalue⟩ := Option.ne_none_iff_exists'.mp hvalue
      have hsome := Expr.isSome_get?_of_eval? hvalue hname
      rw [unbound] at hsome
      cases hsome
    · rw [Line.get?_define_of_ne hconstant, unbound]
  · rw [hdefine, Line.get?_mark_of_ne hlabel, unbound]

/-! ## Passes that agree -/

/-- The second pass in state `t` agrees with the first pass in state `s`: it stands at the
same address, knows no name otherwise but those still to be bound, and no operand to come
mentions one of these. -/
structure Agrees (s t : State) (n : Nat) (lines : List Text) : Prop
    extends Recalls s t n lines where
  pc : s.pc = t.pc
  symbols : s.symbols.FilledFrom t.symbols (s.run .first n lines).final.symbols
  back : (s.run .first n lines).RefersBack

namespace Agrees

theorem start {origin : Address} {lines : List Text}
    (back : (Assembly.ofLines origin lines).first.RefersBack) :
    Agrees ((State.initial origin).beginPass origin)
      (((State.initial origin).runPass .first origin lines).final.beginPass origin) 1 lines where
  toRecalls := Recalls.start origin lines
  pc := rfl
  symbols := SymbolTable.FilledFrom.empty _
  back := back

/-- What the first pass left behind is never seen: operands have one value in both passes. -/
theorem value?_eq (h : Agrees s t n (source :: rest)) {a : Argument}
    (ha : a ∈ (Line.parse source).arguments) :
    a.value? ((Line.parse source).mark s.pc s.symbols) =
      a.value? ((Line.parse source).mark t.pc t.symbols) := by
  apply Argument.value?_congr
  intro name hname
  by_cases hlabel : (Line.parse source).addressLabel? = some name
  · rw [Line.get?_mark_label hlabel, Line.get?_mark_label hlabel, h.pc]
  · rw [Line.get?_mark_of_ne hlabel, Line.get?_mark_of_ne hlabel]
    rcases h.symbols name with heq | ⟨hnone, hlast⟩
    · exact heq.symm
    · -- Neither this line nor a later one binds the name, so the first pass ends without it.
      obtain ⟨hlater, -⟩ := refersBack_cons.mp h.back
      rw [hnone, hlast, final_cons]
      refine (get?_run_of_not_binds ?_ ?_).symm
      · exact fun e he => hlater e he name (Line.mem_mentions ha hname)
      · rw [symbols_step]
        exact get?_define_of_mention ha hname hlabel hnone

theorem action_eq (h : Agrees s t n (source :: rest)) :
    t.action ⟨.second, n⟩ (Line.parse source) =
      (s.action ⟨.first, n⟩ (Line.parse source)).released :=
  h.toRecalls.action_eq h.pc fun _ => h.value?_eq

theorem step (h : Agrees s t n (source :: rest)) :
    Agrees (s.step ⟨.first, n⟩ source).state (t.step ⟨.second, n⟩ source).state (n + 1)
      rest where
  toRecalls := h.toRecalls.step
  pc := by
    rw [pc_step, pc_step, h.action_eq, Effect.move_released, h.pc]
  symbols := by
    simp only [symbols_step]
    refine Line.define_filledFrom h.symbols fun name hbound => ?_
    refine Line.get?_define_bound hbound h.pc fun a hread => ?_
    have hvalue := h.value?_eq (a := a) (by
      rw [Line.arguments_of_reading hread]
      exact .head _)
    rwa [Line.mark_of_equate hread, Line.mark_of_equate hread] at hvalue
  back := (refersBack_cons.mp h.back).2

theorem labels_still (h : Agrees s t n lines) :
    Event.FreeOf .labelMoved (t.run .second n lines).events :=
  Recalls.freeOf_labelMoved (I := fun n lines s t => Agrees s t n lines)
    (fun _ _ _ _ h => ⟨h.toRecalls, h.pc⟩) (fun _ _ _ _ _ h => h.step) h

end Agrees

end State

namespace Assembly

/-- Both passes went over the same lines, put each at one address and gave it the same
bytes. -/
def PassesAgree (a : Assembly) : Prop :=
  List.Forall₂
    (fun first second : Entry =>
      first.number = second.number ∧ first.source = second.source ∧
        first.before.pc = second.before.pc ∧ first.bytes = second.bytes)
    a.first.entries a.second.entries

/-- If no operand mentions a name that a later line binds, both passes agree byte for byte,
and no label is reported to have moved. Lines may fail, names may be bound again or never,
and operands may have no value. -/
theorem passesAgree_of_refersBack (start : Address) (source : Text)
    (back : (ofText start source).first.RefersBack) :
    (ofText start source).PassesAgree ∧
      ∀ d ∈ (ofText start source).diagnostics, d.fault.kind ≠ .labelMoved := by
  have hstart := State.Agrees.start back
  refine ⟨?_, hstart.labels_still⟩
  refine (State.run_forall₂ (I := fun n lines s t => State.Agrees s t n lines) ?_ hstart).1
  intro n line rest s t h
  refine ⟨⟨rfl, rfl, h.pc, ?_⟩, h.step⟩
  simp only [State.entry, State.bytes_step, h.action_eq, Effect.bytes_released]

/-- A constant that is defined anew and one that is unbound again, a division by zero, the
bare register in an expression, a branch out of range, and an unknown mnemonic. -/
theorem faulty_passesAgree :
    let source : Text :=
      "X EQU 1\nX EQU 2\nY EQU X\nY EQU NONE\nL LDA Y\n DA X,1/0,A+1\n DS 300\n BNE L\n FOO".toList
    (ofText defaultOrigin source).first.RefersBack ∧
      (ofText defaultOrigin source).PassesAgree ∧
      ∀ d ∈ (ofText defaultOrigin source).diagnostics, d.fault.kind ≠ .labelMoved :=
  have back : (ofText _ _).first.RefersBack := State.refersBack_of_text (by decide +kernel)
  ⟨back, passesAgree_of_refersBack _ _ back⟩

end Assembly

end Asm65
