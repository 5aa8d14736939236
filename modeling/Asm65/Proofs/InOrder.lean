-- SUMMARY: Lines performed in order come to the step of the assembly, also where they fail.
import Asm65.Proofs.Encoding
import Asm65.Proofs.Fault

/-!
# Lines in order

The step of an assembly computes what a line would do and does it only if nothing went wrong. An
assembler that works in place has no such second thought: it changes the state on the way, and
what it did before a fault stays done. Here a line is performed in that order, with every look-up
where it belongs, and it comes to the same as the step. So a line that fails has bound its
label by then, reported what lacks a value, and done nothing else.
-/
namespace Asm65

/-! ## Actions -/

/-- What a computation leaves: the state and the events up to its end, even if it ends in a
fault. -/
structure Ending (α : Type) where
  state : State
  events : List Event
  result : Except Fault α

/-- An ending with events before it. -/
def Ending.after {α : Type} (events : List Event) (ending : Ending α) : Ending α :=
  { ending with events := events ++ ending.events }

/-- A computation that changes the state as it goes. -/
def Action (α : Type) : Type := State → Ending α

namespace Action

variable {α β : Type}

def pure (a : α) : Action α := fun s => ⟨s, [], .ok a⟩

/-- Go on from the state that the first computation leaves, unless it ended in a fault. -/
def bind (x : Action α) (f : α → Action β) : Action β := fun s =>
  match (x s).result with
  | .ok a => (f a (x s).state).after (x s).events
  | .error e => ⟨(x s).state, (x s).events, .error e⟩

instance : Monad Action where
  pure := pure
  bind := bind

/-- Compute from the state without changing it. -/
def read (f : State → Logged α) : Action α := fun s => ⟨s, (f s).events, (f s).result⟩

def tell (events : List Event) : Action Unit := read fun _ => Logged.tell events

/-- End in a fault. -/
def fail (e : Fault) : Action α := read fun _ => Logged.fail e

/-- Change the state and emit nothing. -/
def change (f : State → State) : Action (List UInt8) := fun s => ⟨f s, [], .ok []⟩

/-- Emit bytes and move on by them. -/
def emit (bytes : List UInt8) : Action (List UInt8) := fun s =>
  ⟨{ s with pc := s.pc.advance bytes.length }, [], .ok bytes⟩

/-! ## Instructions -/

/-- Narrow a mode for a value in page zero. If there is no value yet, the first pass remembers that
the line is wide. -/
def narrow (site : Site) (m : Mnemonic) (wide : Mode) (value : Option Value) : Action Mode :=
  fun s =>
    match wide.zeroPageForm?.filter m.supports, value with
    | some short, some v =>
      ⟨s, [], .ok (if v.inZeroPage && !s.isWide site.line then short else wide)⟩
    | some _, none =>
      match site.pass with
      | .first => ⟨{ s with wideLines := s.wideLines.insert site.line }, [], .ok wide⟩
      | .second => ⟨s, [], .ok wide⟩
    | none, _ => ⟨s, [], .ok wide⟩

/-- Look up the opcode of a mode that was settled. -/
def lookUp (m : Mnemonic) (mode : Mode) : Action UInt8 :=
  match m.encoding? mode with
  | some encoding => return encoding.opcode
  | none => fail (.unknownMode m.name.toList mode.name)

/-- Encode an instruction once its mode is selected and its operand evaluated. -/
def encode (site : Site) (m : Mnemonic) (wide : Mode) (operand : Option Operand)
    (evaluation : Option Evaluation) : Action (List UInt8) := do
  let value := evaluation.bind Evaluation.value
  let mode ← narrow site m wide value
  tell [.modeSelected site.line m mode value]
  let opcode ← lookUp m mode
  let bytes ← read fun s => Logged.ofExcept (mode.operandBytes s.pc value)
  read fun s => Logged.tell (s.reportOperand site evaluation operand)
  emit (opcode :: bytes)

def instruction (site : Site) (mnemonic : Text) (operand : Option Operand) :
    Action (List UInt8) :=
  match Mnemonic.ofText? mnemonic with
  | none => fail (.unknownOpcode mnemonic)
  | some m =>
    match m.select? (Operand.modes operand) with
    | none => fail (.unknownMode mnemonic (Mode.alternatives (Operand.modes operand)))
    | some wide => do
      let evaluation ← read fun s => s.evaluateOperand site wide.mode operand
      encode site m wide.mode operand evaluation

/-! ## Directives and lines -/

def directive (site : Site) (label : Option Text) (d : Directive) (operand : Option Text) :
    Action (List UInt8) :=
  match d with
  | .data kind =>
    match operand.bind Literal.bytes? with
    | some bytes => emit (kind.arrange bytes)
    | none => fail (.missingString (Directive.data kind).name)
  | .equ =>
    match label with
    | none => fail (.missingLabel Directive.equ.name)
    | some name => do
      match ← read fun s => s.requiredValue site operand with
      | some value => change fun s => { s with symbols := s.symbols.insert name value }
      | none => change fun s => { s with symbols := s.symbols.erase name }
  | .org => do
    match ← read fun s => s.requiredValue site operand with
    | some value =>
      tell [.originSet site.line value.toAddress]
      change fun s => { s with origin := value.toAddress, pc := value.toAddress }
    | none => return []
  | .da =>
    match operand with
    | none => fail (.parse (Directive.da.name ++ " needs an operand"))
    | some text => do
      let bytes ← read fun s => s.words site (text.splitOn ',')
      emit bytes
  | .ds => do
    match ← read fun s => s.requiredValue site operand with
    | some n =>
      if 0 ≤ n ∧ n ≤ storageLimit then emit (List.replicate n.toInt.toNat 0)
      else fail (.parse ("bad storage size " ++ toString n.toInt))
    | none => return []
  | .chk => return []
  | .skipped kind => do
    tell (if site.pass.reports then [.skipped site.line kind] else [])
    return []

/-- Bind the label of a line to the program counter. -/
def bindLabel (site : Site) (line : Line) : Action Unit := fun s =>
  ⟨s.labelled site line, s.lineLabelEvents site line, .ok ()⟩

/-- A line that was read: its label first, then what it does. -/
def line (site : Site) (line : Line) : Action (List UInt8) := do
  bindLabel site line
  match line.body with
  | .error e => fail e
  | .ok .blank => return []
  | .ok (.instruction mnemonic operand) => instruction site mnemonic operand
  | .ok (.directive d operand) => directive site line.label d operand

/-! ## Actions that come to an effect -/

section

variable {x : Action α} {f : α → Action β} {s s' : State} {events : List Event} {a : α} {e : Fault}

theorem bind_ok (h : x s = ⟨s', events, .ok a⟩) : (x >>= f) s = (f a s').after events := by
  change bind x f s = _
  simp only [bind, h]

/-- What was done before a fault stays done. -/
theorem bind_error (h : x s = ⟨s', events, .error e⟩) : (x >>= f) s = ⟨s', events, .error e⟩ := by
  change bind x f s = _
  simp only [bind, h]

end

theorem tell_eq (events : List Event) (s : State) : tell events s = ⟨s, events, .ok ()⟩ := rfl

variable {s : State} {n : Nat}

/-- What a logged computation of an effect comes to when the effect takes place at once. -/
def ending (s : State) (n : Nat) (logged : Logged Effect) : Ending (List UInt8) :=
  match logged.result with
  | .ok effect => ⟨effect.apply n s, logged.events, .ok effect.bytes⟩
  | .error e => ⟨s, logged.events, .error e⟩

/-- Computing first and acting on the result is the same, whatever is computed. -/
theorem bind_read {f : State → Logged α} {k : α → Action (List UInt8)} {g : α → Logged Effect}
    (h : ∀ a, k a s = ending s n (g a)) : (read f >>= k) s = ending s n (f s >>= g) := by
  change bind (read f) k s = ending s n (Logged.bind (f s) g)
  unfold bind ending Logged.bind read
  dsimp only
  cases hresult : (f s).result with
  | error e => rfl
  | ok a =>
    simp only [h, ending]
    cases (g a).result <;> rfl

end Action

/-! ## The second look-up -/

namespace Mnemonic

variable {m : Mnemonic} {wide : Encoding}

theorem encoding?_of_select? {modes : List Mode} (h : m.select? modes = some wide) :
    m.encoding? wide.mode = some wide := by
  obtain ⟨mode, -, hmode⟩ := List.exists_of_findSome?_eq_some h
  rw [mode_of_encoding? hmode, hmode]

/-- The mode that an instruction is narrowed to is one that it has. -/
theorem encoding?_narrow (h : m.encoding? wide.mode = some wide) (value : Option Value)
    (held : Bool) :
    m.encoding? (m.narrow wide value held).mode = some (m.narrow wide value held) := by
  unfold narrow
  split
  · next short v hshort =>
    split
    · obtain ⟨mode, -, hmode⟩ := Option.bind_eq_some_iff.mp hshort
      rw [mode_of_encoding? hmode, hmode]
    · exact h
  · exact h

end Mnemonic

namespace Action

/-- Narrowing in order selects the same mode, and remembers the same lines. -/
theorem narrow_eq (s : State) (site : Site) (m : Mnemonic) (wide : Encoding)
    (value : Option Value) :
    narrow site m wide.mode value s =
      ⟨if m.staysWide wide value site.pass then
          { s with wideLines := s.wideLines.insert site.line } else s,
        [], .ok (m.narrow wide value (s.isWide site.line)).mode⟩ := by
  unfold narrow Mnemonic.narrow Mnemonic.staysWide Mnemonic.zeroPageForm?
  cases hform : wide.mode.zeroPageForm? with
  | none => rfl
  | some mode =>
    cases hshort : m.encoding? mode with
    | none => simp [Option.filter, Mnemonic.supports, hshort]
    | some short =>
      have hmode := Mnemonic.mode_of_encoding? hshort
      obtain ⟨pass, n⟩ := site
      cases value with
      | none => cases pass <;> simp [Option.filter, Mnemonic.supports, hshort]
      | some v =>
        simp [Option.filter, Mnemonic.supports, hshort]
        split <;> simp [hmode]

/-- An instruction whose mode is selected. If its operand bytes are lacking it has a value, and
then narrowing has remembered nothing. -/
theorem encode_eq {s : State} {site : Site} {m : Mnemonic} {wide : Encoding}
    {operand : Option Operand} {evaluation : Option Evaluation}
    (h : m.encoding? wide.mode = some wide) :
    encode site m wide.mode operand evaluation s = ending s site.line (do
      let value := evaluation.bind Evaluation.value
      let encoding := m.narrow wide value (s.isWide site.line)
      Logged.tell [.modeSelected site.line m encoding.mode value]
      let bytes ← Logged.ofExcept (encoding.mode.operandBytes s.pc value)
      Logged.tell (s.reportOperand site evaluation operand)
      return .emit (encoding.opcode :: bytes) (m.staysWide wide value site.pass)) := by
  generalize hvalue : evaluation.bind Evaluation.value = value
  generalize hencoding : m.narrow wide value (s.isWide site.line) = encoding
  have hlookUp : m.encoding? encoding.mode = some encoding :=
    hencoding ▸ Mnemonic.encoding?_narrow h value _
  have hnarrow := narrow_eq s site m wide value
  rw [hencoding] at hnarrow
  have hopcode (t : State) : lookUp m encoding.mode t = ⟨t, [], .ok encoding.opcode⟩ := by
    rw [lookUp, hlookUp]
    rfl
  cases hbytes : encoding.mode.operandBytes s.pc value with
  | error e =>
    -- Only a value can be out of reach, and a line with a value is not remembered as wide.
    obtain ⟨v, rfl⟩ : ∃ v, value = some v := by
      cases value with
      | some v => exact ⟨v, rfl⟩
      | none =>
        obtain ⟨bytes, hnone⟩ := State.exists_operandBytes_none encoding.mode s.pc
        rw [hnone] at hbytes
        cases hbytes
    have hwide : m.staysWide wide (some v) site.pass = false := by simp [Mnemonic.staysWide]
    have hread : read (fun s => Logged.ofExcept (encoding.mode.operandBytes s.pc (some v))) s =
        ⟨s, [], .error e⟩ := congrArg (Ending.mk s []) hbytes
    rw [hwide, if_neg Bool.false_ne_true] at hnarrow
    simp only [encode, hvalue, bind_ok hnarrow, bind_ok (tell_eq _ _), bind_ok (hopcode _),
      bind_error hread, hencoding, hbytes]
    rfl
  | ok bytes =>
    have hread (t : State) (ht : t.pc = s.pc) :
        read (fun s => Logged.ofExcept (encoding.mode.operandBytes s.pc value)) t =
          ⟨t, [], .ok bytes⟩ := by
      simp only [read, Logged.ofExcept, ht, hbytes]
    have hpc : (if m.staysWide wide value site.pass then
        { s with wideLines := s.wideLines.insert site.line } else s).pc = s.pc := by
      split <;> rfl
    simp only [encode, hvalue, bind_ok hnarrow, bind_ok (tell_eq _ _), bind_ok (hopcode _),
      bind_ok (hread _ hpc), hencoding, hbytes]
    cases m.staysWide wide value site.pass <;> rfl

theorem instruction_eq (s : State) (site : Site) (mnemonic : Text) (operand : Option Operand) :
    instruction site mnemonic operand s =
      ending s site.line (s.instruction site mnemonic operand) := by
  unfold instruction State.instruction
  cases Mnemonic.ofText? mnemonic with
  | none => rfl
  | some m =>
    dsimp only
    cases hselect : m.select? (Operand.modes operand) with
    | none => rfl
    | some wide =>
      refine bind_read fun evaluation => ?_
      exact encode_eq (Mnemonic.encoding?_of_select? hselect)

theorem directive_eq (s : State) (site : Site) (label : Option Text) (d : Directive)
    (operand : Option Text) :
    directive site label d operand s = ending s site.line (s.directive site label d operand) := by
  cases d with
  | data kind =>
    simp only [directive, State.directive, State.dataEffect]
    cases operand.bind Literal.bytes? <;> rfl
  | equ =>
    cases label with
    | none => rfl
    | some name =>
      refine bind_read fun value => ?_
      cases value <;> rfl
  | org =>
    refine bind_read fun value => ?_
    cases value <;> rfl
  | da =>
    cases operand with
    | none => rfl
    | some text => exact bind_read fun bytes => rfl
  | ds =>
    refine bind_read fun value => ?_
    cases value with
    | none => rfl
    | some n =>
      dsimp only
      split <;> rfl
  | chk => rfl
  | skipped kind => exact congrArg (Ending.mk s · (.ok [])) (List.append_nil _)

/-- Performing a line comes to what its step tries, once its label is bound. -/
theorem line_eq (s : State) (site : Site) (line : Line) :
    Action.line site line s =
      (ending (s.labelled site line) site.line ((s.labelled site line).effect site line)).after
        (s.lineLabelEvents site line) := by
  have hlabel : bindLabel site line s =
      ⟨s.labelled site line, s.lineLabelEvents site line, .ok ()⟩ := rfl
  rw [Action.line, bind_ok hlabel, State.effect]
  congr 1
  cases line.body with
  | error e => rfl
  | ok statement =>
    cases statement with
    | blank => rfl
    | instruction mnemonic operand => exact instruction_eq _ site mnemonic operand
    | directive d operand => exact directive_eq _ site line.label d operand

/-- So it ends in a fault if its step fails, with the same fault. -/
theorem result_line (s : State) (site : Site) (line : Line) :
    (Action.line site line s).result = Effect.bytes <$> s.attempt site line := by
  rw [line_eq, State.attempt, ← State.result_effect, Ending.after, ending]
  cases ((s.labelled site line).effect site line).result <;> rfl

end Action

/-! ## Lines that fail -/

namespace State

variable {s : State} {site : Site} {source : Text} {e : Fault}

/-- Perform a source line. A fault is reported where the line ended. -/
def perform (s : State) (site : Site) (source : Text) : Outcome :=
  let ending := Action.line site (Line.parse source) s
  match ending.result with
  | .ok bytes => ⟨ending.state, bytes, ending.events⟩
  | .error e => ⟨ending.state, [], ending.events ++ site.report e⟩

theorem perform_eq_step (s : State) (site : Site) (source : Text) :
    s.perform site source = s.step site source := by
  simp only [perform, step, assemble, Action.line_eq, Action.ending]
  cases ((s.labelled site (Line.parse source)).effect site (Line.parse source)).result <;> rfl

/-- What is left of a line that ended in a fault. -/
structure Atomic (s : State) (site : Site) (line : Line) (e : Fault) (outcome : Outcome) :
    Prop where
  bytes : outcome.bytes = []
  pc : outcome.state.pc = s.pc
  origin : outcome.state.origin = s.origin
  wideLines : outcome.state.wideLines = s.wideLines
  /-- The label is bound to the program counter, if the line has one and is no `EQU`. -/
  symbols : outcome.state.symbols =
    match line.addressLabel? with
    | some name => s.symbols.insert name s.pc.toValue
    | none => s.symbols
  /-- The first pass also recalls where the label was. -/
  labelAddresses : outcome.state.labelAddresses =
    match site.pass, line.addressLabel? with
    | .first, some _ => (site.line, s.pc) :: s.labelAddresses
    | _, _ => s.labelAddresses
  first : site.pass = .first → Event.diagnostics outcome.events = []
  /-- The label comes first, then what lacks a value, and the fault last. -/
  second : site.pass = .second → ∃ moved unresolved,
    Event.diagnostics outcome.events = moved ++ unresolved ++ [⟨site.line, e⟩] ∧
      moved.length ≤ 1 ∧ (∀ d ∈ moved, d.line = site.line ∧ d.fault.kind = .labelMoved) ∧
      ∀ d ∈ unresolved, d.line = site.line ∧ d.fault.kind = .unresolved

theorem length_labelDiagnostics_le (s : State) (site : Site) (line : Line) :
    (Event.diagnostics (s.lineLabelEvents site line)).length ≤ 1 := by
  rcases s.lineLabelEvents_cases site line with h | ⟨name, first, second, h⟩
  · rw [h]
    exact Nat.zero_le 1
  · rw [h, Site.report]
    split
    · exact Nat.le_refl 1
    · exact Nat.zero_le 1

/-- The first pass reports nothing. -/
theorem diagnostics_step_first (s : State) (n : Nat) (source : Text) :
    Event.diagnostics (s.step ⟨.first, n⟩ source).events = [] := by
  have hlabel : Event.diagnostics (s.lineLabelEvents ⟨.first, n⟩ (Line.parse source)) = [] := by
    rcases s.lineLabelEvents_cases ⟨.first, n⟩ (Line.parse source) with h | ⟨_, _, _, h⟩
    · rw [h]
      rfl
    · rw [h]
      rfl
  have harguments : (s.labelled ⟨.first, n⟩ (Line.parse source)).argumentDiagnostics ⟨.first, n⟩
      (Line.parse source).arguments = [] := by
    refine List.flatMap_eq_nil_iff.mpr fun a _ => ?_
    unfold reportArgument reportUnresolved
    split <;> rfl
  rw [step, diagnostics_assemble, hlabel, harguments]
  cases s.attempt ⟨.first, n⟩ (Line.parse source) <;> rfl

/-- The second pass ends a line that fails with its fault. -/
theorem diagnostics_step_second {n : Nat}
    (h : s.attempt ⟨.second, n⟩ (Line.parse source) = .error e) :
    ∃ moved unresolved,
      Event.diagnostics (s.step ⟨.second, n⟩ source).events =
          moved ++ unresolved ++ [⟨n, e⟩] ∧
        moved.length ≤ 1 ∧ (∀ d ∈ moved, d.line = n ∧ d.fault.kind = .labelMoved) ∧
        ∀ d ∈ unresolved, d.line = n ∧ d.fault.kind = .unresolved := by
  refine ⟨Event.diagnostics (s.lineLabelEvents ⟨.second, n⟩ (Line.parse source)),
    (s.labelled ⟨.second, n⟩ (Line.parse source)).argumentDiagnostics ⟨.second, n⟩
      (Line.parse source).arguments, ?_, s.length_labelDiagnostics_le _ _, ?_, ?_⟩
  · rw [step, diagnostics_assemble, h]
    rfl
  · exact fun d hd => ⟨line_of_labelDiagnostic hd, kind_of_labelDiagnostic hd⟩
  · intro d hd
    obtain ⟨a, -, -, rfl⟩ := mem_argumentDiagnostics.mp hd
    exact ⟨rfl, kind_unresolved _ a.expr a.core⟩

theorem atomic_step (h : s.attempt site (Line.parse source) = .error e) :
    s.Atomic site (Line.parse source) e (s.step site source) := by
  have haction := action_of_attempt_error h
  refine ⟨?_, ?_, ?_, ?_, ?_, s.labelAddresses_assemble site _, ?_, ?_⟩
  · rw [bytes_step, haction]
    rfl
  · rw [pc_step, haction]
    rfl
  · rw [origin_step, haction]
    rfl
  · rw [step, wideLines_assemble, haction]
    rfl
  · rw [step, state_assemble, haction]
    exact s.symbols_labelled site _
  · obtain ⟨pass, n⟩ := site
    rintro ⟨⟩
    exact s.diagnostics_step_first n source
  · obtain ⟨pass, n⟩ := site
    rintro ⟨⟩
    exact diagnostics_step_second h

end State

/-- A line that ends in a fault, performed in order in any state and either pass, has bound its
label and reported, and changed nothing else; and no line ends because the mode that it was
narrowed to has no opcode. -/
theorem State.atomic_of_fault (s : State) (site : Site) (source : Text) :
    s.perform site source = s.step site source ∧
    (∀ e, (Action.line site (Line.parse source) s).result = .error e →
      s.Atomic site (Line.parse source) e (s.perform site source)) ∧
    ∀ m operand wide value mode, Mnemonic.select? m (Operand.modes operand) = some wide →
      (Action.narrow site m wide.mode value s).result = .ok mode →
        (m.encoding? mode).isSome := by
  have hstep := s.perform_eq_step site source
  refine ⟨hstep, fun e h => ?_, fun m operand wide value mode hselect hmode => ?_⟩
  · rw [Action.result_line] at h
    rw [hstep]
    exact atomic_step (eq_error_of_map_error h)
  · rw [Action.narrow_eq] at hmode
    cases hmode
    rw [Mnemonic.encoding?_narrow (Mnemonic.encoding?_of_select? hselect)]
    rfl

/-- A list of words that fails at its third one, after a label that moved and two words without a
value; and an instruction that is narrowed. -/
theorem State.malformedWord_atomic :
    let s : State := { State.initial defaultOrigin with labelAddresses := [(4, 0x7FFE)] }
    let site : Site := ⟨.second, 4⟩
    let source : Text := "L DA X,Y,1+".toList
    let e : Fault := .parse "Missing operand after operator: 1+"
    let operand : Option Operand := some ⟨['X'], .direct⟩
    (Action.line site (Line.parse source) s).result = .error e ∧
      s.Atomic site (Line.parse source) e (s.perform site source) ∧
      Mnemonic.lda.select? (Operand.modes operand) = some ⟨.absolute, 0xAD⟩ ∧
      (Action.narrow site .lda .absolute (some 0x10) s).result = .ok .zeroPage ∧
      (Mnemonic.lda.encoding? .zeroPage).isSome := by
  intro s site source e operand
  have hfault : (Action.line site (Line.parse source) s).result = .error e := by
    decide +kernel
  have hselect : Mnemonic.lda.select? (Operand.modes operand) = some ⟨.absolute, 0xAD⟩ := by
    decide +kernel
  have hmode : (Action.narrow site .lda .absolute (some 0x10) s).result = .ok .zeroPage := by
    decide +kernel
  obtain ⟨-, hatomic, hlookUp⟩ := s.atomic_of_fault site source
  exact ⟨hfault, hatomic e hfault, hselect, hmode, hlookUp .lda operand _ _ _ hselect hmode⟩

end Asm65
