-- SUMMARY: Runs over many lines: invariants of one run, relations between two, and what the second pass recalls.
import Asm65.Assembly
import Asm65.Proofs.Step

/-!
# Runs

What each step keeps, a run keeps. Two passes over the same lines are compared by a relation
between their states that may also speak of the lines still to come: so it can say what the
second pass recalls of the first, which is known only at the end of the first.
-/
namespace Asm65

/-! ## Runs of lines -/

namespace State

/-- A line as it is assembled in this state. -/
def entry (s : State) (site : Site) (source : Text) : Entry :=
  ⟨site.line, source, s, (s.step site source).bytes, (s.step site source).events⟩

@[simp] theorem run_nil (s : State) (pass : Pass) (n : Nat) : s.run pass n [] = ⟨[], s⟩ := rfl

theorem run_cons (s : State) (pass : Pass) (n : Nat) (source : Text) (rest : List Text) :
    s.run pass n (source :: rest) =
      let others := (s.step ⟨pass, n⟩ source).state.run pass (n + 1) rest
      ⟨s.entry ⟨pass, n⟩ source :: others.entries, others.final⟩ :=
  rfl

theorem final_cons (s : State) (pass : Pass) (n : Nat) (source : Text) (rest : List Text) :
    (s.run pass n (source :: rest)).final =
      ((s.step ⟨pass, n⟩ source).state.run pass (n + 1) rest).final :=
  rfl

theorem events_cons (s : State) (pass : Pass) (n : Nat) (source : Text) (rest : List Text) :
    (s.run pass n (source :: rest)).events =
      (s.step ⟨pass, n⟩ source).events ++
        ((s.step ⟨pass, n⟩ source).state.run pass (n + 1) rest).events := by
  rw [run_cons, Run.events, List.flatMap_cons]
  rfl

theorem bytes_cons (s : State) (pass : Pass) (n : Nat) (source : Text) (rest : List Text) :
    (s.run pass n (source :: rest)).bytes =
      (s.step ⟨pass, n⟩ source).bytes ++
        ((s.step ⟨pass, n⟩ source).state.run pass (n + 1) rest).bytes := by
  rw [run_cons, Run.bytes, List.flatMap_cons]
  rfl

/-- A run over lines in two parts goes on from where the first part ended. -/
theorem run_append (s : State) (pass : Pass) (n : Nat) (lines more : List Text) :
    s.run pass n (lines ++ more) =
      let others := (s.run pass n lines).final.run pass (n + lines.length) more
      ⟨(s.run pass n lines).entries ++ others.entries, others.final⟩ := by
  induction lines generalizing s n with
  | nil => rfl
  | cons source rest ih =>
    have hnumber : n + (source :: rest).length = n + 1 + rest.length := by
      rw [List.length_cons, Nat.add_comm rest.length 1, Nat.add_assoc]
    simp only [List.cons_append, run_cons, ih, hnumber]

/-- There is one entry for each line, in order, with its number and text. -/
theorem entries_run (s : State) (pass : Pass) (n : Nat) (lines : List Text) :
    (s.run pass n lines).entries.map (fun e => (e.number, e.source)) =
      lines.mapIdx fun i source => (n + i, source) := by
  induction lines generalizing s n with
  | nil => rfl
  | cons source rest ih =>
    rw [run_cons, List.map_cons, ih, List.mapIdx_cons]
    simp only [entry, Nat.add_zero, Nat.add_right_comm, Nat.add_assoc]

theorem sources_run (s : State) (pass : Pass) (n : Nat) (lines : List Text) :
    (s.run pass n lines).entries.map Entry.source = lines := by
  induction lines generalizing s n with
  | nil => rfl
  | cons source rest ih =>
    rw [run_cons, List.map_cons, ih]
    rfl

theorem length_entries_run (s : State) (pass : Pass) (n : Nat) (lines : List Text) :
    (s.run pass n lines).entries.length = lines.length := by
  simpa using congrArg List.length (s.entries_run pass n lines)

/-- What every step keeps holds at the end. -/
theorem run_invariant {P : State → Prop} {pass : Pass}
    (step : ∀ s n source, P s → P (s.step ⟨pass, n⟩ source).state) {lines : List Text}
    {s : State} {n : Nat} (h : P s) : P (s.run pass n lines).final := by
  induction lines generalizing s n with
  | nil => exact h
  | cons source rest ih => exact ih (step s n source h)

/-- Two runs over the same lines: a relation that speaks of the lines to come and that every
pair of steps keeps relates their entries one by one, and their ends. -/
theorem run_forall₂ {I : Nat → List Text → State → State → Prop} {R : Entry → Entry → Prop}
    {p q : Pass}
    (step : ∀ n source rest s t, I n (source :: rest) s t →
      R (s.entry ⟨p, n⟩ source) (t.entry ⟨q, n⟩ source) ∧
        I (n + 1) rest (s.step ⟨p, n⟩ source).state (t.step ⟨q, n⟩ source).state)
    {lines : List Text} {s t : State} {n : Nat} (h : I n lines s t) :
    List.Forall₂ R (s.run p n lines).entries (t.run q n lines).entries ∧
      I (n + lines.length) [] (s.run p n lines).final (t.run q n lines).final := by
  induction lines generalizing s t n with
  | nil => exact ⟨.nil, h⟩
  | cons source rest ih =>
    obtain ⟨hentry, hnext⟩ := step n source rest s t h
    obtain ⟨hrest, hfinal⟩ := ih hnext
    refine ⟨.cons hentry hrest, ?_⟩
    rw [List.length_cons, Nat.add_comm rest.length 1, ← Nat.add_assoc]
    exact hfinal

end State

/-! ## Kinds of faults that are not reported -/

namespace Event

/-- No diagnostic of this kind is among the events. -/
def FreeOf (kind : FaultKind) (events : List Event) : Prop :=
  ∀ d ∈ diagnostics events, d.fault.kind ≠ kind

theorem freeOf_append {kind : FaultKind} {before after : List Event} :
    FreeOf kind (before ++ after) ↔ FreeOf kind before ∧ FreeOf kind after := by
  unfold FreeOf
  simp only [diagnostics_append, List.mem_append, or_imp, forall_and]

end Event

theorem State.freeOf_cons {kind : FaultKind} {s : State} {pass : Pass} {n : Nat} {source : Text}
    {rest : List Text} :
    Event.FreeOf kind (s.run pass n (source :: rest)).events ↔
      Event.FreeOf kind (s.step ⟨pass, n⟩ source).events ∧
        Event.FreeOf kind ((s.step ⟨pass, n⟩ source).state.run pass (n + 1) rest).events := by
  rw [State.events_cons, Event.freeOf_append]

/-! ## Memories -/

namespace State

theorem isWide_step (s : State) (site : Site) (source : Text) (k : Nat) :
    (s.step site source).state.isWide k =
      (s.isWide k || (k == site.line && (s.action site (Line.parse source)).holds)) := by
  unfold isWide step
  rw [wideLines_assemble]
  cases hholds : (s.action site (Line.parse source)).holds with
  | true =>
    rw [if_pos rfl, Bool.eq_iff_iff]
    simp [List.mem_insert_iff, or_comm]
  | false => simp

/-- Only the first pass holds lines wide. -/
theorem holds_action_second (s : State) (n : Nat) (line : Line) :
    (s.action ⟨.second, n⟩ line).holds = false := by
  rw [holds_action]
  cases line.reading with
  | error e => rfl
  | ok r =>
    cases r with
    | instruction m wide argument => simp [Reading.staysWide, Mnemonic.staysWide]
    | _ => rfl

/-- The second pass leaves both memories alone. -/
theorem memories_step_second (s : State) (n : Nat) (source : Text) :
    (s.step ⟨.second, n⟩ source).state.wideLines = s.wideLines ∧
      (s.step ⟨.second, n⟩ source).state.labelAddresses = s.labelAddresses := by
  unfold step
  rw [wideLines_assemble, labelAddresses_assemble, holds_action_second]
  exact ⟨rfl, rfl⟩

/-- Later lines do not change what is recalled about earlier ones. -/
theorem isWide_run_of_lt {s : State} {pass : Pass} {n k : Nat} (h : k < n)
    (lines : List Text) : (s.run pass n lines).final.isWide k = s.isWide k := by
  induction lines generalizing s n with
  | nil => rfl
  | cons source rest ih =>
    have hne : (k == n) = false := by simpa using Nat.ne_of_lt h
    rw [final_cons, ih (Nat.lt_succ_of_lt h), isWide_step, hne, Bool.false_and, Bool.or_false]

theorem lookup_run_of_lt {s : State} {pass : Pass} {n k : Nat} (h : k < n)
    (lines : List Text) :
    (s.run pass n lines).final.labelAddresses.lookup k = s.labelAddresses.lookup k := by
  induction lines generalizing s n with
  | nil => rfl
  | cons source rest ih =>
    have hne : (k == n) = false := by simpa using Nat.ne_of_lt h
    rw [final_cons, ih (Nat.lt_succ_of_lt h), step, labelAddresses_assemble]
    split
    · rw [List.lookup_cons, hne]
    · rfl

/-- The second pass in state `t`, with lines from number `n` on to come, recalls the first
pass from state `s` over the same lines. -/
structure Recalls (s t : State) (n : Nat) (lines : List Text) : Prop where
  addresses : t.labelAddresses = (s.run .first n lines).final.labelAddresses
  wide : t.wideLines = (s.run .first n lines).final.wideLines
  /-- The first pass has not held any of these lines yet. -/
  fresh : ∀ k, n ≤ k → s.isWide k = false

namespace Recalls

variable {s t : State} {n : Nat} {source : Text} {rest : List Text}

theorem start (origin : Address) (lines : List Text) :
    Recalls ((State.initial origin).beginPass origin)
      (((State.initial origin).runPass .first origin lines).final.beginPass origin) 1 lines where
  addresses := rfl
  wide := rfl
  fresh _ _ := rfl

theorem step (h : Recalls s t n (source :: rest)) :
    Recalls (s.step ⟨.first, n⟩ source).state (t.step ⟨.second, n⟩ source).state (n + 1)
      rest := by
  obtain ⟨hwide, haddresses⟩ := memories_step_second t n source
  refine ⟨haddresses.trans h.addresses, hwide.trans h.wide, ?_⟩
  intro k hk
  have hne : (k == n) = false := by simpa using (Nat.ne_of_lt hk).symm
  rw [isWide_step, hne, Bool.false_and, Bool.or_false]
  exact h.fresh k (Nat.le_of_succ_le hk)

/-- A line is held in the second pass if the first pass made it so. -/
theorem held (h : Recalls s t n (source :: rest)) :
    t.isWide n = (s.action ⟨.first, n⟩ (Line.parse source)).holds := by
  have hwide : t.isWide n = (s.run .first n (source :: rest)).final.isWide n := by
    unfold isWide
    rw [h.wide]
  rw [hwide, final_cons, isWide_run_of_lt (Nat.lt_succ_self n), isWide_step,
    h.fresh n (Nat.le_refl n), beq_self_eq_true, Bool.true_and, Bool.false_or]

/-- The address of a label in the first pass is known in the second. -/
theorem address (h : Recalls s t n (source :: rest)) {name : Text}
    (label : (Line.parse source).addressLabel? = some name) :
    t.labelAddresses.lookup n = some s.pc := by
  rw [h.addresses, final_cons, lookup_run_of_lt (Nat.lt_succ_self n), State.step,
    labelAddresses_assemble, label]
  exact List.lookup_cons_self

end Recalls

end State

end Asm65
