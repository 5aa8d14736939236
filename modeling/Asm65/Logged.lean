-- SUMMARY: Computations that log events and may end in a fault.
import Asm65.Event

/-!
# Logged computations

What a line does is computed together with the events on the way. A fault ends the
computation; what was logged before it stays.
-/
namespace Asm65

structure Logged (α : Type) where
  events : List Event
  result : Except Fault α

namespace Logged

variable {α β : Type}

def pure (a : α) : Logged α := ⟨[], .ok a⟩

def bind (x : Logged α) (f : α → Logged β) : Logged β :=
  match x.result with
  | .ok a =>
    let y := f a
    ⟨x.events ++ y.events, y.result⟩
  | .error e => ⟨x.events, .error e⟩

instance : Monad Logged where
  pure := pure
  bind := bind

@[simp] theorem pure_eq (a : α) : (Pure.pure a : Logged α) = ⟨[], .ok a⟩ := rfl

@[simp] theorem bind_ok (events : List Event) (a : α) (f : α → Logged β) :
    (Logged.mk events (.ok a) >>= f) = ⟨events ++ (f a).events, (f a).result⟩ := rfl

@[simp] theorem bind_error (events : List Event) (e : Fault) (f : α → Logged β) :
    (Logged.mk events (.error e) >>= f) = ⟨events, .error e⟩ := rfl

instance : LawfulMonad Logged := LawfulMonad.mk' Logged
  (by
    intro α x
    obtain ⟨events, result⟩ := x
    cases result with
    | ok a => exact congrArg (Logged.mk · (.ok a)) (List.append_nil events)
    | error e => rfl)
  (by
    intro α β a f
    rfl)
  (by
    intro α β γ x f g
    obtain ⟨events, result⟩ := x
    cases result with
    | error e => rfl
    | ok a =>
      simp only [bind_ok]
      obtain ⟨more, outcome⟩ := f a
      cases outcome with
      | error e => rfl
      | ok b => simp only [bind_ok, List.append_assoc])

/-- Log events. -/
def tell (events : List Event) : Logged Unit := ⟨events, .ok ()⟩

/-- End in a fault. -/
def fail (e : Fault) : Logged α := ⟨[], .error e⟩

def ofExcept (result : Except Fault α) : Logged α := ⟨[], result⟩

end Logged

end Asm65
