import BoundaryHeap.Event

/-!
# Computations that are observed and may fault

A `Traced α` is what happened and how it ended. The events are kept beside the result, not inside
it, so a computation that faults still has the events that came before.

**Observation changes nothing:** `result` turns a traced computation into a plain one step by step
(`result_bind`, `result_emit`), so what is proved of results holds whatever is logged.
-/

set_option autoImplicit false

namespace BoundaryHeap

/-- The events of a computation, in order, and its result. -/
structure Traced (α : Type) where
  events : List Event
  result : Except Fault α

namespace Traced

variable {α β : Type}

/-- Do `first`, then what `next` makes of its value, if there is one. -/
protected def bind (first : Traced α) (next : α → Traced β) : Traced β :=
  match first with
  | ⟨events, .ok a⟩ =>
    match next a with
    | ⟨events', result⟩ => ⟨events ++ events', result⟩
  | ⟨events, .error f⟩ => ⟨events, .error f⟩

/-- The same computation with something else made of its value. -/
protected def map (f : α → β) (x : Traced α) : Traced β :=
  ⟨x.events, x.result.map f⟩

instance : Monad Traced where
  pure a := ⟨[], .ok a⟩
  bind := Traced.bind
  map := Traced.map

/-- A computation that nobody observes. -/
def quiet (r : Except Fault α) : Traced α :=
  ⟨[], r⟩

instance : MonadLift (Except Fault) Traced where
  monadLift := quiet

def emit (e : Event) : Traced Unit :=
  ⟨[e], .ok ()⟩

/-- Tell the observers some events, in order. -/
def emitAll (es : List Event) : Traced Unit :=
  ⟨es, .ok ()⟩

def fault (f : Fault) : Traced α :=
  ⟨[], .error f⟩

/-! ## What `result` makes of each -/

@[simp] theorem result_pure (a : α) : (pure a : Traced α).result = .ok a := rfl

@[simp] theorem result_bind (x : Traced α) (f : α → Traced β) :
    (x >>= f).result = x.result >>= fun a => (f a).result := by
  rcases x with ⟨_, _ | _⟩ <;> rfl

@[simp] theorem result_map (f : α → β) (x : Traced α) : (x.map f).result = x.result.map f := rfl

@[simp] theorem result_lift (r : Except Fault α) :
    (liftM r : Traced α).result = r := rfl

@[simp] theorem result_emit (e : Event) : (emit e).result = .ok () := rfl

@[simp] theorem result_emitAll (es : List Event) : (emitAll es).result = .ok () := rfl

@[simp] theorem result_fault (f : Fault) : (fault f : Traced α).result = .error f := rfl

instance : LawfulMonad Traced :=
  LawfulMonad.mk' Traced
    (fun ⟨_, r⟩ => by cases r <;> rfl)
    (fun _ _ => by simp [bind, Traced.bind, pure])
    (fun ⟨_, r⟩ f g => by
      cases r with
      | error _ => rfl
      | ok a =>
        simp only [bind, Traced.bind]
        rcases f a with ⟨_, _ | _⟩ <;> simp [List.append_assoc])
    (fun _ _ => rfl) (fun _ _ => rfl) (fun _ _ => rfl)
    (fun f ⟨_, r⟩ => by
      show Traced.bind _ _ = Traced.map f _
      cases r <;> simp [Traced.bind, pure, Traced.map, Except.map])

end Traced

end BoundaryHeap
