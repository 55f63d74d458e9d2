import CipherFlow.Proofs.Fault
import CipherFlow.Session.Payload
import CipherFlow.Session.Transport

/-!
# Steps that return

A step returns if it ends with a value or with an error of its own kind, and
not with a fault. Errors pass from one kind to the next, so each kind says
which of its errors come from a fault. Steps of all kinds are treated alike:
those that only compute, those that take bytes off a list, and those that use
a connection.
-/

namespace CipherFlow

/-! ## Errors

An error comes from a fault if it is one, or if it has been made of an error that
does. -/

/-- Errors of which one can tell whether they come from a fault. -/
class Faulty (ε : Type) where
  isFault : ε → Bool

instance : Faulty Prime.Error where
  isFault
    | .fault _ => true
    | _ => false

instance : Faulty Ring.Error where
  isFault
    | .primeGeneration e => Faulty.isFault e
    | .fault _ => true
    | _ => false

instance : Faulty Slots.Error where
  isFault
    | .fault _ => true
    | _ => false

instance : Faulty Key.Error where
  isFault
    | .ring e => Faulty.isFault e
    | _ => false

instance : Faulty Scheme.Error where
  isFault
    | .encoding e => Faulty.isFault e
    | .ring e => Faulty.isFault e
    | .key e => Faulty.isFault e
    | .prime e => Faulty.isFault e
    | .fault _ => true
    | _ => false

instance : Faulty Wire.Error where
  isFault
    | .ring e => Faulty.isFault e
    | .key e => Faulty.isFault e
    | .scheme e => Faulty.isFault e
    | _ => false

instance : Faulty Element.Error where
  isFault
    | .scheme e => Faulty.isFault e
    | .fault _ => true
    | _ => false

instance : Faulty Graph.Error where
  isFault
    | .fault _ => true
    | _ => false

instance : Faulty Normalize.Error where
  isFault
    | .graph e => Faulty.isFault e
    | _ => false

instance : Faulty Run.Problem where
  isFault
    | .graph e => Faulty.isFault e
    | .normalize e => Faulty.isFault e
    | .element e => Faulty.isFault e
    | .scheme e => Faulty.isFault e
    | .fault _ => true
    | _ => false

instance : Faulty Session.Error where
  isFault
    | .wire e => Faulty.isFault e
    | .element e => Faulty.isFault e
    | .scheme e => Faulty.isFault e
    | .run e => Faulty.isFault e
    | _ => false

/-- A kind of errors takes over those of another kind as they are. -/
class TakesOver {ε ε' : Type} [Faulty ε] [Faulty ε'] (f : ε → ε') : Prop where
  isFault_eq : ∀ e, Faulty.isFault (f e) = Faulty.isFault e

instance : TakesOver Key.Error.ring := ⟨fun _ => rfl⟩
instance : TakesOver Scheme.Error.encoding := ⟨fun _ => rfl⟩
instance : TakesOver Scheme.Error.ring := ⟨fun _ => rfl⟩
instance : TakesOver Scheme.Error.key := ⟨fun _ => rfl⟩
instance : TakesOver Scheme.Error.prime := ⟨fun _ => rfl⟩
instance : TakesOver Wire.Error.ring := ⟨fun _ => rfl⟩
instance : TakesOver Wire.Error.key := ⟨fun _ => rfl⟩
instance : TakesOver Wire.Error.scheme := ⟨fun _ => rfl⟩
instance : TakesOver Element.Error.scheme := ⟨fun _ => rfl⟩
instance : TakesOver Run.Problem.element := ⟨fun _ => rfl⟩
instance : TakesOver Run.Problem.scheme := ⟨fun _ => rfl⟩
instance : TakesOver Session.Error.wire := ⟨fun _ => rfl⟩
instance : TakesOver Session.Error.element := ⟨fun _ => rfl⟩
instance : TakesOver Session.Error.scheme := ⟨fun _ => rfl⟩
instance : TakesOver Session.Error.run := ⟨fun _ => rfl⟩

/-! ## Steps

`Returns` says what holds of a value that a step ends with, and that it does not end
with a fault. There is one rule for each way to build steps: for sequences,
branches, loops, and errors that are taken over. Proofs with these rules follow the
text of a program. -/

variable {m : Type → Type} [Monad m] {α β γ ε ε' σ : Type} [Faulty ε] [Faulty ε']

/-- Steps of which one can say that they return. -/
class Returning (m : Type → Type) [Monad m] where
  /-- From every state, the step ends with a value that has a property, or
  with an error that comes from no fault. -/
  Returns : {α : Type} → m α → (α → Prop) → Prop
  returns_pure {α : Type} {P : α → Prop} {a : α} : P a → Returns (pure a : m α) P
  returns_bind {α β : Type} {P : α → Prop} {Q : β → Prop} {x : m α} {f : α → m β} :
    Returns x P → (∀ a, P a → Returns (f a) Q) → Returns (x >>= f) Q

open Returning

instance : Returning (Except ε) where
  Returns x P := match x with
    | .ok a => P a
    | .error e => Faulty.isFault e = false
  returns_pure h := h
  returns_bind := by
    intro _ _ P Q x f hx hf
    cases x with
    | error e => exact hx
    | ok a => exact hf a hx

instance : Returning (StateT σ (Except ε)) where
  Returns x P := ∀ s, Returns (x.run s) fun r => P r.1
  returns_pure h _ := h
  returns_bind hx hf s := returns_bind (hx s) fun r hr => hf r.1 hr r.2

instance : Returning (ExceptT ε (StateM σ)) where
  Returns x P := ∀ s, Returns (x.run.run s).1 P
  returns_pure h _ := h
  returns_bind := by
    intro _ _ P Q x f hx hf s
    have first := hx s
    rw [ExceptT.run_bind, StateT.run_bind]
    match h : x.run.run s with
    | (.error e, s') =>
      rw [h] at first
      exact first
    | (.ok a, s') =>
      rw [h] at first
      exact hf a first s'

section Rules

variable {P Q : α → Prop} {x : Except ε α}

/-- What is known of a value that a step ended with. -/
theorem ok_of_returns (h : Returns x P) {a : α} (eq : x = .ok a) : P a := by
  subst eq
  exact h

theorem error_of_returns (h : Returns x P) {e : ε} (eq : x = .error e) :
    Faulty.isFault e = false := by
  subst eq
  exact h

/-- In a weaker property it may be used how the value has come about. -/
theorem returns_mono (h : Returns x P) (weaken : ∀ a, x = .ok a → P a → Q a) : Returns x Q := by
  cases x with
  | error e => exact h
  | ok a => exact weaken a rfl h

theorem returns_of_ok {a : α} (eq : x = .ok a) (h : P a) : Returns x P := by
  subst eq
  exact h

theorem returns_ite [Returning m] {c : Prop} [Decidable c] {x y : m α}
    (yes : c → Returns x P) (no : ¬c → Returns y P) : Returns (if c then x else y) P := by
  split
  · exact yes ‹c›
  · exact no ‹¬c›

theorem returns_mapError {f : ε → ε'} [TakesOver f] (h : Returns x P) :
    Returns (x.mapError f) P := by
  cases x with
  | error e => exact (TakesOver.isFault_eq (f := f) e).trans h
  | ok a => exact h

theorem returns_mapM [LawfulMonad m] [Returning m] {f : α → m β} {Q : β → Prop} {xs : List α}
    (each : ∀ a ∈ xs, Returns (f a) Q) : Returns (xs.mapM f) fun ys => ∀ y ∈ ys, Q y := by
  induction xs with
  | nil =>
    rw [List.mapM_nil]
    exact returns_pure fun y hy => nomatch hy
  | cons a xs ih =>
    obtain ⟨first, others⟩ := List.forall_mem_cons.mp each
    rw [List.mapM_cons]
    exact returns_bind first fun y hy => returns_bind (ih others) fun ys hys =>
      returns_pure (List.forall_mem_cons.mpr ⟨hy, hys⟩)

/-- A step that computes, among steps with a state. -/
theorem returns_lift (h : Returns x P) : Returns (StateT.lift x : StateT σ (Except ε) α) P := by
  intro s
  cases x with
  | error e => exact h
  | ok a => exact h

/-- A step with a state, given what it can end with from each of them. -/
theorem returns_weaken {r : StateT σ (Except ε) α} (h : Returns r P)
    (weaken : ∀ {s a s'}, r.run s = .ok (a, s') → Q a) : Returns r Q :=
  fun s => returns_mono (h s) fun _ eq _ => weaken eq

end Rules

end CipherFlow
