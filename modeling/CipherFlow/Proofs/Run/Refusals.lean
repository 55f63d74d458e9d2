import CipherFlow.Proofs.Run.Answers

/-!
# Computations that are refused

A computation is refused if it ends with one error from every state and leaves
the state as it was. On plain data there is a single error that cannot be told
from the types of the operands: that of a tensor that does not fit into
memory. So computations are said to *settle*: if there is room they answer,
from every state, and otherwise they are refused.
-/

namespace CipherFlow

open Answering

variable {m : Type → Type} [Monad m] {α β γ ε ε' σ : Type}

/-- Computations of which one can say what error they end with. -/
class Refusing (m : Type → Type) [Monad m] [Answering m] (ε : outParam Type) where
  /-- The error from every state, which stays as it was. -/
  Fails : {α : Type} → m α → ε → Prop
  fails_bind {α β : Type} {x : m α} {e : ε} (f : α → m β) : Fails x e → Fails (x >>= f) e
  fails_bind_of_must {α β : Type} {x : m α} {f : α → m β} {a : α} {e : ε} :
    Must x a → Fails (f a) e → Fails (x >>= f) e

open Refusing

instance : Refusing (Except ε) ε where
  Fails x e := x = .error e
  fails_bind := by
    rintro _ _ _ e f rfl
    rfl
  fails_bind_of_must := by
    rintro _ _ _ f a e rfl h
    exact h

instance : Refusing (StateT Coins (Except ε)) ε where
  Fails x e := ∀ c, x.run c = .error e
  fails_bind := by
    intro _ _ x e f h c
    rw [StateT.run_bind, h c]
    rfl
  fails_bind_of_must := by
    intro _ _ x f a e hx hf c
    rw [StateT.run_bind, hx c]
    exact hf c

instance : Refusing (Run.Eval σ ε) (Run.Failure ε) where
  Fails x e := ∀ s, x.run.run s = (.error e, s)
  fails_bind := by
    intro _ _ x e f h s
    exact run_bind_error (h s)
  fails_bind_of_must := by
    intro _ _ x f a e hx hf s
    rw [run_bind_ok (hx s), hf s]

/-! ## Errors of inner computations -/

theorem fails_lift {x : Except ε α} {e : ε} (h : x = .error e) :
    Fails (StateT.lift x : StateT Coins (Except ε) α) e := by
  subst h
  exact fun _ => rfl

theorem must_lift {x : Except ε α} {a : α} (h : x = .ok a) :
    Must (StateT.lift x : StateT Coins (Except ε) α) a := by
  subst h
  exact fun _ => rfl

theorem fails_withError {x : StateT Coins (Except ε) α} {e : ε} (h : Fails x e) (f : ε → ε') :
    Fails (withError f x) (f e) :=
  fun c => congrArg (Except.mapError f) (h c)

theorem must_withError {x : StateT Coins (Except ε) α} {a : α} (h : Must x a) (f : ε → ε') :
    Must (withError f x) a :=
  fun c => congrArg (Except.mapError f) (h c)

theorem fails_require {x : Except Run.Problem α} {p : Run.Problem} (h : x = .error p) :
    Fails (Run.require x : Run.Eval σ ε α) (.problem p) := by
  subst h
  exact fun _ => rfl

theorem fails_sample {x : Run.Sampling α} {p : Run.Problem} (h : Fails x p) :
    Fails (Run.sample x : Run.Eval σ ε α) (.problem p) := by
  rintro ⟨c, s⟩
  have h : x c = .error p := h c
  simp only [Run.sample, ExceptT.run, StateT.run]
  rw [h]

/-! ## Settling -/

variable [Answering m] [Refusing m ε] {room room' : Prop} {e : ε} {x : m α} {f : α → m β}
  {P : α → Prop} {Q : β → Prop}

/-- Where there is room a computation answers from every state, and otherwise
it is refused. -/
def Settles (room : Prop) (e : ε) (P : α → Prop) (x : m α) : Prop :=
  (room → ∃ a, Must x a ∧ P a) ∧ (¬ room → Fails x e)

theorem Settles.of_must {a : α} (h : Must x a) (ha : P a) : Settles True e P x :=
  ⟨fun _ => ⟨a, h, ha⟩, fun no => absurd trivial no⟩

theorem Settles.congr (h : Settles room e P x) (iff : room ↔ room') : Settles room' e P x :=
  ⟨fun yes => h.1 (iff.mpr yes), fun no => h.2 fun yes => no (iff.mp yes)⟩

theorem Settles.mono {P' : α → Prop} (h : Settles room e P x) (weaken : ∀ a, P a → P' a) :
    Settles room e P' x := by
  refine ⟨fun yes => ?_, h.2⟩
  obtain ⟨a, must, ha⟩ := h.1 yes
  exact ⟨a, must, weaken a ha⟩

/-- Two computations that settle, one after the other, need room for both. -/
theorem Settles.seq (h : Settles room e P x) (next : ∀ a, P a → Settles room' e Q (f a)) :
    Settles (room ∧ room') e Q (x >>= f) := by
  constructor
  · rintro ⟨first, second⟩
    obtain ⟨a, must, ha⟩ := h.1 first
    obtain ⟨b, must', hb⟩ := (next a ha).1 second
    exact ⟨b, must_bind must must', hb⟩
  · intro no
    by_cases first : room
    · obtain ⟨a, must, ha⟩ := h.1 first
      exact fails_bind_of_must must ((next a ha).2 fun second => no ⟨first, second⟩)
    · exact fails_bind f (h.2 first)

/-- What goes before needs no room. -/
theorem Settles.after {a : α} (h : Must x a) (next : Settles room e Q (f a)) :
    Settles room e Q (x >>= f) := by
  have first : Settles True e (· = a) x := .of_must h rfl
  exact (first.seq fun _ eq => eq ▸ next).congr (Iff.of_eq (true_and room))

/-- What goes after needs no room. -/
theorem Settles.bind (h : Settles room e P x) (next : ∀ a, P a → ∃ b, Must (f a) b ∧ Q b) :
    Settles room e Q (x >>= f) := by
  have last : ∀ a, P a → Settles True e Q (f a) := by
    intro a ha
    obtain ⟨b, must, hb⟩ := next a ha
    exact .of_must must hb
  exact (h.seq last).congr (Iff.of_eq (and_true room))

theorem Settles.withError {x : StateT Coins (Except ε) α} (h : Settles room e P x)
    (f : ε → ε') : Settles room (f e) P (withError f x) := by
  refine ⟨fun yes => ?_, fun no => fails_withError (h.2 no) f⟩
  obtain ⟨a, must, ha⟩ := h.1 yes
  exact ⟨a, must_withError must f, ha⟩

theorem Settles.sample {x : Run.Sampling α} {p : Run.Problem} (h : Settles room p P x) :
    Settles room (.problem p) P (Run.sample x : Run.Eval σ ε α) := by
  refine ⟨fun yes => ?_, fun no => fails_sample (h.2 no)⟩
  obtain ⟨a, must, ha⟩ := h.1 yes
  exact ⟨a, must_sample must, ha⟩

/-! ## Lists -/

/-- A list is passed through computations that all answer. -/
theorem must_mapM_of_forall₂ [LawfulMonad m] {f : α → m β} {xs : List α} {ys : List β}
    (h : List.Forall₂ (fun x y => Must (f x) y) xs ys) : Must (xs.mapM f) ys := by
  induction h with
  | nil =>
    rw [List.mapM_nil]
    exact must_pure []
  | cons hy _ ih =>
    rw [List.mapM_cons]
    exact must_bind hy (must_bind ih (must_pure _))

theorem must_mapM [LawfulMonad m] {f : α → m β} {R : α → β → Prop} {xs : List α}
    (each : ∀ x ∈ xs, ∃ y, Must (f x) y ∧ R x y) :
    ∃ ys, Must (xs.mapM f) ys ∧ List.Forall₂ R xs ys := by
  induction xs with
  | nil => exact ⟨[], must_mapM_of_forall₂ .nil, .nil⟩
  | cons x xs ih =>
    obtain ⟨y, hy, first⟩ := each x List.mem_cons_self
    obtain ⟨ys, hys, rest⟩ := ih fun x hx => each x (List.mem_cons_of_mem _ hx)
    refine ⟨y :: ys, ?_, .cons first rest⟩
    rw [List.mapM_cons]
    exact must_bind hy (must_bind hys (must_pure _))

/-- A list that has been passed through computations. -/
theorem may_mapM [LawfulMonad m] {f : α → m β} {xs : List α} {ys : List β}
    (h : May (xs.mapM f) ys) : List.Forall₂ (fun x y => May (f x) y) xs ys := by
  induction xs generalizing ys with
  | nil =>
    rw [List.mapM_nil] at h
    obtain rfl := may_pure h
    exact .nil
  | cons x xs ih =>
    rw [List.mapM_cons] at h
    obtain ⟨y, hy, h⟩ := may_bind h
    obtain ⟨rest, hrest, h⟩ := may_bind h
    obtain rfl := may_pure h
    exact .cons hy (ih hrest)

end CipherFlow
