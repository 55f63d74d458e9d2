import CipherFlow.Proofs.Fault
import CipherFlow.Run.Oracle
import Mathlib.Data.List.Forall2

/-!
# Computations compared by their answers

On plain data no computation takes coins or asks an oracle, though the types
of computations do not say so. What has to be shown is therefore stronger than
a comparison of answers: wherever one computation succeeds, it does so from
every state and leaves the state as it was, and so does the other, with a
related answer. The three kinds of computations that occur are treated alike.

`Refines` is the relation. It is kept by sequencing (`Refines.bind`), by loops over
lists and by changes of the kind of errors, so a program refines another by its
text, step by step.
-/

namespace CipherFlow

variable {m : Type → Type} [Monad m] {α β γ δ ε ε' σ : Type}

/-- Computations of which one can say what they answer. -/
class Answering (m : Type → Type) [Monad m] where
  /-- The answer from some state. -/
  May : {α : Type} → m α → α → Prop
  /-- The answer from every state, which stays as it was. -/
  Must : {α : Type} → m α → α → Prop
  may_pure {α : Type} {a b : α} : May (pure a : m α) b → b = a
  must_pure {α : Type} (a : α) : Must (pure a : m α) a
  may_bind {α β : Type} {x : m α} {f : α → m β} {b : β} :
    May (x >>= f) b → ∃ a, May x a ∧ May (f a) b
  must_bind {α β : Type} {x : m α} {f : α → m β} {a : α} {b : β} :
    Must x a → Must (f a) b → Must (x >>= f) b

open Answering

instance : Answering (Except ε) where
  May x a := x = .ok a
  Must x a := x = .ok a
  may_pure h := (Except.ok.inj h).symm
  must_pure _ := rfl
  may_bind := exists_of_bind_eq_ok
  must_bind := by
    rintro _ _ _ f a b rfl h
    exact h

instance : Answering (StateT Coins (Except ε)) where
  May x a := ∃ c c', x.run c = .ok (a, c')
  Must x a := ∀ c, x.run c = .ok (a, c)
  may_pure := by
    rintro _ a b ⟨c, c', h⟩
    exact (congrArg Prod.fst (Except.ok.inj h)).symm
  must_pure _ _ := rfl
  may_bind := by
    rintro _ _ x f b ⟨c, c', h⟩
    obtain ⟨a, c₁, hx, h⟩ := run_bind_eq_ok.mp h
    exact ⟨a, ⟨c, c₁, hx⟩, c₁, c', h⟩
  must_bind := by
    intro _ _ x f a b hx hf c
    rw [StateT.run_bind, hx c]
    exact hf c

instance : Answering (Run.Eval σ ε) where
  May x a := ∃ s s', x.run.run s = (.ok a, s')
  Must x a := ∀ s, x.run.run s = (.ok a, s)
  may_pure := by
    rintro _ a b ⟨s, s', h⟩
    exact (Except.ok.inj (congrArg Prod.fst h)).symm
  must_pure _ _ := rfl
  may_bind := by
    rintro _ _ x f b ⟨s, s', h⟩
    obtain ⟨a, s₁, hx, h⟩ := run_bind_ok_iff.mp h
    exact ⟨a, ⟨s, s₁, hx⟩, s₁, s', h⟩
  must_bind := by
    intro _ _ x f a b hx hf s
    rw [run_bind_ok (hx s), hf s]

/-! ## Refinement

What is assumed is success from one state, what follows is success from all. This is
how the answer of a single run tells of other runs, of other graphs, and of other
coins. -/

/-- Wherever the first computation succeeds, both succeed from every state and
leave it, with related answers. -/
def Refines [Answering m] (R : α → β → Prop) (x : m α) (y : m β) : Prop :=
  ∀ a, May x a → ∃ b, Must x a ∧ Must y b ∧ R a b

variable [Answering m] {R : α → β → Prop} {S : γ → δ → Prop} {x : m α} {y : m β}

theorem Refines.pure {a : α} {b : β} (h : R a b) : Refines R (pure a : m α) (pure b : m β) := by
  intro a' ha
  obtain rfl := may_pure ha
  exact ⟨b, must_pure a', must_pure b, h⟩

theorem Refines.bind {f : α → m γ} {g : β → m δ} (h : Refines R x y)
    (next : ∀ a b, R a b → Refines S (f a) (g b)) : Refines S (x >>= f) (y >>= g) := by
  intro c hc
  obtain ⟨a, ha, hc⟩ := may_bind hc
  obtain ⟨b, xa, yb, ab⟩ := h a ha
  obtain ⟨d, fc, gd, cd⟩ := next a b ab c hc
  exact ⟨d, must_bind xa fc, must_bind yb gd, cd⟩

/-- A computation that never succeeds is refined by any. -/
theorem Refines.of_not_may (h : ∀ a, ¬ May x a) : Refines R x y :=
  fun a ha => absurd ha (h a)

theorem Refines.error {e : ε} {y : Except ε β} : Refines R (.error e : Except ε α) y :=
  .of_not_may fun _ h => nomatch h

theorem Refines.mapM [LawfulMonad m] {f : α → m γ} {g : β → m δ} {xs : List α} {ys : List β}
    (h : List.Forall₂ R xs ys) (each : ∀ a b, R a b → Refines S (f a) (g b)) :
    Refines (List.Forall₂ S) (xs.mapM f) (ys.mapM g) := by
  induction h with
  | nil =>
    rw [List.mapM_nil, List.mapM_nil]
    exact .pure .nil
  | cons ab _ ih =>
    rw [List.mapM_cons, List.mapM_cons]
    exact (each _ _ ab).bind fun c d cd => ih.bind fun cs ds all => .pure (.cons cd all)

theorem Refines.foldlM [LawfulMonad m] {f : γ → α → m γ} {g : δ → β → m δ} {xs : List α}
    {ys : List β} {c : γ} {d : δ} (h : List.Forall₂ R xs ys) (start : S c d)
    (each : ∀ c d a b, S c d → R a b → Refines S (f c a) (g d b)) :
    Refines S (xs.foldlM f c) (ys.foldlM g d) := by
  induction h generalizing c d with
  | nil => exact .pure start
  | cons ab _ ih =>
    rw [List.foldlM_cons, List.foldlM_cons]
    exact (each _ _ _ _ start ab).bind fun _ _ next => ih next

/-! ## Computations as parts of others

Most programs are made of computations of several kinds. For each way to make one
kind part of another it is said what the whole answers, given the part, and back. -/

/-- An error of an inner computation becomes one of the outer. -/
theorem Refines.mapError {x : Except ε α} {y : Except ε β} (h : Refines R x y) (f : ε → ε') :
    Refines R (x.mapError f) (y.mapError f) := by
  intro a ha
  cases x with
  | error e => exact nomatch ha
  | ok a' =>
    obtain rfl := Except.ok.inj ha
    obtain ⟨b, -, rfl, ab⟩ := h a' rfl
    exact ⟨b, rfl, rfl, ab⟩

theorem eq_ok_of_may_lift {x : Except ε α} {a : α}
    (h : May (StateT.lift x : StateT Coins (Except ε) α) a) : x = .ok a := by
  obtain ⟨c, c', h⟩ := h
  cases x with
  | error e => exact nomatch h
  | ok b => exact congrArg Except.ok (congrArg Prod.fst (Except.ok.inj h))

theorem Refines.lift {x : Except ε α} {y : Except ε β} (h : Refines R x y) :
    Refines R (StateT.lift x : StateT Coins (Except ε) α) (StateT.lift y) := by
  intro a ha
  obtain ⟨b, rfl, rfl, ab⟩ := h a (eq_ok_of_may_lift ha)
  exact ⟨b, fun _ => rfl, fun _ => rfl, ab⟩

/-- The same computation with errors of another kind. -/
def withError (f : ε → ε') (x : StateT Coins (Except ε) α) : StateT Coins (Except ε') α :=
  fun c => (x.run c).mapError f

theorem withError_bind (f : ε → ε') (x : StateT Coins (Except ε) α)
    (g : α → StateT Coins (Except ε) β) :
    withError f (x >>= g) = withError f x >>= fun a => withError f (g a) := by
  funext c
  show (x.run c >>= fun r => (g r.1).run r.2).mapError f =
    (x.run c).mapError f >>= fun r => ((g r.1).run r.2).mapError f
  cases x.run c <;> rfl

theorem mapM_withError (f : ε → ε') (g : α → StateT Coins (Except ε) β) (xs : List α) :
    xs.mapM (fun a => withError f (g a)) = withError f (xs.mapM g) := by
  induction xs with
  | nil => rfl
  | cons a xs ih =>
    rw [List.mapM_cons, List.mapM_cons, withError_bind, ih]
    refine bind_congr fun b => ?_
    rw [withError_bind]
    rfl

/-- Coins are handed on from one part of a list to the next. -/
theorem run_mapM_append {f : α → StateT Coins (Except ε) β} {xs ys : List α} {as bs : List β}
    {c c' c'' : Coins} (h : (xs.mapM f).run c = .ok (as, c'))
    (h' : (ys.mapM f).run c' = .ok (bs, c'')) :
    ((xs ++ ys).mapM f).run c = .ok (as ++ bs, c'') := by
  rw [List.mapM_append, StateT.run_bind, h]
  show (ys.mapM f >>= fun bs => pure (as ++ bs)).run c' = _
  rw [StateT.run_bind, h']
  rfl

theorem may_of_may_withError {x : StateT Coins (Except ε) α} {f : ε → ε'} {a : α}
    (h : May (withError f x) a) : May x a := by
  obtain ⟨c, c', h⟩ := h
  exact ⟨c, c', eq_ok_of_mapError h⟩

theorem Refines.withError {x : StateT Coins (Except ε) α} {y : StateT Coins (Except ε) β}
    (h : Refines R x y) (f : ε → ε') : Refines R (withError f x) (withError f y) := by
  intro a ha
  obtain ⟨b, xa, yb, ab⟩ := h a (may_of_may_withError ha)
  refine ⟨b, fun c => ?_, fun c => ?_, ab⟩
  · exact congrArg (Except.mapError f) (xa c)
  · exact congrArg (Except.mapError f) (yb c)

theorem must_require {x : Except Run.Problem α} {a : α} (h : x = .ok a) :
    Must (Run.require x : Run.Eval σ ε α) a := by
  subst h
  exact must_pure a

theorem eq_ok_of_may_require {x : Except Run.Problem α} {a : α}
    (h : May (Run.require x : Run.Eval σ ε α) a) : x = .ok a := by
  obtain ⟨s, s', h⟩ := h
  cases x with
  | error e => exact nomatch congrArg Prod.fst h
  | ok x => exact congrArg Except.ok (Except.ok.inj (congrArg Prod.fst h))

theorem Refines.require {x : Except Run.Problem α} {y : Except Run.Problem β} (h : Refines R x y) :
    Refines R (Run.require x : Run.Eval σ ε α) (Run.require y) := by
  intro a ha
  obtain ⟨b, hx, hy, ab⟩ := h a (eq_ok_of_may_require ha)
  exact ⟨b, must_require hx, must_require hy, ab⟩

theorem run_sample {x : Run.Sampling α} {a : α} {c c' : Coins} (h : x.run c = .ok (a, c')) (s : σ) :
    (Run.sample x : Run.Eval σ ε α).run.run (c, s) = (.ok a, (c', s)) := by
  simp only [Run.sample, ExceptT.run, StateT.run] at h ⊢
  rw [h]

/-- Who holds the key answers with what it computes. -/
theorem Run.Oracle.ofKey_run {key : SecretKey} {ev : Evaluator} {f : Nonlinear} {lanes : Nat}
    {batch answers : List Handle} {c c' : Coins}
    (h : (batch.mapM fun x => f.applyWithKey x lanes key ev).run c = .ok (answers, c')) (s : σ) :
    (Run.Oracle.ofKey key ev f lanes batch : Run.Eval σ ε _).run.run (c, s) =
      (.ok answers, (c', s)) := by
  have lifted : (withError Run.Problem.element
      (batch.mapM fun x => f.applyWithKey x lanes key ev)).run c = .ok (answers, c') :=
    congrArg (Except.mapError Run.Problem.element) h
  rw [← mapM_withError] at lifted
  exact run_sample lifted s

/-- Coins are handed on with the rest of the state. -/
theorem must_sample {x : Run.Sampling α} {a : α} (h : Must x a) :
    Must (Run.sample x : Run.Eval σ ε α) a :=
  fun s => run_sample (h s.1) s.2

theorem may_of_may_sample {x : Run.Sampling α} {a : α}
    (h : May (Run.sample x : Run.Eval σ ε α) a) : May x a := by
  obtain ⟨⟨c, s⟩, s', h⟩ := h
  cases hx : x.run c with
  | error e =>
    simp only [Run.sample, ExceptT.run, StateT.run] at hx h
    rw [hx] at h
    exact nomatch congrArg Prod.fst h
  | ok r =>
    obtain rfl := Except.ok.inj (congrArg Prod.fst ((run_sample hx s).symm.trans h))
    exact ⟨c, r.2, hx⟩

theorem Refines.sample {x : Run.Sampling α} {y : Run.Sampling β} (h : Refines R x y) :
    Refines R (Run.sample x : Run.Eval σ ε α) (Run.sample y) := by
  intro a ha
  obtain ⟨b, xa, yb, ab⟩ := h a (may_of_may_sample ha)
  exact ⟨b, must_sample xa, must_sample yb, ab⟩

theorem may_of_runFrom {x : Run.Eval σ ε α} {a : α} {c : Coins} {s s' : σ}
    (h : x.runFrom c s = (.ok a, s')) : May x a := by
  match eq : x.run.run (c, s) with
  | (answer, coins, state) =>
    rw [Run.Eval.runFrom, eq] at h
    have answer : answer = .ok a := congrArg Prod.fst h
    exact ⟨(c, s), (coins, state), by rw [eq, answer]⟩

end CipherFlow
