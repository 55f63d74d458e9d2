import CipherFlow.Fault
import Mathlib.Data.List.Forall2

/-!
# Results of steps that may fail

How a sequence of steps that succeeds is taken apart. Steps may pass on a state: a
reader its bytes and a draw its coins, which are lost with a failure, or an edit its
graph and a session its connection, which are left behind by a failure, too.
-/

namespace CipherFlow

variable {ε ε' α β : Type}

/-- A sequence of two steps succeeds if both do. -/
theorem exists_of_bind_eq_ok {x : Except ε α} {f : α → Except ε β} {b : β}
    (h : x >>= f = .ok b) : ∃ a, x = .ok a ∧ f a = .ok b := by
  cases x with
  | error e => exact nomatch h
  | ok a => exact ⟨a, rfl, h⟩

/-- A step with errors of another kind succeeds if the step does. -/
theorem eq_ok_of_mapError {x : Except ε α} {f : ε → ε'} {a : α} (h : x.mapError f = .ok a) :
    x = .ok a := by
  cases x with
  | error e => exact nomatch h
  | ok a => rw [Except.ok.inj h]

/-- A sequence of two steps fails if one of them does. -/
theorem of_bind_eq_error {x : Except ε α} {f : α → Except ε β} {e : ε} (h : x >>= f = .error e) :
    x = .error e ∨ ∃ a, x = .ok a ∧ f a = .error e := by
  cases x with
  | error e' => exact .inl (congrArg _ (Except.error.inj h))
  | ok a => exact .inr ⟨a, rfl, h⟩

theorem exists_of_mapError {x : Except ε α} {f : ε → ε'} {e : ε'} (h : x.mapError f = .error e) :
    ∃ e', x = .error e' ∧ f e' = e := by
  cases x with
  | error e' => exact ⟨e', rfl, Except.error.inj h⟩
  | ok a => exact nomatch h

/-- A list of steps fails with the error of one of them. -/
theorem exists_of_mapM_eq_error {f : α → Except ε β} {xs : List α} {e : ε}
    (h : xs.mapM f = .error e) : ∃ x ∈ xs, f x = .error e := by
  induction xs with
  | nil => exact nomatch h
  | cons x xs ih =>
    rw [List.mapM_cons] at h
    rcases of_bind_eq_error h with first | ⟨y, -, h⟩
    · exact ⟨x, List.mem_cons_self, first⟩
    · rcases of_bind_eq_error h with rest | ⟨ys, -, h⟩
      · obtain ⟨x', mem, eq⟩ := ih rest
        exact ⟨x', List.mem_cons_of_mem _ mem, eq⟩
      · exact nomatch h

/-- Whether a step succeeds can be computed. -/
theorem eq_ok_of_toOption {x : Except ε α} {a : α} (h : x.toOption = some a) : x = .ok a := by
  cases x with
  | error e => exact nomatch h
  | ok b => exact congrArg _ (Option.some.inj h)

/-- A list is passed through steps that all succeed. -/
theorem mapM_ok {f : α → Except ε β} {P : Nat → β → Prop} {xs : List α}
    (each : ∀ (i : Nat) (x : α), xs[i]? = some x → ∃ y, f x = .ok y ∧ P i y) :
    ∃ ys, xs.mapM f = .ok ys ∧ ys.length = xs.length ∧
      ∀ (i : Nat) (y : β), ys[i]? = some y → P i y := by
  induction xs generalizing P with
  | nil => exact ⟨[], rfl, rfl, fun i y h => nomatch h⟩
  | cons x xs ih =>
    obtain ⟨y, hy, first⟩ := each 0 x rfl
    obtain ⟨ys, hys, length, rest⟩ := ih (P := fun i => P (i + 1)) fun i => each (i + 1)
    refine ⟨y :: ys, ?_, congrArg (· + 1) length, fun i z hz => ?_⟩
    · rw [List.mapM_cons, hy, hys]
      rfl
    · cases i with
      | zero => rwa [← Option.some.inj hz]
      | succ i => exact rest i z hz

/-- Steps for each item succeed together. -/
theorem exists_mapM {f : α → Except ε β} {xs : List α} (each : ∀ x ∈ xs, ∃ y, f x = .ok y) :
    ∃ ys, xs.mapM f = .ok ys := by
  obtain ⟨ys, eq, -⟩ := mapM_ok (P := fun _ _ => True) fun i x hx =>
    (each x (List.mem_of_getElem? hx)).imp fun y hy => ⟨hy, trivial⟩
  exact ⟨ys, eq⟩

/-- All steps succeed if each does. -/
theorem mapM_eq_ok_iff {f : α → Except ε β} {xs : List α} {ys : List β} :
    xs.mapM f = .ok ys ↔ List.Forall₂ (fun x y => f x = .ok y) xs ys := by
  constructor
  · intro h
    induction xs generalizing ys with
    | nil =>
      obtain rfl := Except.ok.inj h
      exact .nil
    | cons x xs ih =>
      rw [List.mapM_cons] at h
      obtain ⟨y, hy, h⟩ := exists_of_bind_eq_ok h
      obtain ⟨rest, hrest, h⟩ := exists_of_bind_eq_ok h
      obtain rfl := Except.ok.inj h
      exact .cons hy (ih hrest)
  · intro h
    induction h with
    | nil => rfl
    | cons hy _ ih =>
      rw [List.mapM_cons, hy, ih]
      rfl

/-- What comes out of such steps comes out of one of them. -/
theorem exists_of_mem_of_mapM_eq_ok {f : α → Except ε β} {xs : List α} {ys : List β}
    (h : xs.mapM f = .ok ys) : ∀ y ∈ ys, ∃ x ∈ xs, f x = .ok y := by
  have related := mapM_eq_ok_iff.mp h
  clear h
  induction related with
  | nil => exact fun y hy => nomatch hy
  | cons hy _ ih =>
    refine List.forall_mem_cons.mpr ⟨⟨_, List.mem_cons_self, hy⟩, fun y' hy' => ?_⟩
    obtain ⟨x, mem, eq⟩ := ih y' hy'
    exact ⟨x, List.mem_cons_of_mem _ mem, eq⟩

/-- Every item that goes in gives something. -/
theorem exists_of_mem_mapM {f : α → Except ε β} {xs : List α} {ys : List β}
    (h : xs.mapM f = .ok ys) : ∀ x ∈ xs, ∃ y, f x = .ok y := by
  have related := mapM_eq_ok_iff.mp h
  clear h
  induction related with
  | nil => exact fun x hx => nomatch hx
  | cons hy _ ih => exact List.forall_mem_cons.mpr ⟨⟨_, hy⟩, ih⟩

/-- What comes out of such steps is as long as what went in. -/
theorem length_of_mapM_eq_ok {f : α → Except ε β} {xs : List α} {ys : List β}
    (h : xs.mapM f = .ok ys) : ys.length = xs.length :=
  (mapM_eq_ok_iff.mp h).length_eq.symm

/-- Steps that all give something give the list of it. -/
theorem mapM_some {f : α → Option β} {g : α → β} {xs : List α}
    (h : ∀ x ∈ xs, f x = some (g x)) : xs.mapM f = some (xs.map g) := by
  induction xs with
  | nil => rfl
  | cons x xs ih =>
    obtain ⟨first, rest⟩ := List.forall_mem_cons.mp h
    rw [List.mapM_cons, first, ih rest]
    rfl

/-! ## Steps whose failure loses the state -/

section State

variable {σ : Type} {s s' : σ}

/-- Two steps succeed one after the other if both do. -/
theorem run_bind_eq_ok {x : StateT σ (Except ε) α} {f : α → StateT σ (Except ε) β} {b : β} :
    (x >>= f).run s = .ok (b, s') ↔
      ∃ a mid, x.run s = .ok (a, mid) ∧ (f a).run mid = .ok (b, s') := by
  rw [StateT.run_bind]
  constructor
  · intro h
    obtain ⟨⟨a, mid⟩, ha, h⟩ := exists_of_bind_eq_ok h
    exact ⟨a, mid, ha, h⟩
  · rintro ⟨a, mid, ha, h⟩
    rw [ha]
    exact h

/-- They fail if one of them does. -/
theorem run_bind_eq_error {x : StateT σ (Except ε) α} {f : α → StateT σ (Except ε) β} {e : ε} :
    (x >>= f).run s = .error e ↔
      x.run s = .error e ∨ ∃ a mid, x.run s = .ok (a, mid) ∧ (f a).run mid = .error e := by
  rw [StateT.run_bind]
  constructor
  · intro h
    exact (of_bind_eq_error h).imp_right fun ⟨⟨a, mid⟩, ha, h⟩ => ⟨a, mid, ha, h⟩
  · rintro (h | ⟨a, mid, ha, h⟩)
    · rw [h]
      rfl
    · rw [ha]
      exact h

/-! ## Steps whose failure keeps the state -/

variable {x : ExceptT ε (StateM σ) α} {f : α → ExceptT ε (StateM σ) β} {a : α} {e : ε}

theorem run_bind_ok (h : x.run.run s = (.ok a, s')) :
    (x >>= f).run.run s = (f a).run.run s' := by
  rw [ExceptT.run_bind, StateT.run_bind, h]
  rfl

theorem run_bind_error (h : x.run.run s = (.error e, s')) :
    (x >>= f).run.run s = (.error e, s') := by
  rw [ExceptT.run_bind, StateT.run_bind, h]
  rfl

/-- Two steps succeed one after the other if both do. -/
theorem run_bind_ok_iff {b : β} : (x >>= f).run.run s = (.ok b, s') ↔
    ∃ a mid, x.run.run s = (.ok a, mid) ∧ (f a).run.run mid = (.ok b, s') := by
  constructor
  · intro h
    match eq : x.run.run s with
    | (.ok a, mid) =>
      rw [run_bind_ok eq] at h
      exact ⟨a, mid, rfl, h⟩
    | (.error e, mid) =>
      rw [run_bind_error eq] at h
      exact nomatch (Prod.mk.inj h).1
  · rintro ⟨a, mid, first, h⟩
    rw [run_bind_ok first, h]

end State

end CipherFlow
