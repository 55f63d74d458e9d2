import CipherFlow.Proofs.Element.Levels
import CipherFlow.Proofs.Graph.Paths
import CipherFlow.Proofs.Run.Layout
import CipherFlow.Proofs.Run.Nodes
import CipherFlow.Proofs.Tensor.Kinds

/-!
# Levels of outcomes

The elements of a value are all plain, or they are all encrypted at one level.
Each operation on values keeps this: its outcome is at the level of its
encrypted operands, known zeros and answers of the oracle included, and a
rescaling takes it one level down.

`operate_carries` is the result for all operations. Sums and products of elements
are followed by what they yield in `CipherFlow.Proofs.Element.Levels`; a tensor
operation yields what its sums and products do (`CipherFlow.Proofs.Tensor.Kinds`),
so there is no second look at contractions and windows here.
-/

namespace CipherFlow

open CipherFlow.Element (Compute add_carries multiply_carries)
open CipherFlow.Run (Problem Eval Oracle Sampling require sample)
open Answering

namespace Backend

variable {ev : Evaluator} {x y : BatchedTensor} {lx ly : Option Nat} {out : Batched}

/-- The elements of a value, of which there are some, have one level, or none
of them has. -/
structure HasLevel (t : BatchedTensor) (l : Option Nat) : Prop where
  elements : t.values ≠ []
  level : ∀ e ∈ t.values, e.level? = l

/-! ## Operations -/

theorem add_yields (ev : Evaluator) (lx ly : Option Nat) :
    Tensor.Yields (·.level? = lx) (·.level? = ly) (fun z => Carries 0 [lx, ly] z.level?)
      (Element.add ev) := by
  rintro a b c rfl rfl h
  exact add_carries h

theorem multiply_yields (ev : Evaluator) (lx ly : Option Nat) :
    Tensor.Yields (·.level? = lx) (·.level? = ly) (fun z => Carries 0 [lx, ly] z.level?)
      (Element.multiply ev) := by
  rintro a b c rfl rfl h
  exact multiply_carries h

/-- Sums of elements of one level stay at it. -/
theorem add_yields_same (ev : Evaluator) (l : Option Nat) :
    Tensor.Yields (·.level? = l) (·.level? = l) (·.level? = l) (Element.add ev) :=
  fun a b c ha hb h => (add_yields ev l l a b c ha hb h).unique (.pair l)

/-- A sum of outcomes that carry the level of the same operands carries it, too. -/
theorem add_yields_carried (ev : Evaluator) (operands : List (Option Nat)) :
    Tensor.Yields (fun z => Carries 0 operands z.level?) (fun z => Carries 0 operands z.level?)
      (fun z => Carries 0 operands z.level?) (Element.add ev) := by
  intro a b c ha hb h
  have same := add_yields_same ev b.level? a b c (ha.unique hb) rfl h
  rwa [same]

theorem sum_carries (hx : HasLevel x lx) (hy : HasLevel y ly) (h : May (sum ev x y) out) :
    ∀ z ∈ out.2, Carries 0 [lx, ly] z.level? := by
  obtain ⟨batch, -, h⟩ := may_bind h
  obtain ⟨values, hvalues, h⟩ := may_bind h
  obtain rfl := may_pure h
  exact Tensor.elementwise_yields (add_yields ev lx ly) hx.level hy.level
    (may_of_may_withError hvalues)

theorem product_carries (hx : HasLevel x lx) (hy : HasLevel y ly) (h : May (product ev x y) out) :
    ∀ z ∈ out.2, Carries 0 [lx, ly] z.level? := by
  obtain ⟨batch, -, h⟩ := may_bind h
  obtain ⟨values, hvalues, h⟩ := may_bind h
  obtain rfl := may_pure h
  exact Tensor.elementwise_yields (multiply_yields ev lx ly) hx.level hy.level
    (may_of_may_withError hvalues)

theorem dot_carries (hx : HasLevel x lx) (hy : HasLevel y ly) (h : May (dot ev x y) out) :
    ∀ z ∈ out.2, Carries 0 [lx, ly] z.level? := by
  obtain ⟨batch, -, h⟩ := may_bind h
  obtain ⟨values, hvalues, h⟩ := may_bind h
  obtain rfl := may_pure h
  exact Tensor.dot_yields (add_yields_carried ev _) (multiply_yields ev lx ly) hx.level hy.level
    (may_of_may_withError hvalues)

theorem convolution_carries {strides : Nat × Nat} (hx : HasLevel x lx) (hy : HasLevel y ly)
    (h : May (convolution ev strides x y) out) : ∀ z ∈ out.2, Carries 0 [lx, ly] z.level? := by
  obtain ⟨batch, -, h⟩ := may_bind h
  obtain ⟨values, hvalues, h⟩ := may_bind h
  obtain rfl := may_pure h
  exact Tensor.convolution_yields (add_yields_carried ev _) (multiply_yields ev lx ly) hx.level
    hy.level (may_of_may_withError hvalues)

theorem averagePool_carries {window strides : Nat × Nat} (hx : HasLevel x lx)
    (h : May (averagePool ev window strides x) out) : ∀ z ∈ out.2, Carries 0 [lx] z.level? := by
  obtain ⟨values, hvalues, h⟩ := may_bind h
  obtain rfl := may_pure h
  have all := Tensor.windowSums_yields (add_yields_same ev lx) (multiply_yields ev lx none)
    (fun _ => rfl) hx.level (may_of_may_withError hvalues)
  intro z hz
  rw [(all z hz).unique (.pair_none lx)]
  exact .same lx

theorem broadcast_carries {shape : Shape} (hx : HasLevel x lx) (h : May (broadcast x shape) out) :
    ∀ z ∈ out.2, Carries 0 [lx] z.level? := by
  obtain ⟨target, -, h⟩ := may_bind h
  obtain ⟨values, hvalues, h⟩ := may_bind h
  obtain rfl := may_pure h
  intro z hz
  rw [Tensor.broadcast_yields hx.level (may_of_may_withError hvalues) z hz]
  exact .same lx

/-- Elements that are all plain have no level. -/
theorem none_of_plain {xs : List (List Float)} (hx : HasLevel x lx)
    (plain : x.values.mapM plainLanes? = some xs) : lx = none := by
  obtain ⟨e, rest, eq⟩ := List.exists_cons_of_ne_nil hx.elements
  rw [eq, List.mapM_cons] at plain
  obtain ⟨lanes, first, -⟩ := Option.bind_eq_some_iff.mp plain
  rw [← hx.level e (by rw [eq]; exact List.mem_cons_self)]
  cases e with
  | plain _ => rfl
  | cipher _ => exact nomatch first

/-- A minimum is taken of plain elements only. -/
theorem minimum_carries (hx : HasLevel x lx) (hy : HasLevel y ly) (h : May (minimum x y) out) :
    ∀ z ∈ out.2, Carries 0 [lx, ly] z.level? := by
  unfold minimum at h
  split at h
  · rename_i xs ys plainX plainY
    obtain ⟨batch, -, h⟩ := may_bind h
    obtain ⟨values, -, h⟩ := may_bind h
    obtain rfl := may_pure h
    intro z hz
    obtain ⟨lanes, -, rfl⟩ := List.mem_map.mp hz
    exact .of_plain (by simp [none_of_plain hx plainX, none_of_plain hy plainY])
  · obtain ⟨_, _, refused⟩ := h
    exact nomatch refused

theorem rescale_carries (hx : HasLevel x lx) (h : May (rescale ev x) out) :
    ∀ z ∈ out.2, Carries 1 [lx] z.level? := by
  obtain ⟨values, hvalues, h⟩ := may_bind h
  obtain rfl := may_pure h
  have hvalues : Element.rescaleAll ev x.values = .ok values :=
    eq_ok_of_may_lift (may_of_may_withError hvalues)
  intro z hz
  obtain ⟨k, lt, rfl⟩ := List.mem_iff_getElem.mp hz
  obtain ⟨e, found, eq⟩ := Tensor.getElem?_related
    (List.Forall₂.flip (mapM_eq_ok_iff.mp hvalues)) (List.getElem?_eq_getElem lt)
  rw [← hx.level e (List.mem_of_getElem? found)]
  exact Element.rescale_carries eq

/-! ## Nonlinear functions -/

/-- Answers at the level of the elements that they are given for. -/
theorem level_fillAnswers {f : Nonlinear} {l : Option Nat} {values : List Element}
    {answers : List Handle} (hvalues : ∀ e ∈ values, e.level? = l)
    (hanswers : ∀ h ∈ answers, l = some h.level) :
    ∀ z ∈ fillAnswers f values answers, z.level? = l := by
  induction values generalizing answers with
  | nil => simp [fillAnswers]
  | cons e values ih =>
    obtain ⟨first, rest⟩ := List.forall_mem_cons.mp hvalues
    cases e with
    | plain xs =>
      rw [fillAnswers]
      exact List.forall_mem_cons.mpr ⟨first, ih rest hanswers⟩
    | cipher h =>
      cases answers with
      | nil => simp [fillAnswers]
      | cons a answers =>
        obtain ⟨level, others⟩ := List.forall_mem_cons.mp hanswers
        rw [fillAnswers]
        exact List.forall_mem_cons.mpr ⟨level.symm, ih rest others⟩

/-- A nonlinear function has its encrypted elements, if there are any, answered
by the oracle. -/
theorem may_nonlinear {σ ε : Type} {oracle : Oracle σ ε} {f : Nonlinear}
    (h : May (nonlinear oracle f x) out) : ∃ answers,
      (answers = [] ∨ May (oracle f x.batch (cipherElements x.values)) answers) ∧
        out = (x.batch, fillAnswers f x.values answers) := by
  have last : ∀ answers : List Handle, May (do
      if answers.length ≠ (cipherElements x.values).length then
        throw (.problem (.responseLength (cipherElements x.values).length answers.length))
      return (x.batch, fillAnswers f x.values answers) : Eval σ ε Batched) out →
      out = (x.batch, fillAnswers f x.values answers) := by
    intro answers h
    split at h
    · obtain ⟨_, ⟨_, _, refused⟩, -⟩ := may_bind h
      exact nomatch congrArg Prod.fst refused
    · exact may_pure h
  unfold nonlinear at h
  dsimp only at h
  split at h
  · obtain ⟨answers, hanswers, h⟩ := may_bind h
    exact ⟨answers, .inl (may_pure hanswers), last answers h⟩
  · obtain ⟨answers, hanswers, h⟩ := may_bind h
    exact ⟨answers, .inr hanswers, last answers h⟩

theorem nonlinear_carries {σ ε : Type} {key : SecretKey} {f : Nonlinear} (hx : HasLevel x lx)
    (h : May (nonlinear (Oracle.ofKey key ev : Oracle σ ε) f x) out) :
    ∀ z ∈ out.2, Carries 0 [lx] z.level? := by
  obtain ⟨answers, asked, rfl⟩ := may_nonlinear h
  have kept : ∀ a ∈ answers, lx = some a.level := by
    rcases asked with rfl | asked
    · simp
    have each := may_mapM (may_of_may_sample asked)
    intro a ha
    obtain ⟨k, lt, rfl⟩ := List.mem_iff_getElem.mp ha
    -- Each answer is given for an element of the value, at its level.
    obtain ⟨handle, found, may⟩ :=
      Tensor.getElem?_related (List.Forall₂.flip each) (List.getElem?_eq_getElem lt)
    have mem : Element.cipher handle ∈ x.values := by
      obtain ⟨e, he, eq⟩ := List.mem_filterMap.mp (List.mem_of_getElem? found)
      cases e with
      | plain _ => exact nomatch eq
      | cipher _ => exact Option.some.inj eq ▸ he
    rw [← hx.level _ mem, Element.level_applyWithKey (may_of_may_withError may)]
    rfl
  intro z hz
  rw [level_fillAnswers hx.level kept z hz]
  exact .same lx

/-! ## Nodes -/

variable {σ ε : Type} {b : Backend} {key : SecretKey} {n : Node} {xs : List BatchedTensor}
  {ls : List (Option Nat)}

theorem not_may_throw {α : Type} {f : Run.Failure ε} {a : α} :
    ¬ May (throw f : Eval σ ε α) a := by
  rintro ⟨_, _, h⟩
  exact nomatch congrArg Prod.fst h

/-- Each operation takes the level of its operands along, and rescaling takes
it one down. -/
theorem operate_carries (levels : List.Forall₂ HasLevel xs ls)
    (h : May (b.operate (Oracle.ofKey key ev : Oracle σ ε) n xs) out) :
    ∀ z ∈ out.2, Carries n.kind.drop ls z.level? := by
  unfold operate at h
  rw [Node.kind]
  cases op : n.op <;> rw [op] at h
  -- By operation; with other numbers of operands than its own it answers with an error.
  case parameter => exact absurd h not_may_throw
  case constant v =>
    rcases levels with _ | ⟨_, _⟩
    · obtain rfl := may_pure h
      intro z hz
      obtain ⟨value, -, rfl⟩ := List.mem_map.mp hz
      exact .of_plain (by simp)
    · exact absurd h not_may_throw
  case broadcast =>
    rcases levels with _ | ⟨hx, _ | ⟨_, _⟩⟩
    any_goals exact absurd h not_may_throw
    exact broadcast_carries hx (may_of_may_sample h)
  case averagePool =>
    rcases levels with _ | ⟨hx, _ | ⟨_, _⟩⟩
    any_goals exact absurd h not_may_throw
    exact averagePool_carries hx (may_of_may_sample h)
  case relu | boundedRelu =>
    rcases levels with _ | ⟨hx, _ | ⟨_, _⟩⟩
    any_goals exact absurd h not_may_throw
    exact nonlinear_carries hx h
  case rescale =>
    rcases levels with _ | ⟨hx, _ | ⟨_, _⟩⟩
    any_goals exact absurd h not_may_throw
    exact rescale_carries hx (may_of_may_sample h)
  case add =>
    rcases levels with _ | ⟨hx, _ | ⟨hy, _ | ⟨_, _⟩⟩⟩
    any_goals exact absurd h not_may_throw
    exact sum_carries hx hy (may_of_may_sample h)
  case multiply =>
    rcases levels with _ | ⟨hx, _ | ⟨hy, _ | ⟨_, _⟩⟩⟩
    any_goals exact absurd h not_may_throw
    exact product_carries hx hy (may_of_may_sample h)
  case minimum =>
    rcases levels with _ | ⟨hx, _ | ⟨hy, _ | ⟨_, _⟩⟩⟩
    any_goals exact absurd h not_may_throw
    exact minimum_carries hx hy (may_of_may_sample h)
  case dot =>
    rcases levels with _ | ⟨hx, _ | ⟨hy, _ | ⟨_, _⟩⟩⟩
    any_goals exact absurd h not_may_throw
    exact dot_carries hx hy (may_of_may_sample h)
  case convolution =>
    rcases levels with _ | ⟨hx, _ | ⟨hy, _ | ⟨_, _⟩⟩⟩
    any_goals exact absurd h not_may_throw
    exact convolution_carries hx hy (may_of_may_sample h)

/-- What has been made for a shape without empty axes has elements. -/
theorem elements_of_made {type : TensorType} {batch : Nat} {values : List Element}
    {t : BatchedTensor} (made : BatchedTensor.ofValues type batch values = .ok t)
    (positive : type.shape.IsPositive) : t.values ≠ [] := by
  obtain ⟨sized, ⟨packed, packs, count⟩, rfl⟩ := BatchedTensor.ofValues_eq_ok_iff.mp made
  have some : 0 < packed.prod * batch := packs.prod_eq ▸ positive.prod_pos
  rw [Shape.size_eq_prod (packs.isSome_size? sized)] at count
  rintro (empty : values = [])
  rw [← count, empty] at some
  simp at some

/-- The outcome of a node has one level, which its operands determine. -/
theorem exists_level {type : TensorType} {t : BatchedTensor} {drop : Nat}
    (made : BatchedTensor.ofValues type out.1 out.2 = .ok t) (positive : type.shape.IsPositive)
    (carries : ∀ z ∈ out.2, Carries drop ls z.level?) :
    ∃ l, HasLevel t l ∧ Carries drop ls l := by
  have some := elements_of_made made positive
  obtain ⟨-, -, rfl⟩ := BatchedTensor.ofValues_eq_ok_iff.mp made
  obtain ⟨e, rest, eq⟩ := List.exists_cons_of_ne_nil some
  have first : Carries drop ls e.level? := carries e (by
    rw [show out.2 = e :: rest from eq]
    exact List.mem_cons_self)
  exact ⟨e.level?, ⟨some, fun z hz => (carries z hz).unique first⟩, first⟩

end Backend

end CipherFlow
