import CipherFlow.Proofs.Run.Plain
import Mathlib.Data.List.Zip

/-!
# Minimums with one bound

The minimum of a value and elements that all agree with one number is, lane by
lane, the minimum with this number. It does not matter on which side the number
stands, nor whether its elements have been repeated to a shape. So a rectified
value below such elements is what the bounded rectifier gives.

Main lemmas: `minimum_bound`, with `bound_minimum` for the other order, and
`broadcast_bound`.
-/

namespace CipherFlow

open CipherFlow.Run (Problem Eval Oracle Sampling require sample)
open CipherFlow.Nonlinear (minNumber maxNumber)
open Answering

variable {σ ε : Type}

/-! ## Lanes

A single lane is combined with all lanes of the other list, whatever their number. -/

theorem zipWith_singleton {f : Float → Float → Float} {xs zs : List Float} {y : Float}
    (h : Lanes.zipWith f xs [y] = .ok zs) : zs = xs.map (f · y) := by
  unfold Lanes.zipWith at h
  split at h
  · rename_i length
    obtain ⟨x, rfl⟩ := List.length_eq_one_iff.mp length
    exact (Except.ok.inj h).symm
  · rcases xs with _ | ⟨x, _ | ⟨x', xs⟩⟩
    · exact nomatch h
    · exact (Except.ok.inj h).symm
    · exact (Except.ok.inj h).symm

theorem singleton_zipWith {f : Float → Float → Float} {xs zs : List Float} {y : Float}
    (h : Lanes.zipWith f [y] xs = .ok zs) : zs = xs.map (f y) := by
  unfold Lanes.zipWith at h
  split at h
  · rename_i length
    obtain ⟨x, rfl⟩ := List.length_eq_one_iff.mp length.symm
    exact (Except.ok.inj h).symm
  · rcases xs with _ | ⟨x, xs⟩
    · exact nomatch h
    · exact (Except.ok.inj h).symm

theorem minimum_lanes {xs xs' zs : List Float} {value : Float} (hx : LanesAgree xs xs')
    (hz : LanesAgree zs [value]) :
    Refines LanesAgree (Lanes.zipWith minNumber xs zs) (pure (xs'.map (minNumber · value))) := by
  intro ys hys
  obtain ⟨ys', -, hys', agree⟩ := lanes_refines Agree.minNumber hx hz ys hys
  exact ⟨_, hys, rfl, zipWith_singleton hys' ▸ agree⟩

theorem lanes_minimum {xs xs' zs : List Float} {value : Float} (hx : LanesAgree xs xs')
    (hz : LanesAgree zs [value]) :
    Refines LanesAgree (Lanes.zipWith minNumber zs xs) (pure (xs'.map (minNumber · value))) := by
  intro ys hys
  obtain ⟨ys', -, hys', agree⟩ := lanes_refines Agree.minNumber hz hx ys hys
  refine ⟨_, hys, rfl, ?_⟩
  rw [singleton_zipWith hys'] at agree
  have swap : LanesAgree (xs'.map (minNumber value)) (xs'.map (minNumber · value)) := by
    unfold LanesAgree
    rw [List.forall₂_map_left_iff, List.forall₂_map_right_iff]
    exact List.forall₂_same.mpr fun x _ => minNumber_comm value x
  exact forall₂_trans (R := Agree) (fun _ _ _ => Agree.trans) agree swap

/-! ## Tensors

The elements of the bound may differ in their lanes, but they all agree with one
lane. So the operation with them is a function of the other operand, element by
element. -/

namespace Tensor

open CipherFlow.Element (Compute)

variable {α γ δ : Type} {S : α → γ → Prop} {R : α → δ → Prop} {op : α → α → Compute α}
  {f : γ → Compute δ} {a b : List α} {c : List γ}

theorem zip_related_left (h : List.Forall₂ S a c) (length : a.length = b.length) :
    List.Forall₂ (fun p z => S p.1 z ∧ p.2 ∈ b) (a.zip b) c := by
  induction h generalizing b with
  | nil => exact .nil
  | cons xz _ ih =>
    cases b with
    | nil => exact nomatch length
    | cons y b =>
      refine .cons ⟨xz, List.mem_cons_self⟩ ((ih (Nat.succ.inj length)).imp ?_)
      intro p z h
      exact ⟨h.1, List.mem_cons_of_mem _ h.2⟩

/-- The second operand's elements make no difference to which function of the
first is computed. -/
theorem elementwise_refines_mapM (ha : List.Forall₂ S a c)
    (each : ∀ x z, S x z → ∀ y ∈ b, Refines R (op x y) (f z)) :
    Refines (List.Forall₂ R) (elementwise op a b) (c.mapM f) := by
  unfold elementwise
  split
  · exact throw_bind_refines
  · rename_i length
    exact Refines.mapM (zip_related_left ha (Classical.not_not.mp length))
      fun p z h => each _ _ h.1 _ h.2

/-- The same with the operands exchanged. -/
theorem elementwise_swap_refines_mapM (ha : List.Forall₂ S a c)
    (each : ∀ x z, S x z → ∀ y ∈ b, Refines R (op y x) (f z)) :
    Refines (List.Forall₂ R) (elementwise op b a) (c.mapM f) := by
  unfold elementwise
  split
  · exact throw_bind_refines
  · rename_i length
    have related : List.Forall₂ (fun p z => S p.2 z ∧ p.1 ∈ b) (b.zip a) c := by
      rw [← List.zip_swap, List.forall₂_map_left_iff]
      exact zip_related_left ha (Classical.not_not.mp length).symm
    exact Refines.mapM related fun p z h => each _ _ h.1 _ h.2

/-- What holds of all elements holds of all repeated ones. -/
theorem broadcast_all {P : α → Prop} (h : ∀ x ∈ a, P x) (source target : Shape) :
    Refines (List.Forall₂ fun x y => x = y ∧ P x) (broadcast a source target)
      (broadcast a source target) :=
  broadcast_refines (List.forall₂_same.mpr fun x hx => ⟨rfl, h x hx⟩) source target

end Tensor

namespace Backend

variable {ev : Evaluator} {x y : BatchedTensor} {lanes : List (List Float)} {value : Float}

/-- All elements agree with one number. -/
def AllAgree (x : BatchedTensor) (value : Float) : Prop :=
  ∀ e ∈ x.values, e.Agree (.plain [value])

/-- Elements that agree with one number are plain, with lanes that do. -/
theorem AllAgree.exists_lanes (h : AllAgree y value) :
    ∃ zs : List (List Float), y.values = zs.map .plain ∧ ∀ z ∈ zs, LanesAgree z [value] := by
  have plain : List.Forall₂ Element.Agree y.values y.values :=
    List.forall₂_same.mpr fun e he => (h e he).trans (h e he).symm
  obtain ⟨zs, -, eq, -, -⟩ := CipherFlow.exists_lanes plain
  refine ⟨zs, eq, ?_⟩
  intro z hz
  have he : Element.plain z ∈ y.values := eq ▸ List.mem_map_of_mem hz
  cases h _ he with
  | plain agree => exact agree

theorem exists_lanes_of_map {a : List Element}
    (h : List.Forall₂ Element.Agree a (lanes.map .plain)) :
    ∃ xs : List (List Float), a = xs.map .plain ∧ List.Forall₂ LanesAgree xs lanes := by
  obtain ⟨xs, ys, ex, ey, agree⟩ := CipherFlow.exists_lanes h
  obtain rfl : lanes = ys :=
    List.map_injective_iff.mpr (fun _ _ eq => Element.plain.inj eq) ey
  exact ⟨xs, ex, agree⟩

theorem minimum_plain {xs ys : List (List Float)} (hx : x.values = xs.map .plain)
    (hy : y.values = ys.map .plain) :
    minimum x y = do
      let batch ← commonBatch x y
      let out ← Tensor.elementwise (fun x y => (Lanes.zipWith minNumber x y :)) xs ys
      return (batch, out.map .plain) := by
  unfold minimum
  rw [hx, hy, mapM_plainLanes, mapM_plainLanes]

theorem commonBatch_left : Refines Eq (commonBatch x y) (pure x.batch) := by
  unfold commonBatch
  split
  · exact .pure rfl
  · exact .error

theorem commonBatch_right : Refines Eq (commonBatch y x) (pure x.batch) := by
  unfold commonBatch
  split
  · exact .pure ‹_›
  · exact .error

/-- A common batch size and computed lanes. -/
theorem batch_lanes_refines {first : Except Problem Nat}
    {second : Element.Compute (List (List Float))}
    {batch : Nat} (hfirst : Refines Eq first (pure batch))
    (hsecond : Refines (List.Forall₂ LanesAgree) second (pure lanes)) :
    Refines BatchedAgree
      (do
        let batch ← first
        let out ← second
        return (batch, out.map .plain) : Sampling Batched)
      (pure (batch, lanes.map .plain)) := by
  have rest : ∀ b b', b = b' → Refines BatchedAgree
      ((second : Sampling (List (List Float))) >>= fun out => pure (b, out.map .plain))
      ((pure lanes : Sampling (List (List Float))) >>= fun out => pure (b', out.map .plain)) :=
    fun b b' eq => (compute_refines hsecond).bind fun _ _ out => .pure ⟨eq, agree_map_plain out⟩
  exact (liftProblem_refines hfirst).bind rest

/-- The minimum with elements that agree with one number. -/
theorem minimum_bound (hx : List.Forall₂ Element.Agree x.values (lanes.map .plain))
    (hy : AllAgree y value) :
    Refines BatchedAgree (minimum x y)
      (pure (x.batch, (lanes.map fun l => l.map (minNumber · value)).map .plain)) := by
  obtain ⟨xs, ex, h⟩ := exists_lanes_of_map hx
  obtain ⟨zs, ez, hz⟩ := hy.exists_lanes
  rw [minimum_plain ex ez]
  refine batch_lanes_refines commonBatch_left ?_
  rw [← List.mapM_pure]
  exact Tensor.elementwise_refines_mapM h fun l l' hl z hmem =>
    Tensor.liftFault_refines (minimum_lanes hl (hz z hmem))

/-- The same with the operands exchanged. -/
theorem bound_minimum (hx : List.Forall₂ Element.Agree x.values (lanes.map .plain))
    (hy : AllAgree y value) :
    Refines BatchedAgree (minimum y x)
      (pure (x.batch, (lanes.map fun l => l.map (minNumber · value)).map .plain)) := by
  obtain ⟨xs, ex, h⟩ := exists_lanes_of_map hx
  obtain ⟨zs, ez, hz⟩ := hy.exists_lanes
  rw [minimum_plain ez ex]
  refine batch_lanes_refines commonBatch_right ?_
  rw [← List.mapM_pure]
  exact Tensor.elementwise_swap_refines_mapM h fun l l' hl z hmem =>
    Tensor.liftFault_refines (lanes_minimum hl (hz z hmem))

/-- Elements that agree with one number may be repeated. -/
theorem broadcast_bound (hx : AllAgree x value) (shape : Shape) :
    Refines (fun out _ => out.1 = x.batch ∧ ∀ e ∈ out.2, e.Agree (.plain [value]))
      (broadcast x shape) (broadcast x shape) := by
  refine Refines.bind (liftProblem_refines (Tensor.same_refines _)) ?_
  intro target _ eq
  subst eq
  refine Refines.bind (compute_refines (Tensor.broadcast_all hx _ _)) ?_
  intro out out' h
  refine .pure ⟨rfl, ?_⟩
  intro e he
  obtain ⟨i, lt, rfl⟩ := List.mem_iff_getElem.mp he
  obtain ⟨_, -, -, agree⟩ := Tensor.getElem?_related h (List.getElem?_eq_getElem lt)
  exact agree

end Backend

end CipherFlow
