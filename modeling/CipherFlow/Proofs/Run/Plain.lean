import CipherFlow.Proofs.Number.Agreement
import CipherFlow.Proofs.Tensor.Parametric
import CipherFlow.Run.Backend

/-!
# Evaluation on plain data

Plain tensors agree if they have one type and batch size, and lanes that
agree. The value of a node depends on those of its operands only up to
agreement: on operands that agree every operation answers alike, without
coins and without the oracle.

`evaluateNode_refines` is the result for nodes, put together from one lemma for each
operation. These follow from `CipherFlow.Proofs.Tensor.Parametric`, for the relation
`Element.Agree`, once sums and products are known to respect it (`add_respects`,
`multiply_respects`).
-/

namespace CipherFlow

open CipherFlow.Run (Problem Eval Oracle Sampling require sample)
open Answering

variable {σ ε : Type}

/-! ## Lanes -/

/-- Lists of lanes that agree lane by lane. -/
abbrev LanesAgree : List Float → List Float → Prop :=
  List.Forall₂ Agree

theorem forall₂_symm {α : Type} {R : α → α → Prop} (symm : ∀ a b, R a b → R b a)
    {xs ys : List α} (h : List.Forall₂ R xs ys) : List.Forall₂ R ys xs := by
  induction h with
  | nil => exact .nil
  | cons ab _ ih => exact .cons (symm _ _ ab) ih

theorem forall₂_trans {α : Type} {R : α → α → Prop} (trans : ∀ a b c, R a b → R b c → R a c)
    {xs ys zs : List α} (h : List.Forall₂ R xs ys) (h' : List.Forall₂ R ys zs) :
    List.Forall₂ R xs zs := by
  induction h generalizing zs with
  | nil => exact h'
  | cons ab _ ih =>
    cases h' with
    | cons bc h' => exact .cons (trans _ _ _ ab bc) (ih h')

theorem zipWith_agree {f : Float → Float → Float}
    (hf : ∀ {x x' y y'}, Agree x x' → Agree y y' → Agree (f x y) (f x' y'))
    {xs xs' ys ys' : List Float} (hx : LanesAgree xs xs') (hy : LanesAgree ys ys') :
    LanesAgree (List.zipWith f xs ys) (List.zipWith f xs' ys') := by
  induction hx generalizing ys ys' with
  | nil => exact .nil
  | cons xx _ ih =>
    cases hy with
    | nil => exact .nil
    | cons yy hy => exact .cons (hf xx yy) (ih hy)

/-- Lanes are combined one with one, or a single lane with each of the others. Lists that
agree are of one length, so both sides take the same branch. -/
theorem lanes_refines {f : Float → Float → Float}
    (hf : ∀ {x x' y y'}, Agree x x' → Agree y y' → Agree (f x y) (f x' y'))
    {xs xs' ys ys' : List Float} (hx : LanesAgree xs xs') (hy : LanesAgree ys ys') :
    Refines LanesAgree (Lanes.zipWith f xs ys) (Lanes.zipWith f xs' ys') := by
  unfold Lanes.zipWith
  rw [hx.length_eq, hy.length_eq]
  split
  · exact .pure (zipWith_agree hf hx hy)
  · -- The lengths differ. Both sides go on only if one list has a single lane.
    rcases hx with _ | ⟨xx, _ | ⟨xx', hx⟩⟩ <;> rcases hy with _ | ⟨yy, _ | ⟨yy', hy⟩⟩
    case cons.nil.cons.nil => exact .pure (.cons (hf xx yy) .nil)
    case cons.nil.cons.cons =>
      exact .pure (List.rel_map (fun _ _ h => hf xx h) (.cons yy (.cons yy' hy)))
    case cons.cons.cons.nil =>
      exact .pure (List.rel_map (fun _ _ h => hf h yy) (.cons xx (.cons xx' hx)))
    all_goals exact .error

/-! ## Elements -/

/-- Plain elements whose lanes agree. -/
inductive Element.Agree : Element → Element → Prop where
  | plain {xs ys : List Float} : LanesAgree xs ys → Element.Agree (.plain xs) (.plain ys)

theorem Element.Agree.symm {a b : Element} (h : a.Agree b) : b.Agree a := by
  cases h with
  | plain h =>
    exact .plain (forall₂_symm (R := CipherFlow.Agree) (fun _ _ => CipherFlow.Agree.symm) h)

theorem Element.Agree.trans {a b c : Element} (h : a.Agree b) (h' : b.Agree c) : a.Agree c := by
  cases h with
  | plain h =>
    cases h' with
    | plain h' =>
      exact .plain
        (forall₂_trans (R := CipherFlow.Agree) (fun _ _ _ => CipherFlow.Agree.trans) h h')

theorem Element.agree_plain (xs : List Float) : Element.Agree (.plain xs) (.plain xs) :=
  .plain (List.forall₂_same.mpr fun x _ => CipherFlow.Agree.refl x)

/-- Elements that agree are given by lanes that agree. -/
theorem exists_lanes {a b : List Element} (h : List.Forall₂ Element.Agree a b) :
    ∃ xs ys, a = xs.map .plain ∧ b = ys.map .plain ∧ List.Forall₂ LanesAgree xs ys := by
  induction h with
  | nil => exact ⟨[], [], rfl, rfl, .nil⟩
  | cons ab _ ih =>
    obtain ⟨xs, ys, rfl, rfl, all⟩ := ih
    cases ab with
    | plain h => exact ⟨_ :: xs, _ :: ys, rfl, rfl, .cons h all⟩

theorem agree_map_plain {xs ys : List (List Float)} (h : List.Forall₂ LanesAgree xs ys) :
    List.Forall₂ Element.Agree (xs.map .plain) (ys.map .plain) :=
  List.rel_map (fun _ _ => .plain) h

/-- Plain elements show their lanes. -/
theorem mapM_plainLanes (xs : List (List Float)) :
    (xs.map Element.plain).mapM Backend.plainLanes? = some xs := by
  induction xs with
  | nil => rfl
  | cons x xs ih => simp [ih, Backend.plainLanes?]

theorem rescaleAll_plain (ev : Evaluator) (xs : List (List Float)) :
    Element.rescaleAll ev (xs.map .plain) = .ok (xs.map .plain) := by
  unfold Element.rescaleAll
  induction xs with
  | nil => rfl
  | cons x xs ih =>
    rw [List.map_cons, List.mapM_cons, ih]
    rfl

theorem cipherElements_plain (xs : List (List Float)) :
    Backend.cipherElements (xs.map .plain) = [] := by
  simp [Backend.cipherElements]

/-- Without encrypted elements no answer is missed. -/
theorem fillAnswers_plain (f : Nonlinear) (xs : List (List Float)) :
    Backend.fillAnswers f (xs.map .plain) [] = xs.map fun lanes => .plain (lanes.map f.apply) := by
  induction xs with
  | nil => rfl
  | cons x xs ih => rw [List.map_cons, Backend.fillAnswers, ih, List.map_cons]

namespace Element

variable (ev : Evaluator)

theorem add_respects : Tensor.Respects Agree (add ev) (add ev) := by
  rintro _ _ ⟨hx⟩ _ _ ⟨hy⟩
  exact Refines.bind (Tensor.liftFault_refines (lanes_refines CipherFlow.Agree.add hx hy))
    fun _ _ h => .pure (.plain h)

theorem multiply_respects : Tensor.Respects Agree (multiply ev) (multiply ev) := by
  rintro _ _ ⟨hx⟩ _ _ ⟨hy⟩
  exact Refines.bind (Tensor.liftFault_refines (lanes_refines CipherFlow.Agree.mul hx hy))
    fun _ _ h => .pure (.plain h)

end Element

/-! ## Tensors

An operation first settles a batch size or a shape, and then computes with elements.
The first step looks at types and batch sizes only, which are equal on both sides,
and the second is an operation on related elements. -/

/-- Plain tensors of one type and batch size whose lanes agree. -/
structure BatchedTensor.Agree (t u : BatchedTensor) : Prop where
  type : t.type = u.type
  batch : t.batch = u.batch
  values : List.Forall₂ Element.Agree t.values u.values

theorem BatchedTensor.Agree.symm {t u : BatchedTensor} (h : t.Agree u) : u.Agree t :=
  ⟨h.type.symm, h.batch.symm,
    forall₂_symm (R := Element.Agree) (fun _ _ => Element.Agree.symm) h.values⟩

theorem BatchedTensor.Agree.trans {t u v : BatchedTensor} (h : t.Agree u) (h' : u.Agree v) :
    t.Agree v :=
  ⟨h.type.trans h'.type, h.batch.trans h'.batch,
    forall₂_trans (R := Element.Agree) (fun _ _ _ => Element.Agree.trans) h.values h'.values⟩

theorem BatchedTensor.Agree.packedShape {t u : BatchedTensor} (h : t.Agree u) :
    t.packedShape = u.packedShape := by
  unfold BatchedTensor.packedShape
  rw [h.type, h.batch]

namespace Backend

variable {ev : Evaluator} {x x' y y' : BatchedTensor}

/-- A batch size, and elements that agree. -/
def BatchedAgree (out out' : Batched) : Prop :=
  out.1 = out'.1 ∧ List.Forall₂ Element.Agree out.2 out'.2

theorem liftProblem_refines {α β : Type} {R : α → β → Prop} {p : Except Problem α}
    {q : Except Problem β} (h : Refines R p q) :
    Refines R (liftM p : Sampling α) (liftM q : Sampling β) :=
  h.lift

theorem compute_refines {α β : Type} {R : α → β → Prop} {p : Element.Compute α}
    {q : Element.Compute β} (h : Refines R p q) :
    Refines R (liftM p : Sampling α) (liftM q : Sampling β) :=
  h.withError _

theorem commonBatch_refines (hx : x.Agree x') (hy : y.Agree y') :
    Refines Eq (commonBatch x y) (commonBatch x' y') := by
  unfold commonBatch
  rw [hx.batch, hy.batch]
  exact Tensor.same_refines _

theorem leadingBatch_refines (hx : x.Agree x') (hy : y.Agree y') :
    Refines Eq (leadingBatch x y) (leadingBatch x' y') := by
  unfold leadingBatch
  rw [hx.batch, hy.batch]
  exact Tensor.same_refines _

theorem sum_refines (hx : x.Agree x') (hy : y.Agree y') :
    Refines BatchedAgree (sum ev x y) (sum ev x' y') :=
  Refines.bind (liftProblem_refines (commonBatch_refines hx hy)) fun _ _ batch =>
    Refines.bind (compute_refines
      (Tensor.elementwise_refines (Element.add_respects ev) hx.values hy.values))
      fun _ _ out => .pure ⟨batch, out⟩

theorem product_refines (hx : x.Agree x') (hy : y.Agree y') :
    Refines BatchedAgree (product ev x y) (product ev x' y') :=
  Refines.bind (liftProblem_refines (commonBatch_refines hx hy)) fun _ _ batch =>
    Refines.bind (compute_refines
      (Tensor.elementwise_refines (Element.multiply_respects ev) hx.values hy.values))
      fun _ _ out => .pure ⟨batch, out⟩

/-- Minima are taken of lanes and not of elements, so the elements are opened first. -/
theorem minimum_refines (hx : x.Agree x') (hy : y.Agree y') :
    Refines BatchedAgree (minimum x y) (minimum x' y') := by
  obtain ⟨xs, xs', ex, ex', hxs⟩ := exists_lanes hx.values
  obtain ⟨ys, ys', ey, ey', hys⟩ := exists_lanes hy.values
  unfold minimum
  rw [ex, ex', ey, ey', mapM_plainLanes, mapM_plainLanes, mapM_plainLanes, mapM_plainLanes]
  refine Refines.bind (liftProblem_refines (commonBatch_refines hx hy)) ?_
  intro _ _ batch
  refine Refines.bind (compute_refines (Tensor.elementwise_refines ?_ hxs hys))
    fun _ _ out => .pure ⟨batch, agree_map_plain out⟩
  exact fun _ _ hx _ _ hy => Tensor.liftFault_refines (lanes_refines Agree.minNumber hx hy)

theorem broadcast_refines (hx : x.Agree x') (shape : Shape) :
    Refines BatchedAgree (broadcast x shape) (broadcast x' shape) := by
  unfold broadcast
  rw [hx.batch, hx.packedShape]
  refine Refines.bind (liftProblem_refines (Tensor.same_refines _)) ?_
  intro target _ eq
  subst eq
  exact Refines.bind (compute_refines (Tensor.broadcast_refines hx.values _ _))
    fun _ _ out => .pure ⟨rfl, out⟩

theorem averagePool_refines (hx : x.Agree x') (window strides : Nat × Nat) :
    Refines BatchedAgree (averagePool ev window strides x) (averagePool ev window strides x') := by
  unfold averagePool Element.averagePool
  rw [hx.batch, hx.packedShape]
  exact Refines.bind (compute_refines (Tensor.windowSums_refines (Element.add_respects ev)
    (Element.multiply_respects ev) (fun _ => Element.agree_plain _) hx.values _ _ _))
    fun _ _ out => .pure ⟨rfl, out⟩

theorem dot_refines (hx : x.Agree x') (hy : y.Agree y') :
    Refines BatchedAgree (dot ev x y) (dot ev x' y') := by
  unfold dot Element.dot
  rw [hx.packedShape, hy.type]
  exact Refines.bind (liftProblem_refines (leadingBatch_refines hx hy)) fun _ _ batch =>
    Refines.bind (compute_refines (Tensor.dot_refines (Element.add_respects ev)
      (Element.multiply_respects ev) hx.values hy.values _ _)) fun _ _ out => .pure ⟨batch, out⟩

theorem convolution_refines (hx : x.Agree x') (hy : y.Agree y') (strides : Nat × Nat) :
    Refines BatchedAgree (convolution ev strides x y) (convolution ev strides x' y') := by
  unfold convolution Element.convolution
  rw [hx.packedShape, hy.type]
  exact Refines.bind (liftProblem_refines (leadingBatch_refines hx hy)) fun _ _ batch =>
    Refines.bind (compute_refines (Tensor.convolution_refines (Element.add_respects ev)
      (Element.multiply_respects ev) hx.values hy.values _ _ _)) fun _ _ out => .pure ⟨batch, out⟩

/-- Rescaling does nothing to plain elements. -/
theorem must_rescale (plain : x.Agree x) : Must (rescale ev x) (x.batch, x.values) := by
  obtain ⟨xs, -, ex, -, -⟩ := exists_lanes plain.values
  intro c
  simp only [rescale, ex, rescaleAll_plain]
  rfl

theorem rescale_refines (hx : x.Agree x') :
    Refines BatchedAgree (rescale ev x) (rescale ev x') := by
  intro out hout
  obtain ⟨c, c', hout⟩ := hout
  have must : Must (rescale ev x) (x.batch, x.values) := must_rescale (hx.trans hx.symm)
  obtain rfl : (x.batch, x.values) = out :=
    congrArg Prod.fst (Except.ok.inj ((must c).symm.trans hout))
  exact ⟨_, must, must_rescale (hx.symm.trans hx), hx.batch, hx.values⟩

/-- A nonlinear function is computed in place, lane by lane. -/
theorem nonlinear_plain (oracle : Oracle σ ε) (f : Nonlinear) {xs : List (List Float)}
    (hx : x.values = xs.map .plain) :
    nonlinear oracle f x = pure (x.batch, xs.map fun lanes => .plain (lanes.map f.apply)) := by
  unfold nonlinear
  rw [hx, cipherElements_plain, ← fillAnswers_plain]
  rfl

theorem apply_agree (f : Nonlinear) {a b : Float} (h : Agree a b) :
    Agree (f.apply a) (f.apply b) := by
  cases f with
  | relu => exact h.maxNumber (.refl 0)
  | bounded bound => exact (h.maxNumber (.refl 0)).minNumber (.refl bound)

theorem map_apply_agree (f : Nonlinear) {xs ys : List Float} (h : LanesAgree xs ys) :
    LanesAgree (xs.map f.apply) (ys.map f.apply) := by
  unfold LanesAgree
  rw [List.forall₂_map_left_iff, List.forall₂_map_right_iff]
  exact h.imp fun _ _ => apply_agree f

theorem nonlinear_refines (oracle : Oracle σ ε) (f : Nonlinear) (hx : x.Agree x') :
    Refines BatchedAgree (nonlinear oracle f x) (nonlinear oracle f x') := by
  obtain ⟨xs, ys, ex, ey, h⟩ := exists_lanes hx.values
  rw [nonlinear_plain oracle f ex, nonlinear_plain oracle f ey]
  refine .pure ⟨hx.batch, ?_⟩
  rw [List.forall₂_map_left_iff, List.forall₂_map_right_iff]
  exact h.imp fun _ _ lanes => .plain (map_apply_agree f lanes)

/-! ## Nodes -/

/-- Whether elements make a tensor depends on how many they are. -/
theorem ofValues_refines (type : TensorType) {out out' : Batched} (h : BatchedAgree out out') :
    Refines BatchedTensor.Agree (BatchedTensor.ofValues type out.1 out.2)
      (BatchedTensor.ofValues type out'.1 out'.2) := by
  unfold BatchedTensor.ofValues
  rw [h.1, h.2.length_eq]
  split
  · exact Refines.error.bind fun _ _ h => h
  · refine Refines.bind (Tensor.same_refines _) ?_
    intro packed _ eq
    subst eq
    split
    · exact Refines.error.bind fun _ _ h => h
    · exact .pure ⟨rfl, rfl, h.2⟩

/-- An input is bound as it is. That it agrees with itself says that it is plain. -/
theorem bindParameter_refines {inputs : List BatchedTensor} (plain : ∀ t ∈ inputs, t.Agree t)
    (index : Nat) (type : TensorType) :
    Refines BatchedTensor.Agree (bindParameter inputs index type)
      (bindParameter inputs index type) := by
  intro t ht
  refine ⟨t, ht, ht, plain t ?_⟩
  unfold bindParameter at ht
  cases hx : inputs[index]? with
  | none =>
    simp only [hx] at ht
    obtain ⟨_, -, ht⟩ := exists_of_bind_eq_ok ht
    exact nomatch ht
  | some x =>
    simp only [hx] at ht
    split at ht
    · obtain rfl := Except.ok.inj ht
      exact List.mem_of_getElem? hx
    · exact nomatch ht

/-- Nodes with one operation and one type, of operands that agree, are evaluated to
tensors that agree. -/
theorem evaluateNode_refines (b : Backend) (oracle : Oracle σ ε) {inputs : List BatchedTensor}
    (plain : ∀ t ∈ inputs, t.Agree t) {n n' : Node} {values values' : Values}
    (op : n'.op = n.op) (type : n'.type = n.type)
    (operands : ∀ i, Refines BatchedTensor.Agree (operand values n i) (operand values' n' i)) :
    Refines BatchedTensor.Agree (b.evaluateNode oracle inputs n values)
      (b.evaluateNode oracle inputs n' values') := by
  -- All operations of one operand are followed alike, and so are those of two.
  have unary : ∀ {f f' : BatchedTensor → Eval σ ε Batched},
      (∀ x x', BatchedTensor.Agree x x' → Refines BatchedAgree (f x) (f' x')) →
      Refines BatchedTensor.Agree
        (require (operand values n 0) >>= fun x => f x >>= fun out =>
          require (BatchedTensor.ofValues n.type out.1 out.2))
        (require (operand values' n' 0) >>= fun x => f' x >>= fun out =>
          require (BatchedTensor.ofValues n.type out.1 out.2)) := fun hf =>
    (operands 0).require.bind fun x x' hx => (hf x x' hx).bind fun out out' h =>
      (ofValues_refines n.type h).require
  have binary : ∀ {f f' : BatchedTensor → BatchedTensor → Sampling Batched},
      (∀ x x', BatchedTensor.Agree x x' → ∀ y y', BatchedTensor.Agree y y' →
        Refines BatchedAgree (f x y) (f' x' y')) →
      Refines BatchedTensor.Agree
        (require (operand values n 0) >>= fun x => require (operand values n 1) >>= fun y =>
          (sample (f x y) : Eval σ ε Batched) >>= fun out =>
          require (BatchedTensor.ofValues n.type out.1 out.2))
        (require (operand values' n' 0) >>= fun x => require (operand values' n' 1) >>= fun y =>
          (sample (f' x y) : Eval σ ε Batched) >>= fun out =>
          require (BatchedTensor.ofValues n.type out.1 out.2)) := fun hf =>
    (operands 0).require.bind fun x x' hx => (operands 1).require.bind fun y y' hy =>
      (hf x x' hx y y' hy).sample.bind fun out out' h => (ofValues_refines n.type h).require
  unfold evaluateNode
  rw [op, type]
  cases n.op with
  | parameter index => exact (bindParameter_refines plain index n.type).require
  | constant xs =>
    refine (ofValues_refines n.type ⟨rfl, List.forall₂_same.mpr ?_⟩).require
    intro e he
    obtain ⟨v, -, rfl⟩ := List.mem_map.mp he
    exact Element.agree_plain [v]
  | broadcast => exact unary fun x x' hx => (broadcast_refines hx n.type.shape).sample
  | add => exact binary fun x x' hx y y' hy => sum_refines hx hy
  | multiply => exact binary fun x x' hx y y' hy => product_refines hx hy
  | minimum => exact binary fun x x' hx y y' hy => minimum_refines hx hy
  | dot => exact binary fun x x' hx y y' hy => dot_refines hx hy
  | convolution strides => exact binary fun x x' hx y y' hy => convolution_refines hx hy strides
  | averagePool window strides =>
    exact unary fun x x' hx => (averagePool_refines hx window strides).sample
  | relu => exact unary fun x x' hx => nonlinear_refines oracle .relu hx
  | boundedRelu bound => exact unary fun x x' hx => nonlinear_refines oracle (.bounded bound) hx
  | rescale => exact unary fun x x' hx => (rescale_refines hx).sample

end Backend

end CipherFlow
