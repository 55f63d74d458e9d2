import CipherFlow.Proofs.Normalize.Change
import CipherFlow.Proofs.Run.Clamping
import CipherFlow.Proofs.Run.Layout
import CipherFlow.Proofs.Run.Valuation

/-!
# Nodes that stand for others

On plain data a node that stands for another evaluates to the same tensor.
Rescalings do nothing, as long as what they rescale has been computed: only
an input could be a tensor that does not fit its type. The bounded rectifier
is the minimum of a rectified value and elements that agree with the bound.

`Consistent.standsFor` is the result, with one case for each way of standing for a
node. That a tensor has been computed, and was not merely given, is `Gives.made`:
for such tensors rescaling checks nothing that could fail.
-/

namespace CipherFlow

open CipherFlow.Run (Problem Eval Oracle Sampling require sample)
open CipherFlow.Graph (Uniform StandsFor Rescales Bounds Clamps)
open Answering

namespace Backend

variable {σ ε : Type} {b : Backend} {oracle : Oracle σ ε} {inputs : List BatchedTensor}
  {g : Graph} {n n' : Node} {values : Values} {val : NodeId → BatchedTensor}
  {t u x y : BatchedTensor} {old new : NodeId}

/-! ## Single nodes

What one node computes, when its operands are known. -/

theorem evaluateNode_rescale (op : n.op = .rescale) (hx : operand values n 0 = .ok x) :
    b.evaluateNode oracle inputs n values =
      (sample (rescale b.evaluator x) : Eval σ ε Batched) >>= fun out =>
        require (BatchedTensor.ofValues n.type out.1 out.2) := by
  simp only [evaluateNode, op, hx]
  rfl

theorem evaluateNode_broadcast (op : n.op = .broadcast) (hx : operand values n 0 = .ok x) :
    b.evaluateNode oracle inputs n values =
      (sample (broadcast x n.type.shape) : Eval σ ε Batched) >>= fun out =>
        require (BatchedTensor.ofValues n.type out.1 out.2) := by
  simp only [evaluateNode, op, hx]
  rfl

theorem evaluateNode_minimum (op : n.op = .minimum) (hx : operand values n 0 = .ok x)
    (hy : operand values n 1 = .ok y) :
    b.evaluateNode oracle inputs n values =
      (sample (minimum x y) : Eval σ ε Batched) >>= fun out =>
        require (BatchedTensor.ofValues n.type out.1 out.2) := by
  simp only [evaluateNode, op, hx, hy]
  rfl

theorem evaluateNode_nonlinear {f : Nonlinear} {lanes : List (List Float)}
    (op : n.op = .relu ∧ f = .relu ∨ ∃ bound, n.op = .boundedRelu bound ∧ f = .bounded bound)
    (hx : operand values n 0 = .ok x) (plain : x.values = lanes.map .plain) :
    b.evaluateNode oracle inputs n values = require (BatchedTensor.ofValues n.type x.batch
      ((lanes.map fun l => l.map f.apply).map .plain)) := by
  have answer := nonlinear_plain oracle f plain
  rw [List.map_map]
  rcases op with ⟨op, rfl⟩ | ⟨bound, op, rfl⟩
  all_goals
    simp only [evaluateNode, op, hx]
    change (nonlinear oracle _ x >>= fun out =>
      require (BatchedTensor.ofValues n.type out.1 out.2)) = _
    rw [answer]
    rfl

theorem evaluateNode_constant {xs : List Float} (op : n.op = .constant xs) :
    b.evaluateNode oracle inputs n values =
      require (BatchedTensor.ofValues n.type 1 (xs.map fun x => .plain [x])) := by
  unfold evaluateNode
  rw [op]

/-! ## Tensors that have been computed -/

theorem eq_of_ofValues {type : TensorType} {batch : Nat} {elements : List Element}
    (h : BatchedTensor.ofValues type batch elements = .ok t) : t = ⟨type, batch, elements⟩ :=
  (BatchedTensor.ofValues_eq_ok_iff.mp h).2.2

/-- A tensor that a node has computed is made of the node's type. -/
theorem made_of_may (h : May (b.evaluateNode oracle inputs n values) t)
    (computed : n.kind ≠ .parameter) : ∃ out : Batched,
      BatchedTensor.ofValues n.type out.1 out.2 = .ok t := by
  unfold evaluateNode at h
  cases op : n.op <;> rw [op] at h
  -- An input is bound as it is. All other operations end with making a tensor.
  case parameter => exact absurd (congrArg Op.kind op) computed
  case constant => exact ⟨_, eq_ok_of_may_require h⟩
  case broadcast | averagePool | relu | boundedRelu | rescale =>
    obtain ⟨x, -, h⟩ := may_bind h
    obtain ⟨out, -, h⟩ := may_bind h
    exact ⟨out, eq_ok_of_may_require h⟩
  case add | multiply | minimum | dot | convolution =>
    obtain ⟨x, -, h⟩ := may_bind h
    obtain ⟨y, -, h⟩ := may_bind h
    obtain ⟨out, -, h⟩ := may_bind h
    exact ⟨out, eq_ok_of_may_require h⟩

/-- So is every tensor that agrees with it. -/
theorem Gives.made [Nonempty σ] (h : Gives b oracle inputs val n t)
    (computed : n.kind ≠ .parameter) :
    t.type = n.type ∧ BatchedTensor.ofValues n.type t.batch t.values = .ok t := by
  obtain ⟨u, must, agree⟩ := h
  obtain ⟨out, made⟩ := made_of_may (may_of_must must) computed
  have eq := eq_of_ofValues made
  have type : t.type = n.type := by rw [← agree.type, eq]
  have related : BatchedAgree out (t.batch, t.values) := by
    subst eq
    exact ⟨agree.batch, agree.values⟩
  obtain ⟨t', -, made', -⟩ := ofValues_refines n.type related u made
  have made' : BatchedTensor.ofValues n.type t.batch t.values = .ok t' := made'
  refine ⟨type, made'.trans ?_⟩
  rw [eq_of_ofValues made', ← type]

theorem Gives.plain (h : Gives b oracle inputs val n t) : t.Agree t := by
  obtain ⟨u, -, agree⟩ := h
  exact agree.symm.trans agree

/-- A node gives one tensor, up to agreement. -/
theorem Gives.unique [Nonempty σ] (h : Gives b oracle inputs val n t)
    (h' : Gives b oracle inputs val n u) : t.Agree u := by
  obtain ⟨t', must, ht⟩ := h
  obtain ⟨u', must', hu⟩ := h'
  obtain rfl : t' = u' := must_unique must must'
  exact ht.symm.trans hu

/-! ## Rescalings -/

/-- A rescaling of a tensor that has been made gives this tensor. -/
theorem gives_rescale (op : n.op = .rescale) {i : NodeId} (operands : n.inputs = [i])
    (plain : (val i).Agree (val i))
    (made : BatchedTensor.ofValues n.type (val i).batch (val i).values = .ok (val i)) :
    Gives b oracle inputs val n (val i) := by
  have hx : operand (valuesOf val n.inputs) n 0 = .ok (val i) :=
    operand_valuesOf.mpr ⟨i, by rw [operands]; rfl, rfl⟩
  refine ⟨val i, ?_, plain⟩
  rw [evaluateNode_rescale op hx]
  exact must_bind (must_sample (must_rescale plain)) (must_require made)

/-- An operation without parameters is told by its kind. -/
theorem op_eq_of_kind {op op' : Op} (h : op.kind = op'.kind)
    (bare : op'.kind ∈ [.rescale, .minimum, .relu, .broadcast]) : op = op' := by
  cases op' <;> simp only [Op.kind, List.mem_cons, List.not_mem_nil, reduceCtorEq, or_self] at bare
  all_goals cases op <;> first | rfl | cases h

theorem node_of_rescales (hn : g.node? new = some n) {i : NodeId} (h : g.Rescales new i) :
    n.op = .rescale ∧ n.inputs = [i] :=
  ⟨op_eq_of_kind (Option.some.inj ((Graph.kind?_of_node? hn).symm.trans h.kind)) (by decide),
    (Graph.inputs_of_node? hn).symm.trans h.inputs⟩

theorem Consistent.plain (consistent : Consistent b oracle inputs g val) (sound : g.Sound)
    {id : NodeId} (needed : g.Needed id) : (val id).Agree (val id) := by
  obtain ⟨n, hn⟩ := Graph.isLive_iff.mp (sound.closed.isLive_of_needed needed)
  exact (consistent id n needed hn).plain

variable [Nonempty σ]

/-- A rescaling of a computed node gives the tensor of this node. -/
theorem Consistent.rescales (consistent : Consistent b oracle inputs g val) (sound : g.Sound)
    {k i : NodeId} (hn : g.node? k = some n) (h : g.Rescales k i) (needed : g.Needed i)
    (computed : g.kind? i ≠ some .parameter) : Gives b oracle inputs val n (val i) := by
  obtain ⟨m, hm⟩ := Graph.isLive_iff.mp (sound.closed.isLive_of_needed needed)
  have notParameter : m.kind ≠ .parameter := fun eq => computed (eq ▸ Graph.kind?_of_node? hm)
  have made := ((consistent i m needed hm).made notParameter).2
  have type : m.type = n.type := by
    have types := h.type? sound
    rw [Graph.type?_of_node? hm, Graph.type?_of_node? hn] at types
    exact Option.some.inj types
  obtain ⟨op, operands⟩ := node_of_rescales hn h
  exact gives_rescale op operands (consistent.plain sound needed) (type ▸ made)

/-- Rescalings of one node give one tensor. -/
theorem Consistent.sameOperand (consistent : Consistent b oracle inputs g val) (sound : g.Sound)
    (plain : ∀ t ∈ inputs, t.Agree t) {i : NodeId} (ho : g.Rescales old i)
    (h : g.Rescales new i) (needed : g.Needed old) (hn : g.node? new = some n) :
    Gives b oracle inputs val n (val old) := by
  obtain ⟨m, hm⟩ := Graph.isLive_iff.mp (sound.closed.isLive_of_needed needed)
  obtain ⟨opM, operandM⟩ := node_of_rescales hm ho
  obtain ⟨opN, operandN⟩ := node_of_rescales hn h
  have type : n.type = m.type := by
    have types := (h.type? sound).symm.trans (ho.type? sound)
    rw [Graph.type?_of_node? hm, Graph.type?_of_node? hn] at types
    exact Option.some.inj types
  refine (consistent old m needed hm).congr plain (opN.trans opM.symm) type ?_
  rw [operandM, operandN]
  exact .cons (consistent.plain sound (needed.tail ho.mem_inputs)) .nil

/-! ## Clamped values

Both sides of the exchange are followed to lanes: a rectifier, then a minimum with
elements that agree with one number; and the bounded rectifier, which does both for
each lane. That bounds are only known up to agreement is why tensors are, too. -/

/-- The tensor of a rectifier, up to agreement. -/
theorem Gives.relu {i : NodeId} (op : n.op = .relu) (operands : n.inputs = [i])
    {lanes : List (List Float)} (hx : (val i).values = lanes.map .plain)
    (h : Gives b oracle inputs val n t) : t.batch = (val i).batch ∧
      List.Forall₂ Element.Agree t.values
        ((lanes.map fun l => l.map Nonlinear.relu.apply).map .plain) := by
  obtain ⟨u, must, agree⟩ := h
  have operand : operand (valuesOf val n.inputs) n 0 = .ok (val i) :=
    operand_valuesOf.mpr ⟨i, by rw [operands]; rfl, rfl⟩
  rw [evaluateNode_nonlinear (.inl ⟨op, rfl⟩) operand hx] at must
  obtain rfl := eq_of_ofValues (eq_ok_of_may_require (may_of_must must))
  exact ⟨agree.batch.symm, agree.symm.values⟩

/-- The elements of a constant agree with each of its values, if these
compare equal. -/
theorem Gives.constant {values : List Float} {value : Float} (op : n.op = .constant values)
    (uniform : Uniform values value) (h : Gives b oracle inputs val n t) : AllAgree t value := by
  obtain ⟨u, must, agree⟩ := h
  rw [evaluateNode_constant op] at must
  obtain rfl := eq_of_ofValues (eq_ok_of_may_require (may_of_must must))
  intro e he
  obtain ⟨i, lt, rfl⟩ := List.mem_iff_getElem.mp he
  obtain ⟨e', he', related⟩ :=
    Tensor.getElem?_related agree.symm.values (List.getElem?_eq_getElem lt)
  obtain ⟨v, hv, rfl⟩ := List.mem_map.mp (List.mem_of_getElem? he')
  exact related.trans (.plain (.cons (agree_of_beq (uniform.2 v hv)) .nil))

/-- Repeated elements agree with the same number. -/
theorem Gives.broadcast {i : NodeId} {value : Float} (op : n.op = .broadcast)
    (operands : n.inputs = [i]) (hi : AllAgree (val i) value)
    (h : Gives b oracle inputs val n t) : AllAgree t value := by
  obtain ⟨u, must, agree⟩ := h
  have operand : operand (valuesOf val n.inputs) n 0 = .ok (val i) :=
    operand_valuesOf.mpr ⟨i, by rw [operands]; rfl, rfl⟩
  rw [evaluateNode_broadcast op operand] at must
  obtain ⟨out, hout, made⟩ := may_bind (may_of_must must)
  obtain rfl := eq_of_ofValues (eq_ok_of_may_require made)
  obtain ⟨_, -, -, -, all⟩ := (broadcast_bound hi n.type.shape).sample out hout
  intro e he
  obtain ⟨j, lt, rfl⟩ := List.mem_iff_getElem.mp he
  obtain ⟨e', he', related⟩ :=
    Tensor.getElem?_related agree.symm.values (List.getElem?_eq_getElem lt)
  exact related.trans (all e' (List.mem_of_getElem? he'))

/-- A minimum with one number gives what the bounded rectifier does. -/
theorem gives_boundedRelu {r c i : NodeId} {value : Float} {lanes : List (List Float)}
    (op : n.op = .minimum) (operands : n.inputs = [r, c] ∨ n.inputs = [c, r])
    (op' : n'.op = .boundedRelu (.ofFloat value)) (operand' : n'.inputs = [i])
    (type : n'.type = n.type) (hi : (val i).values = lanes.map .plain)
    (batch : (val r).batch = (val i).batch)
    (relu : List.Forall₂ Element.Agree (val r).values
      ((lanes.map fun l => l.map Nonlinear.relu.apply).map .plain))
    (bound : AllAgree (val c) value) (h : Gives b oracle inputs val n t) :
    Gives b oracle inputs val n' t := by
  obtain ⟨u, must, agree⟩ := h
  have hx : operand (valuesOf val n'.inputs) n' 0 = .ok (val i) :=
    operand_valuesOf.mpr ⟨i, by rw [operand']; rfl, rfl⟩
  have same : (lanes.map fun l => l.map Nonlinear.relu.apply).map
      (fun l => l.map (Nonlinear.minNumber · value)) =
      lanes.map fun l => l.map (Nonlinear.bounded (.ofFloat value)).apply := by
    simp only [List.map_map]
    refine List.map_congr_left ?_
    intro l _
    rw [Function.comp_apply, List.map_map]
    refine List.map_congr_left ?_
    intro y _
    show _ = Nonlinear.minNumber _ (Binary64.ofFloat value).toFloat
    rw [toFloat_ofFloat]
    rfl
  -- Whichever operand comes first, the minimum refines what the bounded rectifier computes.
  have refines : ∀ first : Sampling Batched, Refines BatchedAgree first (pure ((val i).batch,
      (lanes.map fun l => l.map (Nonlinear.bounded (.ofFloat value)).apply).map .plain)) →
      May ((sample first : Eval σ ε Batched) >>= fun out =>
        require (BatchedTensor.ofValues n.type out.1 out.2)) u →
      Gives b oracle inputs val n' t := by
    intro first hfirst may
    obtain ⟨u', -, must', agree'⟩ := hfirst.sample.bind
      (fun out out' h => (ofValues_refines n.type h).require) u may
    refine ⟨u', ?_, agree'.symm.trans agree⟩
    rw [evaluateNode_nonlinear (.inr ⟨_, op', rfl⟩) hx hi, type]
    exact must'
  rw [← same, ← batch] at refines
  rcases operands with eq | eq
  · rw [evaluateNode_minimum op (operand_valuesOf.mpr ⟨r, by rw [eq]; rfl, rfl⟩)
      (operand_valuesOf.mpr ⟨c, by rw [eq]; rfl, rfl⟩)] at must
    exact refines _ (minimum_bound relu bound) (may_of_must must)
  · rw [evaluateNode_minimum op (operand_valuesOf.mpr ⟨c, by rw [eq]; rfl, rfl⟩)
      (operand_valuesOf.mpr ⟨r, by rw [eq]; rfl, rfl⟩)] at must
    exact refines _ (bound_minimum relu bound) (may_of_must must)

theorem Consistent.clamps (consistent : Consistent b oracle inputs g val) (sound : g.Sound)
    {m r c i k : NodeId} {type : TensorType} {values : List Float} {value : Float}
    (h : g.Clamps m r c i k type values) (uniform : Uniform values value) (needed : g.Needed m) :
    Gives b oracle inputs val ⟨.boundedRelu (.ofFloat value), type, [i], 1⟩ (val m) := by
  obtain ⟨nm, hm, km⟩ := Graph.kind?_eq_some.mp h.minimum
  obtain ⟨nr, hr, kr⟩ := Graph.kind?_eq_some.mp h.relu
  have neededR : g.Needed r := needed.tail h.relu_mem
  have neededC : g.Needed c := needed.tail h.bound_mem
  have neededI : g.Needed i := neededR.tail (by rw [h.rectified]; exact List.mem_singleton_self i)
  obtain ⟨lanes, -, hi, -, -⟩ := exists_lanes (consistent.plain sound neededI).values
  have operandR : nr.inputs = [i] := (Graph.inputs_of_node? hr).symm.trans h.rectified
  obtain ⟨batch, relu⟩ :=
    (consistent r nr neededR hr).relu (op_eq_of_kind kr (by decide)) operandR hi
  have bound : AllAgree (val c) value := by
    rcases h.repeated with rfl | ⟨kind, operandC⟩
    · exact (consistent c _ neededC h.constant).constant rfl uniform
    · obtain ⟨nc, hc, kc⟩ := Graph.kind?_eq_some.mp kind
      have neededK : g.Needed k := neededC.tail (by rw [operandC]; exact List.mem_singleton_self k)
      have constant := (consistent k _ neededK h.constant).constant rfl uniform
      exact (consistent c nc neededC hc).broadcast (op_eq_of_kind kc (by decide))
        ((Graph.inputs_of_node? hc).symm.trans operandC) constant
  have typeM : type = nm.type := by
    have types := (h.type?_minimum sound).1
    rw [Graph.type?_of_node? hm, h.type] at types
    exact (Option.some.inj types).symm
  have operandsM : nm.inputs = [r, c] ∨ nm.inputs = [c, r] := by
    rw [← Graph.inputs_of_node? hm]
    exact h.operands
  exact gives_boundedRelu (op_eq_of_kind km (by decide)) operandsM rfl rfl typeM hi batch relu bound
    (consistent m nm needed hm)

/-! ## Nodes in the place of others -/

/-- A node that stands for another gives the tensor of this one. -/
theorem Consistent.standsFor (consistent : Consistent b oracle inputs g val) (sound : g.Sound)
    (plain : ∀ t ∈ inputs, t.Agree t) (stands : g.StandsFor new old) (needed : g.Needed old)
    (hn : g.node? new = some n) : Gives b oracle inputs val n (val old) := by
  cases stands with
  | rescaling h product =>
    obtain ⟨kind, hk, product⟩ := product
    refine consistent.rescales sound hn h needed ?_
    rw [hk]
    rintro ⟨⟩
    exact nomatch product
  | duplicate ho h => exact consistent.sameOperand sound plain ho h needed hn
  | merged ho hr h =>
    rename_i r x
    have neededR : g.Needed r := needed.tail ho.mem_inputs
    have computed : g.kind? r ≠ some .parameter := by
      rw [hr.kind]
      exact fun eq => nomatch eq
    obtain ⟨m, hm⟩ := Graph.isLive_iff.mp (sound.closed.isLive_of_needed needed)
    have agree : (val r).Agree (val old) :=
      (consistent.rescales sound hm ho neededR computed).unique (consistent old m needed hm)
    exact (consistent.sameOperand sound plain hr h neededR hn).agree agree
  | clamped h uniform node =>
    obtain rfl := Option.some.inj (hn.symm.trans node)
    exact consistent.clamps sound h uniform needed

end Backend

end CipherFlow
