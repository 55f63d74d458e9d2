import CipherFlow.Proofs.Run.Layout
import CipherFlow.Proofs.Run.Valuation
import CipherFlow.Proofs.Tensor.Progress

/-!
# Evaluation node by node

A node that is not a parameter applies its operation to the values of its
operands and makes a tensor of its type of the outcome. What is to be shown of
a run is shown for one node, given what holds of its operands, and carried
along the order of evaluation from there. There are two such principles: one
for runs that have come to an end, and one for runs of which it is to be shown
that they do.

The principles are `evaluateNodes_good` and `call_settles`. The lemma on one node,
which both of them ask for, is made from `may_evaluateNode`: the input of a
parameter, or what the operation gives.
-/

namespace CipherFlow

open CipherFlow.Run (Problem Eval Oracle Sampling require sample)
open Answering Refusing

namespace Backend

variable {σ ε : Type} {b : Backend} {oracle : Oracle σ ε} {inputs : List BatchedTensor}
  {g : Graph} {n : Node} {values : Values} {t : BatchedTensor} {xs : List BatchedTensor}
  {ts : List TensorType} {Good : NodeId → BatchedTensor → Prop}

/-! ## One node -/

/-- The outcome of an operation on the values of its operands. -/
def operate (b : Backend) (oracle : Oracle σ ε) (n : Node) (xs : List BatchedTensor) :
    Eval σ ε Batched :=
  match n.op, xs with
  | .constant v, [] => return (1, v.map fun x => .plain [x])
  | .broadcast, [x] => sample (broadcast x n.type.shape)
  | .add, [x, y] => sample (sum b.evaluator x y)
  | .multiply, [x, y] => sample (product b.evaluator x y)
  | .minimum, [x, y] => sample (minimum x y)
  | .dot, [x, y] => sample (dot b.evaluator x y)
  | .convolution strides, [x, y] => sample (convolution b.evaluator strides x y)
  | .averagePool window strides, [x] => sample (averagePool b.evaluator window strides x)
  | .relu, [x] => nonlinear oracle .relu x
  | .boundedRelu bound, [x] => nonlinear oracle (.bounded bound) x
  | .rescale, [x] => sample (rescale b.evaluator x)
  | _, _ => throw (.problem (.missingValue 0))

/-- Values of the operands of a node. -/
def Operands (values : Values) (n : Node) (xs : List BatchedTensor) : Prop :=
  List.Forall₂ (fun i x => values.lookup i = some x) n.inputs xs

theorem Operands.operand (h : Operands values n xs) {k : Nat} {x : BatchedTensor}
    (hx : xs[k]? = some x) : operand values n k = .ok x := by
  obtain ⟨i, hi, found⟩ := Tensor.getElem?_related (List.Forall₂.flip h) hx
  exact operand_eq_ok.mpr ⟨i, hi, found⟩

/-- A parameter is bound to its input. -/
theorem evaluateNode_parameter {index : Nat} (op : n.op = .parameter index) :
    b.evaluateNode oracle inputs n values = require (bindParameter inputs index n.type) := by
  unfold evaluateNode
  rw [op]

/-- Other nodes apply their operation to the values of their operands. -/
theorem evaluateNode_eq (gives : n.op.Gives ts n.type) (arity : xs.length = ts.length)
    (operands : Operands values n xs) (computed : n.kind ≠ .parameter) :
    b.evaluateNode oracle inputs n values = b.operate oracle n xs >>= fun out =>
      require (BatchedTensor.ofValues n.type out.1 out.2) := by
  unfold evaluateNode operate
  cases op : n.op <;> rw [op] at gives
  case parameter => exact absurd (congrArg Op.kind op) computed
  case constant =>
    rcases ts with _ | ⟨a, ts⟩ <;> simp only [Op.Gives] at gives
    obtain rfl := List.length_eq_zero_iff.mp arity
    rfl
  case broadcast | averagePool | relu | boundedRelu | rescale =>
    rcases ts with _ | ⟨a, _ | ⟨b, ts⟩⟩ <;> simp only [Op.Gives] at gives
    obtain ⟨x, rfl⟩ := List.length_eq_one_iff.mp arity
    simp only [operands.operand (k := 0) rfl]
    rfl
  case add | multiply | minimum | dot | convolution =>
    rcases ts with _ | ⟨a, _ | ⟨b, _ | ⟨c, ts⟩⟩⟩ <;> simp only [Op.Gives] at gives
    obtain ⟨x, y, rfl⟩ := List.length_eq_two.mp arity
    simp only [operands.operand (k := 0) rfl, operands.operand (k := 1) rfl]
    rfl

/-- A node that has been evaluated had values of its operands. -/
theorem exists_operands (gives : n.op.Gives ts n.type) (arity : n.inputs.length = ts.length)
    (computed : n.kind ≠ .parameter) (h : May (b.evaluateNode oracle inputs n values) t) :
    ∃ xs, Operands values n xs ∧ xs.length = ts.length := by
  unfold evaluateNode at h
  cases op : n.op <;> rw [op] at gives h
  case parameter => exact absurd (congrArg Op.kind op) computed
  case constant =>
    rcases ts with _ | ⟨a, ts⟩ <;> simp only [Op.Gives] at gives
    refine ⟨[], ?_, rfl⟩
    rw [Operands, List.length_eq_zero_iff.mp arity]
    exact .nil
  -- Operands are looked up before anything else is done with a node.
  case broadcast | averagePool | relu | boundedRelu | rescale =>
    rcases ts with _ | ⟨a, _ | ⟨b, ts⟩⟩ <;> simp only [Op.Gives] at gives
    obtain ⟨i, eq⟩ := List.length_eq_one_iff.mp arity
    obtain ⟨x, hx, -⟩ := may_bind h
    obtain ⟨j, hj, found⟩ := operand_eq_ok.mp (eq_ok_of_may_require hx)
    rw [eq] at hj
    obtain rfl := Option.some.inj hj
    refine ⟨[x], ?_, rfl⟩
    rw [Operands, eq]
    exact .cons found .nil
  case add | multiply | minimum | dot | convolution =>
    rcases ts with _ | ⟨a, _ | ⟨b, _ | ⟨c, ts⟩⟩⟩ <;> simp only [Op.Gives] at gives
    obtain ⟨i, j, eq⟩ := List.length_eq_two.mp arity
    obtain ⟨x, hx, h⟩ := may_bind h
    obtain ⟨y, hy, -⟩ := may_bind h
    obtain ⟨i', hi, foundX⟩ := operand_eq_ok.mp (eq_ok_of_may_require hx)
    obtain ⟨j', hj, foundY⟩ := operand_eq_ok.mp (eq_ok_of_may_require hy)
    rw [eq] at hi hj
    obtain rfl := Option.some.inj hi
    obtain rfl := Option.some.inj hj
    refine ⟨[x, y], ?_, rfl⟩
    rw [Operands, eq]
    exact .cons foundX (.cons foundY .nil)

theorem bindParameter_eq_ok {index : Nat} {type : TensorType} :
    bindParameter inputs index type = .ok t ↔ inputs[index]? = some t ∧ t.type = type := by
  unfold bindParameter
  cases h : inputs[index]? with
  | none =>
    simp only [reduceCtorEq, false_and, iff_false]
    intro h
    obtain ⟨_, -, h⟩ := exists_of_bind_eq_ok h
    exact nomatch h
  | some u =>
    by_cases type : u.type = type
    · simp only [type, if_true, Except.ok.injEq, Option.some.injEq]
      exact ⟨fun h => ⟨h, h ▸ type⟩, fun h => h.1⟩
    · simp only [type, if_false, reduceCtorEq, false_iff, Option.some.injEq]
      rintro ⟨rfl, same⟩
      exact type same

theorem exists_index (h : n.kind = .parameter) : ∃ index, n.op = .parameter index := by
  unfold Node.kind at h
  cases op : n.op <;> rw [op] at h <;> first | exact ⟨_, rfl⟩ | exact nomatch h

/-- All that a node can be evaluated to: the input of a parameter, or what its
operation gives for the values of its operands. -/
theorem may_evaluateNode (typed : g.WellTyped n)
    (h : May (b.evaluateNode oracle inputs n values) t) :
    (∃ index, n.op = .parameter index ∧ inputs[index]? = some t ∧ t.type = n.type) ∨
      n.kind ≠ .parameter ∧ ∃ xs out, Operands values n xs ∧ May (b.operate oracle n xs) out ∧
        BatchedTensor.ofValues n.type out.1 out.2 = .ok t := by
  by_cases computed : n.kind = .parameter
  · obtain ⟨index, op⟩ := exists_index computed
    rw [evaluateNode_parameter op] at h
    exact .inl ⟨index, op, bindParameter_eq_ok.mp (eq_ok_of_may_require h)⟩
  · obtain ⟨ts, types, gives⟩ := typed.types
    have arity : n.inputs.length = ts.length := by simpa using congrArg List.length types
    obtain ⟨xs, operands, length⟩ := exists_operands gives arity computed h
    rw [evaluateNode_eq gives length operands computed] at h
    obtain ⟨out, hout, h⟩ := may_bind h
    exact .inr ⟨computed, xs, out, operands, hout, eq_ok_of_may_require h⟩

/-! ## Types of values -/

/-- The value of a node is of its type, whatever the types of the operands. -/
theorem type_of_may (h : May (b.evaluateNode oracle inputs n values) t) : t.type = n.type := by
  have give {out : Batched} (h : May (require (BatchedTensor.ofValues n.type out.1 out.2) :
      Eval σ ε BatchedTensor) t) : t.type = n.type := by
    obtain ⟨-, -, rfl⟩ := BatchedTensor.ofValues_eq_ok_iff.mp (eq_ok_of_may_require h)
    rfl
  unfold evaluateNode at h
  cases op : n.op <;> rw [op] at h
  case parameter => exact (bindParameter_eq_ok.mp (eq_ok_of_may_require h)).2
  case constant => exact give h
  case broadcast | averagePool | rescale | relu | boundedRelu =>
    obtain ⟨x, -, h⟩ := may_bind h
    obtain ⟨out, -, h⟩ := may_bind h
    exact give h
  case add | multiply | minimum | dot | convolution =>
    obtain ⟨x, -, h⟩ := may_bind h
    obtain ⟨y, -, h⟩ := may_bind h
    obtain ⟨out, -, h⟩ := may_bind h
    exact give h

/-- All values that have been computed are of the types of their nodes. -/
def Typed (g : Graph) (values : Values) : Prop :=
  ∀ id t, values.lookup id = some t → g.type? id = some t.type

theorem Typed.cons (typed : Typed g values) {id : NodeId} (hn : g.node? id = some n)
    (h : May (b.evaluateNode oracle inputs n values) t) : Typed g ((id, t) :: values) := by
  intro i u hu
  by_cases eq : i = id
  · subst eq
    obtain rfl := Option.some.inj ((lookup_cons_self i).symm.trans hu)
    rw [Graph.type?_of_node? hn, type_of_may h]
  · rw [lookup_cons_of_ne eq] at hu
    exact typed i u hu

theorem Typed.run {order : List NodeId} {final : Values} (typed : Typed g values)
    (h : May (b.evaluateNodes oracle inputs g order values) final) : Typed g final := by
  induction order generalizing values with
  | nil =>
    obtain rfl := may_pure h
    exact typed
  | cons id order ih =>
    rw [evaluateNodes] at h
    obtain ⟨n, hn, h⟩ := may_bind h
    obtain ⟨t, ht, h⟩ := may_bind h
    exact ih (typed.cons (node?_of_may hn) ht) h

/-- What a run gives for a result is of the type of its node. -/
theorem types_of_call {outs : List BatchedTensor} (h : May (b.call g inputs oracle) outs) :
    List.Forall₂ (fun id t => g.type? id = some (BatchedTensor.type t)) g.results outs := by
  unfold call at h
  split at h
  · obtain ⟨_, failed, -⟩ := may_bind h
    obtain ⟨_, _, failed⟩ := failed
    exact nomatch congrArg Prod.fst failed
  · obtain ⟨order, -, h⟩ := may_bind h
    obtain ⟨final, run, h⟩ := may_bind h
    have start : Typed g [] := fun _ _ h => nomatch List.lookup_nil.symm.trans h
    have typed := start.run run
    refine (mapM_eq_ok_iff.mp (eq_ok_of_may_require h)).imp fun id t found => ?_
    exact typed id t (value_eq_ok.mp found)

/-! ## Runs that have come to an end -/

/-- All operands of a node have values of which something holds. -/
def OperandsGood (Good : NodeId → BatchedTensor → Prop) (values : Values) (n : Node) : Prop :=
  ∀ i ∈ n.inputs, ∃ u, values.lookup i = some u ∧ Good i u

/-- What one node preserves holds of all that have been evaluated. -/
theorem evaluateNodes_good {pre order rest : List NodeId} {final : Values}
    (isOrder : g.IsOrder (pre ++ order ++ rest))
    (done : ∀ i ∈ pre, ∃ u, values.lookup i = some u ∧ Good i u)
    (step : ∀ id n, g.Needed id → g.node? id = some n → ∀ values, OperandsGood Good values n →
      ∀ t, May (b.evaluateNode oracle inputs n values) t → Good id t)
    (h : May (b.evaluateNodes oracle inputs g order values) final) :
    ∀ i ∈ pre ++ order, ∃ u, final.lookup i = some u ∧ Good i u := by
  induction order generalizing pre values with
  | nil =>
    obtain rfl := may_pure h
    simpa using done
  | cons id order ih =>
    rw [evaluateNodes] at h
    obtain ⟨n, hn, h⟩ := may_bind h
    obtain ⟨t, ht, h⟩ := may_bind h
    have hn := node?_of_may hn
    have operands : OperandsGood Good values n := fun i hi => done i
      (isOrder.before pre id (order ++ rest) (by simp) i (Graph.inputs_of_node? hn ▸ hi))
    have needed : g.Needed id := (isOrder.mem_iff id).mp (by simp)
    have good := step id n needed hn values operands t ht
    have next : ∀ i ∈ pre ++ [id], ∃ u, ((id, t) :: values).lookup i = some u ∧ Good i u := by
      intro i hi
      by_cases eq : i = id
      · exact ⟨t, eq ▸ lookup_cons_self i, eq ▸ good⟩
      · rw [lookup_cons_of_ne eq]
        exact done i (by simpa [eq] using hi)
    have all := ih (by simpa using isOrder) next h
    simpa using all

/-! ## Runs that come to an end -/

/-- What a run is refused with if a tensor does not fit into memory. -/
def outOfMemory : Problem :=
  .element Tensor.outOfMemory

theorem evaluateNodes_settles {pre order : List NodeId} {e : Run.Failure ε}
    {room : NodeId → Node → Prop} (isOrder : g.IsOrder (pre ++ order)) (closed : g.Closed)
    (done : ∀ i ∈ pre, ∃ u, values.lookup i = some u ∧ Good i u)
    (step : ∀ id n, g.Needed id → g.node? id = some n → ∀ values, OperandsGood Good values n →
      Settles (room id n) e (Good id) (b.evaluateNode oracle inputs n values)) :
    Settles (∀ id ∈ order, ∀ n, g.node? id = some n → room id n) e
      (fun final => ∀ i ∈ pre ++ order, ∃ u, final.lookup i = some u ∧ Good i u)
      (b.evaluateNodes oracle inputs g order values) := by
  induction order generalizing pre values with
  | nil =>
    exact (Settles.of_must (must_pure values) (by simpa using done)).congr (by simp)
  | cons id order ih =>
    have needed : g.Needed id := (isOrder.mem_iff id).mp (by simp)
    obtain ⟨n, hn⟩ := Graph.isLive_iff.mp (closed.isLive_of_needed needed)
    have operands : OperandsGood Good values n := fun i hi => done i
      (isOrder.before pre id order rfl i (Graph.inputs_of_node? hn ▸ hi))
    have node : Must (require (g.node id) : Eval σ ε Node) n :=
      must_require (by rw [Graph.node_ok hn]; rfl)
    have others : ∀ t, Good id t → Settles (∀ i ∈ order, ∀ n, g.node? i = some n → room i n) e
        (fun final => ∀ i ∈ pre ++ id :: order, ∃ u, final.lookup i = some u ∧ Good i u)
        (b.evaluateNodes oracle inputs g order ((id, t) :: values)) := by
      intro t good
      have next : ∀ i ∈ pre ++ [id], ∃ u, ((id, t) :: values).lookup i = some u ∧ Good i u := by
        intro i hi
        by_cases eq : i = id
        · exact ⟨t, eq ▸ lookup_cons_self i, eq ▸ good⟩
        · rw [lookup_cons_of_ne eq]
          exact done i (by simpa [eq] using hi)
      exact (ih (by simpa using isOrder) next).mono fun final all => by simpa using all
    have both := (step id n needed hn values operands).seq others
    refine (Settles.after node both).congr ?_
    constructor
    · rintro ⟨first, others⟩ i hi m hm
      rcases List.mem_cons.mp hi with rfl | hi
      · obtain rfl := Option.some.inj (hn.symm.trans hm)
        exact first
      · exact others i hi m hm
    · intro all
      exact ⟨all id List.mem_cons_self n hn, fun i hi => all i (List.mem_cons_of_mem _ hi)⟩

/-- Results that have values are found. -/
theorem mapM_value_good {final : Values} {ids : List NodeId}
    (found : ∀ i ∈ ids, ∃ u, final.lookup i = some u ∧ Good i u) :
    ∃ outs, ids.mapM (value final) = .ok outs ∧ List.Forall₂ Good ids outs := by
  have each : ∀ i ∈ ids, ∃ u, Must (value final i) u ∧ Good i u := by
    intro i hi
    obtain ⟨u, hu, good⟩ := found i hi
    exact ⟨u, value_eq_ok.mpr hu, good⟩
  exact must_mapM each

end Backend

/-! ## Memory -/

/-- Operations whose output is tabulated: room for it is set aside first. The
others change elements one by one. -/
def OpKind.tabulates : OpKind → Bool
  | .broadcast | .dot | .convolution | .averagePool => true
  | _ => false

/-- The value of a node, if it is tabulated, fits into memory: 48 bytes for
each element, in less than half of the addresses of a machine word. -/
def Node.Fits (n : Node) : Prop :=
  n.kind.tabulates = true → Shape.elementWidth * n.type.shape.prod < Nat.pow 2 63

/-- Every value that is tabulated on the way to a result fits into memory. -/
def Graph.FitsMemory (g : Graph) : Prop :=
  ∀ id n, g.Needed id → g.node? id = some n → n.Fits

theorem Node.fits_of_not_tabulates {n : Node} (h : n.kind.tabulates = false) : n.Fits :=
  fun yes => nomatch h.symm.trans yes

section Room

variable {σ ε α : Type} {n : Node} {P : α → Prop}

/-- Operations that make no table need no room. -/
theorem Node.settles_of_must {x : Eval σ ε α} {e : Run.Failure ε}
    (notTable : n.kind.tabulates = false) (h : ∃ a, Must x a ∧ P a) : Settles n.Fits e P x := by
  obtain ⟨a, must, ha⟩ := h
  have fits : n.Fits := fits_of_not_tabulates notTable
  exact (Settles.of_must must ha).congr ⟨fun _ => fits, fun _ => trivial⟩

theorem Node.settles_of_sample {x : Sampling α} {e : Run.Failure ε}
    (notTable : n.kind.tabulates = false) (h : ∃ a, Must x a ∧ P a) :
    Settles n.Fits e P (sample x : Eval σ ε α) := by
  obtain ⟨a, must, ha⟩ := h
  exact settles_of_must notTable ⟨a, must_sample must, ha⟩

/-- The others need room for their table. -/
theorem Node.settles_of_table {x : Sampling α} {p : Problem} (table : n.kind.tabulates = true)
    (h : Settles (Tensor.Fits n.type.shape.prod) p P x) :
    Settles n.Fits (.problem p) P (sample x : Eval σ ε α) :=
  h.sample.congr ⟨fun fits _ => fits, fun fits => fits table⟩

end Room

namespace Backend

variable {σ ε : Type} {b : Backend} {oracle : Oracle σ ε} {inputs : List BatchedTensor}
  {g : Graph} {Good : NodeId → BatchedTensor → Prop}

/-- If each node settles, the run settles: with results of which the invariant
holds, unless some tensor on the way does not fit into memory. -/
theorem call_settles (sound : g.Sound) (count : inputs.length = g.parameters.length)
    (step : ∀ id n, g.Needed id → g.node? id = some n → ∀ values, OperandsGood Good values n →
      Settles n.Fits (.problem outOfMemory) (Good id) (b.evaluateNode oracle inputs n values)) :
    Settles g.FitsMemory (.problem outOfMemory) (List.Forall₂ Good g.results)
      (b.call g inputs oracle) := by
  obtain ⟨ids, eq, order⟩ := sound.order
  have nodes : Settles (∀ id ∈ ids, ∀ n, g.node? id = some n → n.Fits) (.problem outOfMemory)
      (fun final => ∀ i ∈ [] ++ ids, ∃ u, final.lookup i = some u ∧ Good i u)
      (b.evaluateNodes oracle inputs g ids []) :=
    evaluateNodes_settles order sound.closed (fun _ h => absurd h List.not_mem_nil) step
  have whole : Settles (∀ id ∈ ids, ∀ n, g.node? id = some n → n.Fits) (.problem outOfMemory)
      (List.Forall₂ Good g.results) (b.call g inputs oracle) := by
    unfold call
    rw [if_neg (not_not_intro count)]
    refine .after (must_require (by rw [eq]; rfl)) (nodes.bind fun final all => ?_)
    obtain ⟨outs, houts, good⟩ := mapM_value_good fun i hi =>
      all i ((order.mem_iff i).mpr (.of_result hi))
    exact ⟨outs, must_require houts, good⟩
  refine whole.congr ⟨?_, ?_⟩
  · exact fun fits id n needed hn => fits id ((order.mem_iff id).mpr needed) n hn
  · exact fun fits id hid n hn => fits id n ((order.mem_iff id).mp hid) hn

end Backend

end CipherFlow
