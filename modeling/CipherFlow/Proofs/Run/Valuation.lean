import CipherFlow.Proofs.Graph.Sound
import CipherFlow.Proofs.Run.Plain

/-!
# Valuations

A valuation gives every node a tensor. It is consistent with a graph if each
node that a result depends on evaluates to its tensor, up to agreement, when
the operands have theirs. On plain inputs a run succeeds exactly if there is a
consistent valuation, whose tensors for the results it then gives. So edits
of a graph can be justified node by node, without looking at runs.

The two directions are `consistent_of_call` and `must_call`. In the first the
valuation is read off the list of values that the run ends with; it is enough that
no value changes once it is there (`kept_cons`). In the second the run is followed
along the order of evaluation (`must_evaluateNodes`).
-/

namespace CipherFlow

open CipherFlow.Run (Problem Eval Oracle require)
open Answering

namespace Backend

variable {σ ε : Type} {b : Backend} {oracle : Oracle σ ε} {inputs : List BatchedTensor}
  {g : Graph} {n n' : Node} {values vals : Values} {val val' : NodeId → BatchedTensor}
  {t t' : BatchedTensor}

/-! ## Operands -/

theorem value_eq_ok {id : NodeId} : value values id = .ok t ↔ values.lookup id = some t := by
  unfold value
  cases values.lookup id <;> simp

theorem operand_eq_ok {k : Nat} :
    operand values n k = .ok t ↔ ∃ i, n.inputs[k]? = some i ∧ values.lookup i = some t := by
  unfold operand Fault.entry
  cases h : n.inputs[k]? with
  | none => simp [liftM, monadLift, MonadLift.monadLift, Except.mapError, bind, Except.bind]
  | some i =>
    show value values i = .ok t ↔ _
    simp [value_eq_ok]

/-- The values of operands under a valuation. -/
def valuesOf (val : NodeId → BatchedTensor) (ids : List NodeId) : Values :=
  ids.map fun i => (i, val i)

theorem lookup_valuesOf {ids : List NodeId} {i : NodeId} (h : i ∈ ids) :
    (valuesOf val ids).lookup i = some (val i) := by
  induction ids with
  | nil => exact absurd h List.not_mem_nil
  | cons j ids ih =>
    rw [valuesOf, List.map_cons, List.lookup_cons]
    by_cases eq : i = j
    · simp [eq]
    · rw [beq_eq_false_iff_ne.mpr eq]
      exact ih ((List.mem_cons.mp h).resolve_left eq)

theorem operand_valuesOf {k : Nat} :
    operand (valuesOf val n.inputs) n k = .ok t ↔ ∃ i, n.inputs[k]? = some i ∧ val i = t := by
  rw [operand_eq_ok]
  refine exists_congr fun i => and_congr_right ?_
  intro hi
  rw [lookup_valuesOf (List.mem_of_getElem? hi), Option.some.injEq]

/-! ## Consistency -/

/-- A node evaluates to a tensor, up to agreement, when its operands have the
tensors of a valuation. -/
def Gives (b : Backend) (oracle : Oracle σ ε) (inputs : List BatchedTensor)
    (val : NodeId → BatchedTensor) (n : Node) (t : BatchedTensor) : Prop :=
  ∃ u, Must (b.evaluateNode oracle inputs n (valuesOf val n.inputs)) u ∧ u.Agree t

/-- Every node that a result depends on evaluates to its tensor. -/
def Consistent (b : Backend) (oracle : Oracle σ ε) (inputs : List BatchedTensor) (g : Graph)
    (val : NodeId → BatchedTensor) : Prop :=
  ∀ id n, g.Needed id → g.node? id = some n → Gives b oracle inputs val n (val id)

theorem Gives.agree (h : Gives b oracle inputs val n t) (agree : t.Agree t') :
    Gives b oracle inputs val n t' := by
  obtain ⟨u, must, hu⟩ := h
  exact ⟨u, must, hu.trans agree⟩

/-- What is answered from every state is answered from some. -/
theorem may_of_must [Nonempty σ] {α : Type} {x : Eval σ ε α} {a : α} (h : Must x a) :
    May x a := by
  obtain ⟨s⟩ := ‹Nonempty σ›
  exact ⟨(default, s), _, h _⟩

theorem must_unique [Nonempty σ] {α : Type} {x : Eval σ ε α} {a a' : α} (h : Must x a)
    (h' : Must x a') : a = a' := by
  obtain ⟨s⟩ := ‹Nonempty σ›
  exact Except.ok.inj (congrArg Prod.fst ((h (default, s)).symm.trans (h' (default, s))))

/-- A node is evaluated from other values, for operands that agree. -/
theorem Gives.refines [Nonempty σ] (plain : ∀ t ∈ inputs, t.Agree t)
    (h : Gives b oracle inputs val n t)
    (op : n'.op = n.op) (type : n'.type = n.type)
    (operands : ∀ k i, n.inputs[k]? = some i →
      ∃ u, operand values n' k = .ok u ∧ (val i).Agree u) :
    ∃ u, Must (b.evaluateNode oracle inputs n' values) u ∧ u.Agree t := by
  obtain ⟨u, must, hu⟩ := h
  have refines : Refines BatchedTensor.Agree
      (b.evaluateNode oracle inputs n (valuesOf val n.inputs))
      (b.evaluateNode oracle inputs n' values) := evaluateNode_refines b oracle plain op type ?_
  · obtain ⟨u', -, must', agree⟩ := refines u (may_of_must must)
    exact ⟨u', must', agree.symm.trans hu⟩
  · intro k x hx
    obtain ⟨i, hi, rfl⟩ := operand_valuesOf.mp hx
    obtain ⟨x', hx', agree⟩ := operands k i hi
    exact ⟨x', hx, hx', agree⟩

/-- Operands may be exchanged for others whose tensors agree. -/
theorem Gives.congr [Nonempty σ] (plain : ∀ t ∈ inputs, t.Agree t)
    (h : Gives b oracle inputs val n t)
    (op : n'.op = n.op) (type : n'.type = n.type)
    (operands : List.Forall₂ (fun i i' => (val i).Agree (val' i')) n.inputs n'.inputs) :
    Gives b oracle inputs val' n' t := by
  refine h.refines plain op type ?_
  intro k i hi
  obtain ⟨i', hi', agree⟩ := Tensor.getElem?_related operands hi
  exact ⟨val' i', operand_valuesOf.mpr ⟨i', hi', rfl⟩, agree⟩

/-! ## Runs -/

theorem node?_of_may {id : NodeId} (h : May (require (g.node id) : Eval σ ε Node) n) :
    g.node? id = some n := by
  have h := eq_ok_of_may_require h
  unfold Graph.node at h
  cases hn : g.node? id with
  | none =>
    rw [hn] at h
    exact nomatch h
  | some m =>
    rw [hn] at h
    exact congrArg some (Except.ok.inj h)

/-- Values that are found in one list are found in another. -/
def Kept (values final : Values) : Prop :=
  ∀ i t, values.lookup i = some t → final.lookup i = some t

/-- All values are plain. -/
def Plain (values : Values) : Prop :=
  ∀ i t, values.lookup i = some t → t.Agree t

theorem lookup_cons_self (id : NodeId) : ((id, t) :: values).lookup id = some t := by
  simp

theorem lookup_cons_of_ne {id i : NodeId} (h : i ≠ id) :
    ((id, t) :: values).lookup i = values.lookup i := by
  rw [List.lookup_cons, beq_eq_false_iff_ne.mpr h]

/-- A new value leaves the others in place. -/
theorem kept_cons {id : NodeId} (new : values.lookup id = none) :
    Kept values ((id, t) :: values) := by
  intro i u hu
  rw [lookup_cons_of_ne, hu]
  rintro rfl
  rw [new] at hu
  exact nomatch hu

theorem Plain.cons {id : NodeId} (h : Plain values) (ht : t.Agree t) :
    Plain ((id, t) :: values) := by
  intro i u hu
  by_cases eq : i = id
  · subst eq
    rw [lookup_cons_self] at hu
    exact Option.some.inj hu ▸ ht
  · rw [lookup_cons_of_ne eq] at hu
    exact h i u hu

/-- From plain values operations make plain values. -/
theorem Plain.evaluateNode (plain : ∀ t ∈ inputs, t.Agree t) (h : Plain values)
    (may : May (b.evaluateNode oracle inputs n values) t) : t.Agree t := by
  have refines : Refines BatchedTensor.Agree (b.evaluateNode oracle inputs n values)
      (b.evaluateNode oracle inputs n values) := evaluateNode_refines b oracle plain rfl rfl ?_
  · obtain ⟨u, -, -, agree⟩ := refines t may
    exact agree.trans agree.symm
  · intro k x hx
    obtain ⟨i, -, hi⟩ := operand_eq_ok.mp hx
    exact ⟨x, hx, hx, h i x hi⟩

/-- A node has been evaluated, from values that have been kept. -/
def Evaluated (b : Backend) (oracle : Oracle σ ε) (inputs : List BatchedTensor) (g : Graph)
    (final : Values) (id : NodeId) : Prop :=
  ∃ n t values, g.node? id = some n ∧ final.lookup id = some t ∧ Kept values final ∧
    Plain values ∧ May (b.evaluateNode oracle inputs n values) t

/-- Each node is evaluated once, and its value stays until the end. -/
theorem evaluateNodes_may (plain : ∀ t ∈ inputs, t.Agree t) {order : List NodeId}
    {final : Values} (h : May (b.evaluateNodes oracle inputs g order values) final)
    (nodup : order.Nodup) (fresh : ∀ id ∈ order, values.lookup id = none)
    (plainValues : Plain values) :
    Kept values final ∧ ∀ id ∈ order, Evaluated b oracle inputs g final id := by
  induction order generalizing values with
  | nil =>
    obtain rfl := may_pure h
    exact ⟨fun _ _ h => h, fun _ h => absurd h List.not_mem_nil⟩
  | cons id order ih =>
    rw [evaluateNodes] at h
    obtain ⟨n, hn, h⟩ := may_bind h
    obtain ⟨t, ht, h⟩ := may_bind h
    obtain ⟨notMem, nodup⟩ := List.nodup_cons.mp nodup
    have new := fresh id List.mem_cons_self
    have fresh' : ∀ i ∈ order, ((id, t) :: values).lookup i = none := by
      intro i hi
      rw [lookup_cons_of_ne (ne_of_mem_of_not_mem hi notMem)]
      exact fresh i (List.mem_cons_of_mem _ hi)
    obtain ⟨kept, evaluated⟩ :=
      ih h nodup fresh' (plainValues.cons (plainValues.evaluateNode plain ht))
    have before : Kept values final := fun i u hu => kept i u (kept_cons new i u hu)
    refine ⟨before, ?_⟩
    intro i hi
    rcases List.mem_cons.mp hi with rfl | hi
    · exact ⟨n, t, values, node?_of_may hn, kept i t (lookup_cons_self i), before, plainValues, ht⟩
    · exact evaluated i hi

/-- The valuation of a list of values, with an empty tensor for other nodes. -/
def valuation (final : Values) (id : NodeId) : BatchedTensor :=
  (final.lookup id).getD ⟨⟨.f64, []⟩, 1, []⟩

theorem valuation_of_lookup {final : Values} {id : NodeId} (h : final.lookup id = some t) :
    valuation final id = t := by
  rw [valuation, h, Option.getD_some]

theorem mapM_value {final : Values} {ids : List NodeId} {outs : List BatchedTensor}
    (h : ids.mapM (value final) = .ok outs) : outs = ids.map (valuation final) := by
  induction ids generalizing outs with
  | nil => exact (Except.ok.inj h).symm
  | cons id ids ih =>
    rw [List.mapM_cons] at h
    obtain ⟨t, ht, h⟩ := exists_of_bind_eq_ok h
    obtain ⟨ts, hts, h⟩ := exists_of_bind_eq_ok h
    rw [← Except.ok.inj h, ih hts, List.map_cons, valuation_of_lookup (value_eq_ok.mp ht)]

/-- A node that has been evaluated is given the tensor of the final values. -/
theorem Evaluated.gives (plain : ∀ t ∈ inputs, t.Agree t) {final : Values} {id : NodeId}
    (h : Evaluated b oracle inputs g final id) (hn : g.node? id = some n) :
    Gives b oracle inputs (valuation final) n (valuation final id) := by
  obtain ⟨m, t, values, hm, ht, kept, plainValues, may⟩ := h
  obtain rfl := Option.some.inj (hn.symm.trans hm)
  rw [valuation_of_lookup ht]
  have refines : Refines BatchedTensor.Agree (b.evaluateNode oracle inputs n values)
      (b.evaluateNode oracle inputs n (valuesOf (valuation final) n.inputs)) :=
    evaluateNode_refines b oracle plain rfl rfl ?_
  · obtain ⟨u, -, must, agree⟩ := refines t may
    exact ⟨u, must, agree.symm⟩
  · intro k x hx
    obtain ⟨i, hi, found⟩ := operand_eq_ok.mp hx
    exact ⟨x, hx, operand_valuesOf.mpr ⟨i, hi, valuation_of_lookup (kept i x found)⟩,
      plainValues i x found⟩

/-- The results of a run that succeeds are the tensors of a consistent
valuation. -/
theorem consistent_of_call (sound : g.Sound) (plain : ∀ t ∈ inputs, t.Agree t)
    {outs : List BatchedTensor} (h : May (b.call g inputs oracle) outs) :
    inputs.length = g.parameters.length ∧
      ∃ val, Consistent b oracle inputs g val ∧ outs = g.results.map val := by
  obtain ⟨ids, eq, order⟩ := sound.order
  unfold call at h
  split at h
  · obtain ⟨_, ⟨_, _, h⟩, -⟩ := may_bind h
    exact nomatch congrArg Prod.fst h
  · rename_i count
    obtain ⟨ids', hids, h⟩ := may_bind h
    obtain ⟨final, hfinal, results⟩ := may_bind h
    obtain rfl : ids = ids' := by
      have hids := eq_ok_of_may_require hids
      rw [eq] at hids
      exact Except.ok.inj hids
    have evaluated := (evaluateNodes_may plain hfinal order.nodup (fun _ _ => rfl)
      fun _ _ found => nomatch found).2
    refine ⟨Classical.not_not.mp count, valuation final, ?_,
      mapM_value (eq_ok_of_may_require results)⟩
    exact fun id n needed hn => (evaluated id ((order.mem_iff id).mpr needed)).gives plain hn

/-- With values that agree with a consistent valuation all nodes of an order
are evaluated. -/
theorem must_evaluateNodes [Nonempty σ] (plain : ∀ t ∈ inputs, t.Agree t)
    (consistent : Consistent b oracle inputs g val) {pre order : List NodeId}
    (isOrder : g.IsOrder (pre ++ order)) (closed : g.Closed)
    (done : ∀ i ∈ pre, ∃ u, values.lookup i = some u ∧ u.Agree (val i)) :
    ∃ final, Must (b.evaluateNodes oracle inputs g order values) final ∧
      ∀ i ∈ pre ++ order, ∃ u, final.lookup i = some u ∧ u.Agree (val i) := by
  induction order generalizing pre values with
  | nil => exact ⟨values, must_pure values, by simpa using done⟩
  | cons id order ih =>
    have needed : g.Needed id := (isOrder.mem_iff id).mp (by simp)
    obtain ⟨n, hn⟩ := Graph.isLive_iff.mp (closed.isLive_of_needed needed)
    have operands : ∀ k i, n.inputs[k]? = some i →
        ∃ u, operand values n k = .ok u ∧ (val i).Agree u := by
      intro k i hi
      have mem : i ∈ g.inputs id := Graph.inputs_of_node? hn ▸ List.mem_of_getElem? hi
      obtain ⟨u, hu, agree⟩ := done i (isOrder.before pre id order rfl i mem)
      exact ⟨u, operand_eq_ok.mpr ⟨i, hi, hu⟩, agree.symm⟩
    obtain ⟨t, ht, agree⟩ := (consistent id n needed hn).refines plain rfl rfl operands
    have step : ∀ i ∈ pre ++ [id],
        ∃ u, ((id, t) :: values).lookup i = some u ∧ u.Agree (val i) := by
      intro i hi
      by_cases eq : i = id
      · subst eq
        exact ⟨t, lookup_cons_self i, agree⟩
      · rw [lookup_cons_of_ne eq]
        exact done i (by simpa [eq] using hi)
    obtain ⟨final, must, all⟩ := ih (by simpa using isOrder) step
    refine ⟨final, ?_, by simpa using all⟩
    exact must_bind (must_require (by rw [Graph.node_ok hn]; rfl)) (must_bind ht must)

/-- Where results have values that agree with a valuation, they are found. -/
theorem mapM_value_ok {final : Values} {ids : List NodeId}
    (found : ∀ i ∈ ids, ∃ u, final.lookup i = some u ∧ u.Agree (val i)) :
    ∃ outs, ids.mapM (value final) = .ok outs ∧
      List.Forall₂ BatchedTensor.Agree outs (ids.map val) := by
  induction ids with
  | nil => exact ⟨[], rfl, .nil⟩
  | cons id ids ih =>
    obtain ⟨t, ht, agree⟩ := found id List.mem_cons_self
    obtain ⟨ts, hts, all⟩ := ih fun i hi => found i (List.mem_cons_of_mem _ hi)
    refine ⟨t :: ts, ?_, .cons agree all⟩
    rw [List.mapM_cons, value_eq_ok.mpr ht, hts]
    rfl

/-- A consistent valuation makes a run succeed. -/
theorem must_call [Nonempty σ] (sound : g.Sound) (plain : ∀ t ∈ inputs, t.Agree t)
    (count : inputs.length = g.parameters.length) (consistent : Consistent b oracle inputs g val) :
    ∃ outs, Must (b.call g inputs oracle) outs ∧
      List.Forall₂ BatchedTensor.Agree outs (g.results.map val) := by
  obtain ⟨ids, eq, order⟩ := sound.order
  have isOrder : g.IsOrder ([] ++ ids) := order
  have done : ∀ i ∈ ([] : List NodeId), ∃ u, ([] : Values).lookup i = some u ∧ u.Agree (val i) :=
    fun _ h => absurd h List.not_mem_nil
  obtain ⟨final, must, all⟩ := must_evaluateNodes plain consistent isOrder sound.closed done
  have found : ∀ i ∈ g.results, ∃ u, final.lookup i = some u ∧ u.Agree (val i) :=
    fun i hi => all i ((order.mem_iff i).mpr (.of_result hi))
  obtain ⟨outs, houts, agree⟩ := mapM_value_ok found
  refine ⟨outs, ?_, agree⟩
  unfold call
  rw [if_neg (not_not_intro count)]
  exact must_bind (must_require (by rw [eq]; rfl)) (must_bind must (must_require houts))

end Backend

end CipherFlow
