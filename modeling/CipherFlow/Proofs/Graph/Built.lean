import CipherFlow.Proofs.Fault
import CipherFlow.Proofs.Graph.Sound

/-!
# Graphs made with the building functions

A command is one call of a building function. The graphs that are built from
the empty one by commands that succeed are sound: each function appends a
node of the type that it infers from the operands.

Main lemma: `Built.sound`, from `Command.grown`, which says of all commands alike
what a successful one does, and `Sound.grown`, which shows that this keeps the
invariant.
-/

namespace CipherFlow.Graph

/-- A call of a building function. -/
inductive Command where
  | parameter (type : TensorType)
  | constant (type : TensorType) (values : List Float)
  | broadcast (x : NodeId) (shape : Shape)
  | add (a b : NodeId)
  | multiply (a b : NodeId)
  | minimum (a b : NodeId)
  | dot (a b : NodeId)
  | convolution (data filter : NodeId) (strides : Nat × Nat)
  | averagePool (x : NodeId) (window strides : Nat × Nat)
  | relu (x : NodeId)
  | boundedRelu (x : NodeId) (bound : Binary64)
  | rescale (x : NodeId)
  | addResult (x : NodeId)

/-- Carries a command out; the identifier of a new node is not needed. -/
def Command.run : Command → Build Unit
  | .parameter type => do let _ ← Graph.parameter type
  | .constant type values => do let _ ← Graph.constant type values
  | .broadcast x shape => do let _ ← Graph.broadcast x shape
  | .add a b => do let _ ← Graph.add a b
  | .multiply a b => do let _ ← Graph.multiply a b
  | .minimum a b => do let _ ← Graph.minimum a b
  | .dot a b => do let _ ← Graph.dot a b
  | .convolution data filter strides => do let _ ← Graph.convolution data filter strides
  | .averagePool x window strides => do let _ ← Graph.averagePool x window strides
  | .relu x => do let _ ← Graph.relu x
  | .boundedRelu x bound => do let _ ← Graph.boundedRelu x bound
  | .rescale x => do let _ ← Graph.rescale x
  | .addResult x => Graph.addResult x

/-- A graph that commands make of the empty graph. What a command refuses
leaves the graph as it was, so only those that succeed count. -/
inductive Built : Graph → Prop where
  | empty : Built .empty
  | step {g g' : Graph} (c : Command) : Built g → c.run.run g = .ok ((), g') → Built g'

variable {g g' : Graph} {id : NodeId} {n : Node}

/-! ## What the building functions do

An operation looks up the types of its operands, infers its own and appends a node.
`unary_run` and `binary_run` write this as one chain of steps that may fail. Read
from left to right it says when an operation succeeds (`unary_ok`), and from right
to left what it has done if it did (`unary_inv`). -/

/-- The operands of a node are looked up one after the other. -/
theorem insert_ok (live : ∀ i ∈ n.inputs, g.isLive i = true) :
    (insert n).run g = .ok (g.push n) := by
  have lookup : ∀ ids : List NodeId, (∀ i ∈ ids, g.isLive i = true) →
      (forIn ids PUnit.unit fun i (_ : PUnit) => do
        let _ ← g.node i
        pure (ForInStep.yield PUnit.unit) : Except Error PUnit) = .ok PUnit.unit := by
    intro ids
    induction ids with
    | nil => intro _; rfl
    | cons i ids ih =>
      intro live
      obtain ⟨m, hm⟩ := isLive_iff.mp (live i List.mem_cons_self)
      rw [List.forIn_cons, node_ok hm]
      exact ih fun j hj => live j (List.mem_cons_of_mem _ hj)
  show (do
      let _ ← (forIn n.inputs PUnit.unit fun i (_ : PUnit) => do
        let _ ← g.node i
        pure (ForInStep.yield PUnit.unit) : Except Error PUnit)
      pure (g.push n) : Except Error _) = _
  rw [lookup n.inputs live]
  rfl

theorem typeOf_ok {t : TensorType} (h : g.type? id = some t) : g.typeOf id = .ok t := by
  obtain ⟨n, hn, rfl⟩ := type?_eq_some.mp h
  simp [typeOf, node_ok hn, Except.map]

theorem type?_of_typeOf {t : TensorType} (h : g.typeOf id = .ok t) : g.type? id = some t := by
  unfold typeOf node at h
  cases hn : g.node? id with
  | none => simp [hn, Except.map] at h
  | some n =>
    rw [hn] at h
    rw [type?_of_node? hn, ← Except.ok.inj h]

variable {op : Op} {infer : TensorType → Except Error TensorType}
  {infer₂ : TensorType → TensorType → Except Error TensorType} {x a b : NodeId}

/-- A step that computes leaves the graph as it is. -/
theorem run_lift {α : Type} (r : Except Error α) :
    (liftM r : Build α).run g = r.map (·, g) := by
  cases r <;> rfl

theorem unary_run :
    (unary op infer x).run g = (do
      let t ← g.typeOf x
      let type ← infer t
      (insert ⟨op, type, [x], 1⟩).run g) := by
  simp only [unary, StateT.run_bind, StateT.run_get, pure_bind, run_lift]
  cases g.typeOf x with
  | error e => rfl
  | ok t =>
    show ((infer t).map (·, g) >>= _) = (infer t >>= _)
    cases infer t <;> rfl

theorem binary_run :
    (binary op infer₂ a b).run g = (do
      let ta ← g.typeOf a
      let tb ← g.typeOf b
      let type ← infer₂ ta tb
      (insert ⟨op, type, [a, b], 1⟩).run g) := by
  simp only [binary, StateT.run_bind, StateT.run_get, pure_bind, run_lift]
  cases g.typeOf a with
  | error e => rfl
  | ok ta =>
    show ((g.typeOf b).map (·, g) >>= _) = (g.typeOf b >>= _)
    cases g.typeOf b with
    | error e => rfl
    | ok tb =>
      show ((infer₂ ta tb).map (·, g) >>= _) = (infer₂ ta tb >>= _)
      cases infer₂ ta tb <;> rfl

/-- An operation on a live node appends its node. -/
theorem unary_ok {t type : TensorType} (hx : g.type? x = some t) (ht : infer t = .ok type) :
    (unary op infer x).run g = .ok (g.push ⟨op, type, [x], 1⟩) := by
  have live : ∀ i ∈ [x], g.isLive i = true := by simpa using isLive_of_type? hx
  rw [unary_run, typeOf_ok hx]
  show (infer t >>= _) = _
  rw [ht]
  exact insert_ok live

theorem binary_ok {ta tb type : TensorType} (ha : g.type? a = some ta) (hb : g.type? b = some tb)
    (ht : infer₂ ta tb = .ok type) :
    (binary op infer₂ a b).run g = .ok (g.push ⟨op, type, [a, b], 1⟩) := by
  have live : ∀ i ∈ [a, b], g.isLive i = true := by
    simpa using ⟨isLive_of_type? ha, isLive_of_type? hb⟩
  rw [binary_run, typeOf_ok ha, typeOf_ok hb]
  show (infer₂ ta tb >>= _) = _
  rw [ht]
  exact insert_ok live

/-- An operation that succeeds had a live operand, and appended its node. -/
theorem unary_inv {r : NodeId × Graph} (h : (unary op infer x).run g = .ok r) :
    ∃ t type, g.type? x = some t ∧ infer t = .ok type ∧ r = g.push ⟨op, type, [x], 1⟩ := by
  rw [unary_run] at h
  cases hx : g.typeOf x with
  | error e => simp [hx, bind, Except.bind] at h
  | ok t =>
    cases ht : infer t with
    | error e => simp [hx, ht, bind, Except.bind] at h
    | ok type =>
      have ok : (unary op infer x).run g = .ok (g.push ⟨op, type, [x], 1⟩) :=
        unary_ok (type?_of_typeOf hx) ht
      rw [← unary_run, ok] at h
      exact ⟨t, type, type?_of_typeOf hx, ht, (Except.ok.inj h).symm⟩

theorem binary_inv {r : NodeId × Graph} (h : (binary op infer₂ a b).run g = .ok r) :
    ∃ ta tb type, g.type? a = some ta ∧ g.type? b = some tb ∧ infer₂ ta tb = .ok type ∧
      r = g.push ⟨op, type, [a, b], 1⟩ := by
  rw [binary_run] at h
  cases ha : g.typeOf a with
  | error e => simp [ha, bind, Except.bind] at h
  | ok ta =>
    cases hb : g.typeOf b with
    | error e => simp [ha, hb, bind, Except.bind] at h
    | ok tb =>
      cases ht : infer₂ ta tb with
      | error e => simp [ha, hb, ht, bind, Except.bind] at h
      | ok type =>
        have ok : (binary op infer₂ a b).run g = .ok (g.push ⟨op, type, [a, b], 1⟩) :=
          binary_ok (type?_of_typeOf ha) (type?_of_typeOf hb) ht
        rw [← binary_run, ok] at h
        exact ⟨ta, tb, type, type?_of_typeOf ha, type?_of_typeOf hb, ht,
          (Except.ok.inj h).symm⟩

/-! ## Commands that succeed -/

/-- What a command does if it succeeds: it appends a typed node, or a parameter
at the next index, or a result. -/
inductive Grown (g : Graph) : Graph → Prop where
  | node {n : Node} : g.WellTyped n → n.kind ≠ .parameter → Grown g (g.push n).2
  | parameter (type : TensorType) :
      Grown g { (g.push ⟨.parameter g.parameters.length, type, [], 1⟩).2 with
        parameters := g.parameters ++ [g.size] }
  | result {id : NodeId} : g.isLive id = true →
      Grown g { g with results := g.results ++ [id] }

theorem grown_unary {r : NodeId × Graph} (computed : op.kind ≠ .parameter)
    (gives : ∀ t type, infer t = .ok type → op.Gives [t] type)
    (run : (unary op infer x).run g = .ok r) : Grown g r.2 := by
  obtain ⟨t, type, hx, ht, rfl⟩ := unary_inv run
  exact .node ⟨rfl, [t], by simp [hx], gives t type ht⟩ computed

theorem grown_binary {r : NodeId × Graph} (computed : op.kind ≠ .parameter)
    (gives : ∀ ta tb type, infer₂ ta tb = .ok type → op.Gives [ta, tb] type)
    (run : (binary op infer₂ a b).run g = .ok r) : Grown g r.2 := by
  obtain ⟨ta, tb, type, ha, hb, ht, rfl⟩ := binary_inv run
  exact .node ⟨rfl, [ta, tb], by simp [ha, hb], gives ta tb type ht⟩ computed

theorem grown_constant {type : TensorType} {values : List Float} {r : NodeId × Graph}
    (run : (Graph.constant type values).run g = .ok r) : Grown g r.2 := by
  unfold Graph.constant at run
  split at run
  · exact nomatch run
  · rename_i size
    have ok : (insert ⟨.constant values, type, [], 1⟩).run g = _ := insert_ok (by simp)
    obtain rfl := Except.ok.inj (ok.symm.trans run)
    exact .node ⟨rfl, [], rfl, not_not.mp size⟩ (by intro eq; cases eq)

theorem grown_addResult {r : Unit × Graph} (run : (Graph.addResult id).run g = .ok r) :
    Grown g r.2 := by
  obtain ⟨n, live, run⟩ := exists_of_bind_eq_ok (x := g.node id) run
  obtain rfl := Except.ok.inj run
  exact .result (isLive_of_node? (node?_of_node live))

/-- A command that succeeds has run its building function. -/
theorem discard_inv {α : Type} {m : Build α}
    (run : (do let _ ← m : Build Unit).run g = .ok ((), g')) :
    ∃ r, m.run g = .ok r ∧ r.2 = g' := by
  simp only [StateT.run_bind] at run
  cases hm : m.run g with
  | error e => simp [hm, bind, Except.bind] at run
  | ok r =>
    rw [hm] at run
    exact ⟨r, rfl, congrArg Prod.snd (Except.ok.inj run)⟩

theorem gives_broadcast {t type : TensorType} {shape : Shape}
    (h : t.broadcast shape = .ok type) : Op.broadcast.Gives [t] type := by
  unfold TensorType.broadcast at h
  split at h
  · obtain rfl := Except.ok.inj h
    simpa [Op.Gives, TensorType.broadcast]
  · cases h

theorem Command.grown (c : Command) (run : c.run.run g = .ok ((), g')) : Grown g g' := by
  -- Operations of one operand differ in how they infer a type, and so do those of two.
  cases c with
  | addResult x => exact grown_addResult run
  | parameter type =>
    obtain ⟨r, made, rfl⟩ := discard_inv run
    obtain rfl := Except.ok.inj made
    exact .parameter type
  | constant type values =>
    obtain ⟨r, made, rfl⟩ := discard_inv run
    exact grown_constant made
  | broadcast x shape =>
    obtain ⟨r, made, rfl⟩ := discard_inv run
    refine grown_unary (by intro eq; cases eq) ?_ made
    exact fun _ _ => gives_broadcast
  | averagePool x window strides =>
    obtain ⟨r, made, rfl⟩ := discard_inv run
    refine grown_unary (by intro eq; cases eq) ?_ made
    exact fun _ _ ht => ht
  | relu x | boundedRelu x bound | rescale x =>
    obtain ⟨r, made, rfl⟩ := discard_inv run
    refine grown_unary (by intro eq; cases eq) ?_ made
    exact fun _ _ ht => (Except.ok.inj ht).symm
  | add a b | multiply a b | minimum a b | dot a b | convolution data filter strides =>
    obtain ⟨r, made, rfl⟩ := discard_inv run
    refine grown_binary (by intro eq; cases eq) ?_ made
    exact fun _ _ _ ht => ht

/-! ## Soundness -/

theorem sound_empty : Graph.empty.Sound where
  typed := by simp [Graph.empty, node?]
  results := by simp [Graph.empty]
  parameters := by simp [Graph.empty]
  acyclic := ⟨fun _ => 0, by simp [Ranked, Graph.empty, inputs, node?]⟩

/-- One command keeps the invariant. -/
theorem Sound.grown (h : g.Sound) (grown : Grown g g') : g'.Sound := by
  cases grown with
  | node typed => exact h.push typed
  | parameter type =>
    have pushed := h.push (n := ⟨.parameter g.parameters.length, type, [], 1⟩)
      ⟨rfl, [], rfl, trivial⟩
    refine ⟨fun i m hm => (pushed.typed i m hm).mono fun _ _ _ ht => ht, pushed.results, ?_,
      pushed.acyclic⟩
    intro i id hi
    -- Earlier parameters are where they were, and the last one is the new node.
    by_cases lt : i < g.parameters.length
    · exact pushed.parameters i id (by rwa [List.getElem?_append_left lt] at hi)
    · rw [List.getElem?_append_right (Nat.not_lt.mp lt)] at hi
      obtain ⟨eq, rfl⟩ : i - g.parameters.length = 0 ∧ g.size = id := by
        simpa [List.getElem?_singleton] using hi
      obtain rfl : i = g.parameters.length := by omega
      exact ⟨type, node?_push_size _⟩
  | result live =>
    refine ⟨fun i m hm => (h.typed i m hm).mono fun _ _ _ ht => ht, ?_, h.parameters, h.acyclic⟩
    intro r hr
    rcases List.mem_append.mp hr with hr | hr
    · exact h.results r hr
    · rw [List.mem_singleton.mp hr]
      exact live

/-- Graphs that are built are sound. -/
theorem Built.sound (h : Built g) : g.Sound := by
  induction h with
  | empty => exact sound_empty
  | step c _ run ih => exact ih.grown (c.grown run)

end CipherFlow.Graph
