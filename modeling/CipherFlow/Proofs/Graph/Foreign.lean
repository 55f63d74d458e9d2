import CipherFlow.Proofs.Graph.Built

/-!
# Graphs with foreign nodes

A foreign node may have any live operands, as many as it likes, and any number
of values; its type is that of its first operand. A graph with such nodes is
not sound. It is regular still, if none of them is a rescaling.
-/

namespace CipherFlow.Graph

variable {g g' : Graph} {n : Node}

/-- Appending a node checks its operands and does nothing else. -/
theorem insert_inv {r : NodeId × Graph} (h : (insert n).run g = .ok r) :
    (∀ i ∈ n.inputs, g.isLive i = true) ∧ r = g.push n := by
  have checked : ∀ ids : List NodeId, ∀ u : PUnit,
      (forIn ids PUnit.unit fun i (_ : PUnit) => do
        let _ ← g.node i
        pure (ForInStep.yield PUnit.unit) : Except Error PUnit) = .ok u →
      ∀ i ∈ ids, g.isLive i = true := by
    intro ids
    induction ids with
    | nil => intro _ _ _ mem; exact nomatch mem
    | cons i ids ih =>
      intro u h
      rw [List.forIn_cons] at h
      obtain ⟨_, first, rest⟩ := exists_of_bind_eq_ok h
      obtain ⟨m, hm, first⟩ := exists_of_bind_eq_ok first
      obtain rfl := Except.ok.inj first
      exact List.forall_mem_cons.mpr ⟨isLive_of_node? (node?_of_node hm), ih u rest⟩
  obtain ⟨u, looked, h⟩ := exists_of_bind_eq_ok
    (x := (forIn n.inputs PUnit.unit fun i (_ : PUnit) => do
      let _ ← g.node i
      pure (ForInStep.yield PUnit.unit) : Except Error PUnit)) h
  exact ⟨checked n.inputs u looked, (Except.ok.inj h).symm⟩

/-- A foreign node that is appended has live operands. -/
theorem insertForeign_inv {op : Op} {inputs : List NodeId} {outputs : Nat} {r : NodeId × Graph}
    (h : (insertForeign op inputs outputs).run g = .ok r) :
    ∃ type, (∀ i ∈ inputs, g.isLive i = true) ∧ r = g.push ⟨op, type, inputs, outputs⟩ := by
  cases inputs with
  | nil => exact nomatch h
  | cons first rest =>
    simp only [insertForeign, StateT.run_bind, StateT.run_get, pure_bind, run_lift] at h
    cases typed : g.typeOf first with
    | error e => simp [typed, Except.map, bind, Except.bind] at h
    | ok type =>
      rw [typed] at h
      exact ⟨type, insert_inv h⟩

/-- A graph made by commands and of foreign nodes of given kinds. -/
inductive Assembled (foreign : OpKind → Prop) : Graph → Prop where
  | empty : Assembled foreign .empty
  | step {g g' : Graph} (c : Command) : Assembled foreign g → c.run.run g = .ok ((), g') →
      Assembled foreign g'
  | foreign {g g' : Graph} {id : NodeId} (op : Op) (inputs : List NodeId) (outputs : Nat) :
      Assembled foreign g → foreign op.kind →
      (insertForeign op inputs outputs).run g = .ok (id, g') → Assembled foreign g'

/-- One command keeps a graph regular. -/
theorem Regular.grown (h : g.Regular) (grown : Grown g g') : g'.Regular := by
  cases grown with
  | node typed =>
    refine h.push (fun _ hi => typed.live_input hi) fun kind => ?_
    obtain ⟨x, inputs, -⟩ := typed.keeps (by rw [kind]; rfl)
    exact ⟨x, inputs⟩
  | parameter type =>
    have pushed := h.push (n := ⟨.parameter g.parameters.length, type, [], 1⟩)
      (fun _ hi => nomatch hi) fun kind => nomatch kind
    refine ⟨⟨pushed.closed.inputs, pushed.closed.results⟩, pushed.acyclic, fun p hp => ?_,
      pushed.rescale⟩
    rcases List.mem_append.mp hp with hp | hp
    · exact pushed.parameters p hp
    · rw [List.mem_singleton.mp hp]
      exact kind?_of_node? (node?_push_size ⟨.parameter g.parameters.length, type, [], 1⟩)
  | result live =>
    refine ⟨⟨h.closed.inputs, fun r hr => ?_⟩, h.acyclic, h.parameters, h.rescale⟩
    rcases List.mem_append.mp hr with hr | hr
    · exact h.closed.results r hr
    · rw [List.mem_singleton.mp hr]
      exact live

/-- Graphs whose foreign nodes are no rescalings are regular. -/
theorem Assembled.regular {foreign : OpKind → Prop} (none : ¬ foreign .rescale)
    (h : Assembled foreign g) : g.Regular := by
  induction h with
  | empty => exact sound_empty.regular
  | step c _ run ih => exact ih.grown (c.grown run)
  | foreign op inputs outputs _ allowed run ih =>
    obtain ⟨type, live, eq⟩ := insertForeign_inv run
    obtain rfl := congrArg Prod.snd eq
    exact ih.push live fun kind => absurd ((show op.kind = .rescale from kind) ▸ allowed) none

end CipherFlow.Graph
