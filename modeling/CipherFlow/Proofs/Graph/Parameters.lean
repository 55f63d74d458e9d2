import CipherFlow.Proofs.Graph.Built

/-!
# The parameters of built graphs

A built graph lists the nodes of its parameters, each at the index that the
node itself has. So the input that a parameter is bound to is the one that is
given for this node.
-/

namespace CipherFlow.Graph

variable {g g' : Graph}

/-- A node of a parameter is listed at its index. -/
def ListsParameters (g : Graph) : Prop :=
  ∀ id n index, g.node? id = some n → n.op = .parameter index → g.parameters[index]? = some id

/-- One command keeps the list. -/
theorem ListsParameters.grown (h : g.ListsParameters) (grown : Grown g g') :
    g'.ListsParameters := by
  cases grown with
  | node typed computed =>
    intro id m index hm op
    rw [node?_push] at hm
    split at hm
    · obtain rfl := Option.some.inj hm
      exact absurd (congrArg Op.kind op) computed
    · exact h id m index hm op
  | parameter type =>
    intro id m index hm op
    have node : (g.push ⟨.parameter g.parameters.length, type, [], 1⟩).2.node? id = some m := hm
    show (g.parameters ++ [g.size])[index]? = some id
    rw [node?_push] at node
    by_cases new : id = g.size
    · rw [if_pos new] at node
      obtain rfl := Option.some.inj node
      obtain rfl : g.parameters.length = index := by simpa using op
      rw [new]
      exact List.getElem?_concat_length
    · rw [if_neg new] at node
      have before := h id m index node op
      rw [List.getElem?_append_left (List.getElem?_eq_some_iff.mp before).1, before]
  | result => exact h

theorem Built.listsParameters (h : Built g) : g.ListsParameters := by
  induction h with
  | empty => exact fun id n index hn => by simp [Graph.empty, node?] at hn
  | step c _ run ih => exact ih.grown (c.grown run)

end CipherFlow.Graph
