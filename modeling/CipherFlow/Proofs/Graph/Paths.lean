import CipherFlow.Proofs.Graph.Sound

/-!
# Paths and the rescalings on them

Each rescaling takes an encrypted value one level down. How far down a value
is therefore depends on the rescalings on the way from a parameter to its
node, of which there may be several ways.
-/

namespace CipherFlow

/-- How many levels an operation goes down. -/
def OpKind.drop : OpKind → Nat
  | .rescale => 1
  | _ => 0

namespace Graph

variable {g : Graph} {p id : NodeId} {n : Node} {count : Nat}

/-- A way from one node to another, each an operand of the next, and how many
of the nodes behind the first are rescalings. -/
inductive Path (g : Graph) (p : NodeId) : NodeId → Nat → Prop where
  | start : Path g p p 0
  | step {i id : NodeId} {n : Node} {count : Nat} : Path g p i count → g.node? id = some n →
      i ∈ n.inputs → Path g p id (count + n.kind.drop)

/-- A way to another node comes from one of its operands. -/
theorem Path.exists_operand (path : g.Path p id count) (hn : g.node? id = some n) (ne : p ≠ id) :
    ∃ i ∈ n.inputs, ∃ before, g.Path p i before ∧ count = before + n.kind.drop := by
  cases path with
  | start => exact absurd rfl ne
  | step before hm hi =>
    obtain rfl := Option.some.inj (hn.symm.trans hm)
    exact ⟨_, hi, _, before, rfl⟩

/-- No way leads to a node without operands but the one that starts there. -/
theorem Path.eq_of_no_inputs (path : g.Path p id count) (hn : g.node? id = some n)
    (none : n.inputs = []) : p = id ∧ count = 0 := by
  cases path with
  | start => exact ⟨rfl, rfl⟩
  | step before hm hi =>
    obtain rfl := Option.some.inj (hn.symm.trans hm)
    exact absurd (none ▸ hi) List.not_mem_nil

end Graph

end CipherFlow
