import CipherFlow.Graph.Basic

/-!
# Patterns

A pattern describes a part of a graph below a node. Finding it binds the
labels of the pattern to nodes; a label that occurs twice has to be bound to
one node both times.
-/

namespace CipherFlow

/-- A description of nodes. -/
inductive Pattern where
  /-- Any node that is accepted; its identifier is bound to the name. -/
  | label (name : String) (accept : Node → Bool)
  /-- A node of a kind whose operands are as described, in order. The two
  operands of a commutative kind may also be swapped. -/
  | op (kind : OpKind) (args : List Pattern)
  /-- What is described, either here or, where the node is accepted and has
  one operand, at that operand. -/
  | skip (inner : Pattern) (accept : Node → Bool)
deriving Inhabited

/-- What has been found of a pattern. -/
structure Pattern.Found where
  bindings : List (String × NodeId)
  /-- The nodes of the pattern's operations, in the order in which the
  pattern names them. -/
  matched : List NodeId
deriving Repr, DecidableEq

namespace Pattern

/-- A label that any node may take. -/
def any (name : String) : Pattern :=
  .label name fun _ => true

namespace Found

/-- Nothing found yet. -/
def nothing : Found :=
  ⟨[], []⟩

/-- The node that a label is bound to. -/
def get? (f : Found) (name : String) : Option NodeId :=
  f.bindings.lookup name

/-- Binds a label, unless it is bound to another node. -/
def bind? (f : Found) (name : String) (id : NodeId) : Option Found :=
  match f.get? name with
  | some bound => if bound = id then some f else none
  | none => some { f with bindings := f.bindings ++ [(name, id)] }

/-- Notes a node of an operation. -/
def note (f : Found) (id : NodeId) : Found :=
  { f with matched := f.matched ++ [id] }

end Found

mutual

/-- Looks for a pattern at a node and tells whether it is there. What it finds
is written down as it goes, on top of what was found before; where the pattern
is not there, what was written last stays. -/
def tryAt (g : Graph) : Pattern → NodeId → Found → Bool × Found
  | label name accept, id, found =>
    match g.node? id with
    | none => (false, found)
    | some n =>
      if accept n then
        match found.bind? name id with
        | some found => (true, found)
        | none => (false, found)
      else (false, found)
  | op kind args, id, found =>
    match g.node? id with
    | none => (false, found)
    | some n =>
      if n.kind ≠ kind ∨ n.inputs.length ≠ args.length then (false, found)
      else
        match tryArgs g args n.inputs (found.note id) with
        | (true, found) => (true, found)
        | (false, left) =>
          -- The other order starts from what had been found before the first.
          if kind.isCommutative && args.length == 2 then
            tryArgs g args n.inputs.reverse (found.note id)
          else (false, left)
  | skip inner accept, id, found =>
    match g.node? id with
    | none => (false, found)
    | some n =>
      match n.inputs with
      | [x] => if accept n then tryAt g inner x found else tryAt g inner id found
      | _ => tryAt g inner id found

/-- Looks for patterns at nodes, one after the other, up to the first that is
not there. -/
def tryArgs (g : Graph) : List Pattern → List NodeId → Found → Bool × Found
  | p :: ps, id :: ids, found =>
    match tryAt g p id found with
    | (true, found) => tryArgs g ps ids found
    | (false, left) => (false, left)
  | _, _, found => (true, found)

end

/-- Finds a pattern at a node. -/
def matchAt? (g : Graph) (p : Pattern) (root : NodeId) : Option Found :=
  match p.tryAt g root .nothing with
  | (true, found) => some found
  | (false, _) => none

end Pattern

end CipherFlow
