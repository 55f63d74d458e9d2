import CipherFlow.Graph.Builder
import CipherFlow.Graph.Order

/-!
# Editing graphs

Uses of a node are redirected to another, a node is replaced by another, and
nodes that no result depends on are retired. Parameters are never retired.
-/

namespace CipherFlow.Graph

/-! ## Redirecting uses -/

/-- Whether a node is an operand of a live node outside a list, or a
result. -/
def isUsed (g : Graph) (id : NodeId) (except : List NodeId) : Bool :=
  g.isResult id || (g.consumers id).any (!except.contains ·)

/-- Replaces every use of a node, as an operand or as a result, by a use of
another; the operands of the nodes in a list stay. -/
def redirectUses (g : Graph) (old new : NodeId) (except : List NodeId) : Graph :=
  { g with
    nodes := g.nodes.mapIdx fun i slot =>
      if except.contains i then slot else slot.map (Node.redirect old new)
    results := g.results.map fun r => if r = old then new else r }

/-- Replaces the uses of a node among the operands of one live node, and
tells whether there were any. -/
def redirectConsumer (consumer old new : NodeId) : Build Bool := fun g => do
  let n ← g.node consumer
  return (n.inputs.contains old,
    { g with nodes := g.nodes.set consumer (some (n.redirect old new)) })

/-! ## Retiring nodes -/

/-- Retires a node that is no parameter. -/
def retire (g : Graph) (id : NodeId) : Graph :=
  if g.parameters.contains id then g else { g with nodes := g.nodes.set id none }

/-- Replaces all uses of a node and retires it. The new node must not depend
on the old one. -/
def replace (old new : NodeId) : Build Unit := fun g => do
  let _ ← g.node old
  let _ ← g.node new
  if ← g.reaches new old then throw (.cycle old new)
  return ((), (g.redirectUses old new [new]).retire old)

/-- Whether a node is live, no parameter and outside a list. -/
def isDead (g : Graph) (kept : List NodeId) (id : NodeId) : Bool :=
  g.isLive id && !kept.contains id && !g.parameters.contains id

/-- Retires the nodes that no result depends on, and gives their number. -/
def prune : Build Nat := fun g => do
  let kept ← g.order
  let dead := (List.range g.size).filter (g.isDead kept)
  return (dead.length, dead.foldl retire g)

end CipherFlow.Graph
