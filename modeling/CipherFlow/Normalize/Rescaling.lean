import CipherFlow.Normalize.Rule

/-!
# Placing rescalings

The scale of a product is the product of scales. A rescaling brings it back,
so every product is followed by exactly one, which all its uses go through.
Rescalings of rescalings are merged.
-/

namespace CipherFlow.Normalize

/-! ## One rescaling after each product -/

/-- Requires a node of one value. -/
def checkSingleOutput (id : NodeId) : Edit Unit := do
  let n ← node id
  if n.outputs ≠ 1 then throw (.multipleOutputs id n.kind n.outputs)

/-- Replaces each node of a list by one that does the same. -/
def replaceAll (keep : NodeId) : List NodeId → Edit Unit
  | [] => return
  | duplicate :: rest => do
    change (Graph.replace duplicate keep)
    replaceAll keep rest

/-- Redirects the uses of a node that consumers make to another, and tells
whether there were any. -/
def redirectConsumers (old new : NodeId) : List NodeId → Edit Bool :=
  sweep fun consumer => change (Graph.redirectConsumer consumer old new)

/-- Redirects all uses of a node to a rescaling of it, and tells whether there
were any. -/
def redirectTo (rescale id : NodeId) : Edit Bool := do
  let g ← get
  set (g.redirectUses id rescale [rescale])
  return g.isUsed id [rescale]

/-- Makes one rescaling the only use of a node, and tells whether anything
changed. A rescaling that is there already is kept, the first of several. -/
def ensureRescaleAfter (id : NodeId) : Edit Bool := do
  checkSingleOutput id
  let g ← get
  let (rescales, others) := (g.consumers id).partition fun c => g.kind? c = some .rescale
  match rescales with
  | [] =>
    let rescale ← change (Graph.rescale id)
    let _ ← redirectTo rescale id
    return true
  | keep :: duplicates =>
    replaceAll keep duplicates
    let redirected ← redirectConsumers id keep others
    let atResult ← if (← get).isResult id then redirectTo keep id else pure false
    return !duplicates.isEmpty || redirected || atResult

/-- Places a rescaling after a product. The average over windows is a product
with a constant but is left as it is. -/
def rescaleAt (id : NodeId) : Edit Bool := do
  match (← get).kind? id with
  | some .averagePool =>
    checkSingleOutput id
    return false
  | some kind => if kind.isProduct then ensureRescaleAfter id else return false
  | none => return false

/-- Places a rescaling after every product that a result depends on. -/
def insertRescales : Edit Bool := do
  sweep rescaleAt (← order)

/-! ## Rescalings of rescalings -/

/-- Replaces a rescaling of a rescaling by one rescaling of the node below
both. -/
def mergeRescale : Rule where
  pattern := .op .rescale [.op .rescale [.any "x"]]
  apply := fun root found => do
    let x ← bound found "x"
    if (← get).kind? x = some .rescale then throw (.nestedRescale x)
    let merged ← change (Graph.rescale x)
    change (Graph.replace root merged)
    return true

/-- Merges chains of rescalings. -/
def mergeRescales : Edit Bool :=
  applyRules [mergeRescale]

end CipherFlow.Normalize
