import CipherFlow.Graph.Edit
import CipherFlow.Graph.Pattern

/-!
# Rules

An edit changes a graph step by step. What it changed before it failed stays
changed. A rule is an edit that is made where a pattern is found.
-/

namespace CipherFlow.Normalize

/-- What an edit can fail with. -/
inductive Error where
  | multipleOutputs (id : NodeId) (kind : OpKind) (outputs : Nat)
  | unboundLabel (name : String)
  /-- A rescaling below two others that is itself one. -/
  | nestedRescale (id : NodeId)
  | noFixpoint (rounds : Nat)
  | graph (e : Graph.Error)
deriving Repr, DecidableEq

/-- The wording of an error. -/
def Error.message : Error → String
  | .multipleOutputs id kind outputs =>
    s!"Node {nodeText id} ({kind.name}) has {outputs} outputs; " ++
      "rescale placement needs exactly one"
  | .unboundLabel name => s!"Invariant violated: label {name} unbound"
  | .nestedRescale id =>
    s!"Invariant violated: merged rescale input {nodeText id} is itself a rescale"
  | .noFixpoint rounds => s!"No fixpoint after {rounds} iterations"
  | .graph e => e.message

instance : ToString Error := ⟨Error.message⟩

/-- A sequence of changes to a graph. -/
abbrev Edit := ExceptT Error (StateM Graph)

/-- One change; it is made whole or not at all. -/
def change (b : Graph.Build α) : Edit α := fun g =>
  match b.run g with
  | .ok (a, g) => (.ok a, g)
  | .error e => (.error (.graph e), g)

/-- The live node of an identifier. -/
def node (id : NodeId) : Edit Node :=
  change fun g => (g.node id).map (·, g)

/-- The order of evaluation of the graph as it is. -/
def order : Edit (List NodeId) :=
  change fun g => (g.order.mapError .fault).map (·, g)

/-- Takes a step at each node of a list, and tells whether one of them
changed anything. -/
def sweep (step : NodeId → Edit Bool) : List NodeId → Edit Bool
  | [] => return false
  | id :: rest => do
    let here ← step id
    let later ← sweep step rest
    return here || later

/-- A pattern, and what is done where it is found; this may decline. -/
structure Rule where
  pattern : Pattern
  apply : NodeId → Pattern.Found → Edit Bool

/-- Applies the first of some rules that does not decline at a node. -/
def applyFirst : (rules : List Rule) → NodeId → Edit Bool
  | [], _ => return false
  | r :: rules, id => do
    let g ← get
    if !g.isLive id then return false
    match r.pattern.matchAt? g id with
    | none => applyFirst rules id
    | some found =>
      if ← r.apply id found then return true
      applyFirst rules id

/-- Applies rules at every node that a result depended on at the start,
operands first. -/
def applyRules (rules : List Rule) : Edit Bool := do
  sweep (applyFirst rules) (← order)

/-- The node that a label is bound to. -/
def bound (found : Pattern.Found) (name : String) : Edit NodeId :=
  match found.get? name with
  | some id => return id
  | none => throw (.unboundLabel name)

end CipherFlow.Normalize
