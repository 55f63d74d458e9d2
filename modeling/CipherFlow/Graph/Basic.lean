import CipherFlow.Graph.Op

/-!
# Graphs

A graph is a table of nodes with the parameters and the results named. Nodes
are only ever appended; one that is no longer wanted is retired, which leaves
its place empty, so an identifier keeps its meaning.
-/

namespace CipherFlow

/-- A dataflow graph. -/
structure Graph where
  nodes : List (Option Node)
  parameters : List NodeId
  results : List NodeId
deriving Repr, BEq

namespace Graph

/-- Shapes that an operation does not admit. -/
inductive Conflict where
  | broadcast (source target : Shape)
  | operands (kind : OpKind) (a b : Shape)
  | dot (a b : Shape)
  | channels (data filter : Shape)
  | rank (p : Shape.Problem)
  | window (p : Shape.Problem)
deriving Repr, DecidableEq

/-- The wording of a conflict. -/
def Conflict.message : Conflict → String
  | .broadcast source target => s!"cannot broadcast {source.text} to {target.text}"
  | .operands kind a b => s!"{kind.name} operands {a.text} and {b.text}"
  | .dot a b => s!"dot of {a.text} and {b.text}"
  | .channels data filter => s!"convolution channels {data.text} vs filter {filter.text}"
  | .rank p => p.message
  | .window p => s!"Shape mismatch: {p.message}"

/-- What a change of a graph can be refused for. -/
inductive Error where
  | unknownNode (id : NodeId)
  | shape (c : Conflict)
  | elementType (a b : ElementType)
  | constantSize (expected got : Nat)
  | arity (kind : OpKind) (expected got : Nat)
  | cycle (old new : NodeId)
  | fault (f : Fault)
deriving Repr, DecidableEq

/-- The wording of an error. -/
def Error.message : Error → String
  | .unknownNode id => s!"Unknown or retired node {nodeText id}"
  | .shape c => s!"Shape mismatch: {c.message}"
  | .elementType a b => s!"Element type mismatch: {a.name} vs {b.name}"
  | .constantSize expected got => s!"Constant holds {got} values, shape needs {expected}"
  | .arity kind expected got => s!"{kind.name} expects {expected} inputs, got {got}"
  | .cycle old new => s!"Replacing {nodeText old} with {nodeText new} would create a cycle"
  | .fault _ => ""

instance : ToString Error := ⟨Error.message⟩

instance : MonadLift (Except Fault) (Except Error) := ⟨fun r => r.mapError .fault⟩

/-- The graph without nodes. -/
def empty : Graph :=
  ⟨[], [], []⟩

/-- The number of places in the table. -/
def size (g : Graph) : Nat :=
  g.nodes.length

/-- The node of an identifier, unless it is retired. -/
def node? (g : Graph) (id : NodeId) : Option Node :=
  (g.nodes[id]?).join

/-- The node of an identifier, which has to be live. -/
def node (g : Graph) (id : NodeId) : Except Error Node :=
  match g.node? id with
  | some n => .ok n
  | none => .error (.unknownNode id)

/-- Whether an identifier names a node. -/
def isLive (g : Graph) (id : NodeId) : Bool :=
  (g.node? id).isSome

/-- The kind of a live node. -/
def kind? (g : Graph) (id : NodeId) : Option OpKind :=
  (g.node? id).map Node.kind

/-- The type of a node's value. -/
def typeOf (g : Graph) (id : NodeId) : Except Error TensorType :=
  (g.node id).map Node.type

/-- The operands of a node; a retired node has none. -/
def inputs (g : Graph) (id : NodeId) : List NodeId :=
  match g.node? id with
  | some n => n.inputs
  | none => []

/-- The live nodes in the order of the table. -/
def live (g : Graph) : List (NodeId × Node) :=
  g.nodes.zipIdx.filterMap fun (slot, id) => slot.map (id, ·)

/-- The live nodes that have a node among their operands. -/
def consumers (g : Graph) (id : NodeId) : List NodeId :=
  (g.live.filter fun (_, n) => n.inputs.contains id).map Prod.fst

/-- Whether a node is a result. -/
def isResult (g : Graph) (id : NodeId) : Bool :=
  g.results.contains id

end Graph

end CipherFlow
