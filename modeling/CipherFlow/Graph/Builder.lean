import CipherFlow.Graph.Typing

/-!
# Building graphs

Each operation has a function that appends its node, with the type that the
operands give it, and answers with its identifier. What is refused leaves the
graph as it was.
-/

namespace CipherFlow.Graph

/-- A change of a graph that may be refused. -/
abbrev Build := StateT Graph (Except Error)

/-- Appends a node whose operands are not looked at. -/
def push (g : Graph) (n : Node) : NodeId × Graph :=
  (g.size, { g with nodes := g.nodes ++ [some n] })

/-- Appends a node; its operands have to be live. -/
def insert (n : Node) : Build NodeId := fun g => do
  for input in n.inputs do
    let _ ← g.node input
  return g.push n

/-- Makes a node a result. -/
def addResult (id : NodeId) : Build Unit := fun g => do
  let _ ← g.node id
  return ((), { g with results := g.results ++ [id] })

/-! ## Nodes without operands -/

/-- Appends a parameter. -/
def parameter (type : TensorType) : Build NodeId := fun g =>
  let (id, g') := g.push ⟨.parameter g.parameters.length, type, [], 1⟩
  return (id, { g' with parameters := g.parameters ++ [id] })

/-- Appends a constant. -/
def constant (type : TensorType) (values : List Float) : Build NodeId := do
  if values.length ≠ type.shape.size then
    throw (.constantSize type.shape.size values.length)
  insert ⟨.constant values, type, [], 1⟩

/-! ## Nodes with operands -/

/-- Appends a node with one operand. -/
def unary (op : Op) (infer : TensorType → Except Error TensorType) (x : NodeId) :
    Build NodeId := do
  let t ← (← get).typeOf x
  let type ← infer t
  insert ⟨op, type, [x], 1⟩

/-- Appends a node with two operands. -/
def binary (op : Op) (infer : TensorType → TensorType → Except Error TensorType)
    (a b : NodeId) : Build NodeId := do
  let ta ← (← get).typeOf a
  let tb ← (← get).typeOf b
  let type ← infer ta tb
  insert ⟨op, type, [a, b], 1⟩

/-- Appends a repetition to fill a shape. -/
def broadcast (x : NodeId) (shape : Shape) : Build NodeId :=
  unary .broadcast (·.broadcast shape) x

/-- Appends a sum. -/
def add (a b : NodeId) : Build NodeId :=
  binary .add (TensorType.elementwise .add) a b

/-- Appends a product. -/
def multiply (a b : NodeId) : Build NodeId :=
  binary .multiply (TensorType.elementwise .multiply) a b

/-- Appends a minimum. -/
def minimum (a b : NodeId) : Build NodeId :=
  binary .minimum (TensorType.elementwise .minimum) a b

/-- Appends a contraction. -/
def dot (a b : NodeId) : Build NodeId :=
  binary .dot TensorType.dot a b

/-- Appends a convolution. -/
def convolution (data filter : NodeId) (strides : Nat × Nat) : Build NodeId :=
  binary (.convolution strides) (TensorType.convolution strides) data filter

/-- Appends averages over windows. -/
def averagePool (x : NodeId) (window strides : Nat × Nat) : Build NodeId :=
  unary (.averagePool window strides) (TensorType.averagePool window strides) x

/-- Appends a rectifier. -/
def relu (x : NodeId) : Build NodeId :=
  unary .relu .ok x

/-- Appends a bounded rectifier. -/
def boundedRelu (x : NodeId) (bound : Binary64) : Build NodeId :=
  unary (.boundedRelu bound) .ok x

/-- Appends a rescaling. -/
def rescale (x : NodeId) : Build NodeId :=
  unary .rescale .ok x

/-- Appends a node of several values, which all have the type of the first
operand. -/
def insertForeign (op : Op) (inputs : List NodeId) (outputs : Nat) : Build NodeId := do
  match inputs with
  | [] => throw (.arity op.kind 1 0)
  | first :: _ =>
    let type ← (← get).typeOf first
    insert ⟨op, type, inputs, outputs⟩

end CipherFlow.Graph
