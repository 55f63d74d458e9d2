import CipherFlow.Number.Binary64
import CipherFlow.Tensor.Type

/-!
# Operations and nodes

A node of a graph applies one operation to the values of other nodes, which
it names by their identifiers.
-/

namespace CipherFlow

/-- Kinds of operations. -/
inductive OpKind where
  | parameter
  | constant
  | broadcast
  | add
  | multiply
  | dot
  | convolution
  | averagePool
  | relu
  | minimum
  | boundedRelu
  | rescale
deriving Repr, DecidableEq

namespace OpKind

/-- All kinds. -/
def all : List OpKind :=
  [parameter, constant, broadcast, add, multiply, dot, convolution, averagePool, relu, minimum,
    boundedRelu, rescale]

/-- The name of a kind. -/
def name : OpKind → String
  | parameter => "Parameter"
  | constant => "Constant"
  | broadcast => "Broadcast"
  | add => "Add"
  | multiply => "Multiply"
  | dot => "Dot"
  | convolution => "Convolution"
  | averagePool => "AvgPool"
  | relu => "Relu"
  | minimum => "Minimum"
  | boundedRelu => "BoundedRelu"
  | rescale => "Rescale"

/-- Whether the two operands may be swapped. -/
def isCommutative : OpKind → Bool
  | add | multiply | minimum => true
  | _ => false

/-- Whether the scale of a result is a product of scales, so that a
rescaling has to follow. -/
def isProduct : OpKind → Bool
  | multiply | dot | convolution => true
  | _ => false

end OpKind

/-- An operation with its attributes. -/
inductive Op where
  /-- The input of this index. -/
  | parameter (index : Nat)
  /-- Given values, in row-major order. -/
  | constant (values : List Float)
  | broadcast
  | add
  | multiply
  /-- Sums over the last axis of the first operand and the first of the
  second. -/
  | dot
  | convolution (strides : Nat × Nat)
  | averagePool (window strides : Nat × Nat)
  | relu
  | minimum
  | boundedRelu (bound : Binary64)
  | rescale
deriving Repr, BEq

/-- The kind of an operation. -/
def Op.kind : Op → OpKind
  | parameter _ => .parameter
  | constant _ => .constant
  | broadcast => .broadcast
  | add => .add
  | multiply => .multiply
  | dot => .dot
  | convolution _ => .convolution
  | averagePool .. => .averagePool
  | relu => .relu
  | minimum => .minimum
  | boundedRelu _ => .boundedRelu
  | rescale => .rescale

/-- Names a node of a graph. -/
abbrev NodeId := Nat

/-- A node as text. -/
def nodeText (id : NodeId) : String :=
  s!"#{id}"

/-- A node: an operation, the type of its value and its operands. -/
structure Node where
  op : Op
  type : TensorType
  inputs : List NodeId
  /-- The number of values it gives; one for all but foreign nodes. -/
  outputs : Nat
deriving Repr, BEq

namespace Node

/-- The kind of the operation. -/
def kind (n : Node) : OpKind :=
  n.op.kind

/-- The values of a constant. -/
def constant? (n : Node) : Option (List Float) :=
  match n.op with
  | .constant values => some values
  | _ => none

/-- The node with every use of one node replaced by a use of another. -/
def redirect (old new : NodeId) (n : Node) : Node :=
  { n with inputs := n.inputs.map fun i => if i = old then new else i }

end Node

end CipherFlow
