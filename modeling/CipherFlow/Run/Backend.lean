import CipherFlow.Run.Oracle
import CipherFlow.Tensor.Elements

/-!
# Evaluating graphs

A backend evaluates a graph node by node, in the order in which operands come
first. Sums, products and rescalings are computed on the elements; nonlinear
functions of ciphertexts are asked of an oracle.
-/

namespace CipherFlow

open CipherFlow.Run (Problem Eval Oracle require sample)

/-- An evaluator, and the secret key of its keys where it is known. -/
structure Backend where
  evaluator : Evaluator
  key : Option SecretKey
  packing : Packing

namespace Backend

variable {σ ε : Type}

/-- How a backend is set up. -/
structure Settings where
  complexPacking : Bool := false
  seed : Nat := 0
deriving Repr, DecidableEq

/-- The packing that settings ask for. -/
def Settings.packing (s : Settings) : Packing :=
  .ofFlag s.complexPacking

/-- A backend with keys of its own, and the coins for its encryptions: those of the
next seed after the one that the keys are drawn from. -/
def generate [Primitives] (params : Params) (s : Settings) :
    Except Problem (Backend × Coins) := do
  let ctx ← Context.ofParams params
  let (keys, _) ← KeySet.generate ctx (Coins.ofSeed s.seed)
  let ev ← Evaluator.ofKeys ctx keys.publicKey keys.relinKey
  return (⟨ev, some keys.secret, s.packing⟩, Coins.ofSeed (s.seed + 1))

/-- A backend with the public keys of another party. -/
def ofKeys (ctx : Context) (publicKey : PublicKey) (relinKey : RelinKey) (s : Settings) :
    Except Problem Backend := do
  let ev ← Evaluator.ofKeys ctx publicKey relinKey
  return ⟨ev, none, s.packing⟩

/-- The row-major values of a tensor. -/
def read (b : Backend) (t : BatchedTensor) : Except Problem (List Float) :=
  t.read b.key b.evaluator.context

/-! ## Operands -/

/-- The values computed so far. -/
abbrev Values := List (NodeId × BatchedTensor)

/-- The value of a node. -/
def value (values : Values) (id : NodeId) : Except Problem BatchedTensor :=
  match values.lookup id with
  | some t => .ok t
  | none => .error (.missingValue id)

/-- The value of an operand. -/
def operand (values : Values) (n : Node) (i : Nat) : Except Problem BatchedTensor := do
  let id ← Fault.entry n.inputs i
  value values id

/-- The input of an index, which has to be of the parameter's type. -/
def bindParameter (inputs : List BatchedTensor) (index : Nat) (type : TensorType) :
    Except Problem BatchedTensor :=
  match inputs[index]? with
  | none => do
    let needed ← Fault.checkSize (index + 1)
    throw (.inputCount needed inputs.length)
  | some t => if t.type = type then .ok t else .error (.inputMismatch index type t.type)

/-- The batch size of two operands, which is the same. -/
def commonBatch (a b : BatchedTensor) : Except Problem Nat :=
  if a.batch = b.batch then .ok a.batch
  else .error (.batching (.operands a.batch b.batch))

/-- The batch size of a contraction, whose second operand is not batched. -/
def leadingBatch (a b : BatchedTensor) : Except Problem Nat :=
  if b.batch = 1 then .ok a.batch else .error (.batching (.secondOperand b.batch))

/-! ## Single operations -/

/-- A batch size and the elements that are computed for it. -/
abbrev Batched := Nat × List Element

/-- The sum of two values. -/
def sum (ev : Evaluator) (a b : BatchedTensor) : Run.Sampling Batched := do
  let batch ← commonBatch a b
  let out ← Element.addAll ev a.values b.values
  return (batch, out)

/-- The product of two values. -/
def product (ev : Evaluator) (a b : BatchedTensor) : Run.Sampling Batched := do
  let batch ← commonBatch a b
  let out ← Element.multiplyAll ev a.values b.values
  return (batch, out)

/-- The lanes of a plain element. -/
def plainLanes? : Element → Option (List Float)
  | .plain xs => some xs
  | .cipher _ => none

/-- The minima of plain elements at the same places. -/
def minimum (a b : BatchedTensor) : Run.Sampling Batched := do
  match a.values.mapM plainLanes?, b.values.mapM plainLanes? with
  | some xs, some ys =>
    let batch ← commonBatch a b
    let out ← Tensor.elementwise (fun x y => (Lanes.zipWith Nonlinear.minNumber x y :)) xs ys
    return (batch, out.map .plain)
  | _, _ => throw (.unsupportedOnCipher .minimum)

/-- The value repeated to fill a shape. -/
def broadcast (x : BatchedTensor) (shape : Shape) : Run.Sampling Batched := do
  let target ← BatchedTensor.pack shape x.batch
  let out ← Tensor.broadcast x.values x.packedShape target
  return (x.batch, out)

/-- The averages over windows of images. -/
def averagePool (ev : Evaluator) (window strides : Nat × Nat) (x : BatchedTensor) :
    Run.Sampling Batched := do
  let out ← Element.averagePool ev x.values x.packedShape window strides
  return (x.batch, out)

/-- The value divided by the last prime of its level. -/
def rescale (ev : Evaluator) (x : BatchedTensor) : Run.Sampling Batched := do
  let out ← Element.rescaleAll ev x.values
  return (x.batch, out)

/-- The contraction of two values. -/
def dot (ev : Evaluator) (a b : BatchedTensor) : Run.Sampling Batched := do
  let batch ← leadingBatch a b
  let out ← Element.dot ev a.values a.packedShape b.values b.type.shape
  return (batch, out)

/-- The convolution of images with filters. -/
def convolution (ev : Evaluator) (strides : Nat × Nat) (data filter : BatchedTensor) :
    Run.Sampling Batched := do
  let batch ← leadingBatch data filter
  let out ← Element.convolution ev data.values data.packedShape filter.values filter.type.shape
    strides
  return (batch, out)

/-- The elements of a list that are encrypted. -/
def cipherElements (values : List Element) : List Handle :=
  values.filterMap fun
    | .plain _ => none
    | .cipher h => some h

/-- Applies a function to plain elements, and puts the answers of an oracle in
the places of the encrypted ones. -/
def fillAnswers (f : Nonlinear) : (values : List Element) → (answers : List Handle) →
    List Element
  | .plain xs :: values, answers => .plain (xs.map f.apply) :: fillAnswers f values answers
  | .cipher _ :: values, h :: answers => .cipher h :: fillAnswers f values answers
  | _, _ => []

/-- Applies a nonlinear function to a value. The encrypted elements go to the
oracle in one list. -/
def nonlinear (oracle : Oracle σ ε) (f : Nonlinear) (x : BatchedTensor) :
    Eval σ ε Batched := do
  let handles := cipherElements x.values
  let answers ← if handles.isEmpty then pure [] else oracle f x.batch handles
  if answers.length ≠ handles.length then
    throw (.problem (.responseLength handles.length answers.length))
  return (x.batch, fillAnswers f x.values answers)

/-! ## Nodes -/

/-- The value of a node, given those of its operands. -/
def evaluateNode (b : Backend) (oracle : Oracle σ ε) (inputs : List BatchedTensor) (n : Node)
    (values : Values) : Eval σ ε BatchedTensor := do
  let ev := b.evaluator
  let arg (i : Nat) : Eval σ ε BatchedTensor := require (operand values n i)
  let give (out : Batched) : Eval σ ε BatchedTensor :=
    require (BatchedTensor.ofValues n.type out.1 out.2)
  let unary (f : BatchedTensor → Run.Sampling Batched) : Eval σ ε BatchedTensor := do
    let x ← arg 0
    give (← sample (f x))
  let binary (f : BatchedTensor → BatchedTensor → Run.Sampling Batched) :
      Eval σ ε BatchedTensor := do
    let x ← arg 0
    let y ← arg 1
    give (← sample (f x y))
  match n.op with
  | .parameter index => require (bindParameter inputs index n.type)
  | .constant xs => give (1, xs.map fun x => .plain [x])
  | .broadcast => unary (broadcast · n.type.shape)
  | .add => binary (sum ev)
  | .multiply => binary (product ev)
  | .minimum => binary minimum
  | .dot => binary (dot ev)
  | .convolution strides => binary (convolution ev strides)
  | .averagePool window strides => unary (averagePool ev window strides)
  | .relu =>
    let x ← arg 0
    give (← nonlinear oracle .relu x)
  | .boundedRelu bound =>
    let x ← arg 0
    give (← nonlinear oracle (.bounded bound) x)
  | .rescale => unary (rescale ev)

/-- Evaluates nodes one after the other. -/
def evaluateNodes (b : Backend) (oracle : Oracle σ ε) (inputs : List BatchedTensor)
    (g : Graph) : (order : List NodeId) → (values : Values) → Eval σ ε Values
  | [], values => return values
  | id :: order, values => do
    let n ← require (g.node id)
    let t ← b.evaluateNode oracle inputs n values
    evaluateNodes b oracle inputs g order ((id, t) :: values)

/-- Evaluates a graph on inputs, one for each parameter, and gives the values
of its results. -/
def call (b : Backend) (g : Graph) (inputs : List BatchedTensor) (oracle : Oracle σ ε) :
    Eval σ ε (List BatchedTensor) := do
  if inputs.length ≠ g.parameters.length then
    throw (.problem (.inputCount g.parameters.length inputs.length))
  let order ← require g.order
  let values ← b.evaluateNodes oracle inputs g order []
  require (g.results.mapM (value values))

/-- Evaluates a graph with the secret key of the backend itself. -/
def callWithKey (b : Backend) (g : Graph) (inputs : List BatchedTensor) :
    Eval σ ε (List BatchedTensor) := do
  match b.key with
  | none => throw (.problem .missingSecretKey)
  | some key => b.call g inputs (.ofKey key b.evaluator)

end Backend

end CipherFlow
