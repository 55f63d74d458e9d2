import CipherFlow.Element.Nonlinear
import CipherFlow.Normalize.Pipeline

/-!
# Problems of a run

What the evaluation of a graph on tensors can be refused for.
-/

namespace CipherFlow.Run

/-- Batch sizes that do not fit. -/
inductive Batching where
  | leadingAxis (batch : Nat) (shape : Shape)
  | operands (a b : Nat)
  | secondOperand (batch : Nat)
deriving Repr, DecidableEq

/-- The wording for a batch size that does not fit. -/
def Batching.message : Batching → String
  | leadingAxis batch shape =>
    s!"batch size {batch} does not divide the leading axis of {shape.text}"
  | operands a b => s!"operands batched {a} and {b}"
  | secondOperand batch => s!"second operand batched {batch}"

/-- What a run can be refused for. -/
inductive Problem where
  | inputCount (expected got : Nat)
  | inputMismatch (index : Nat) (expected got : TensorType)
  | batching (b : Batching)
  | laneCapacity (batch capacity : Nat)
  | valueCount (count : Nat)
  | shapeOverflow (shape : Shape)
  | missingValue (id : NodeId)
  | unsupportedOnCipher (kind : OpKind)
  | missingSecretKey
  | responseLength (expected got : Nat)
  | graph (e : Graph.Error)
  | normalize (e : Normalize.Error)
  | element (e : Element.Error)
  | scheme (e : Scheme.Error)
  | fault (f : Fault)
deriving Repr

/-- The wording of a problem. -/
def Problem.message : Problem → String
  | .inputCount expected got => s!"Expected {expected} input tensors, got {got}"
  | .inputMismatch index expected got =>
    s!"Input {index}: expected {expected.text}, got {got.text}"
  | .batching b => s!"Invalid batching: {b.message}"
  | .laneCapacity batch capacity => s!"Batch of {batch} lanes exceeds capacity {capacity}"
  | .valueCount count => s!"{count} elements given for the tensor"
  | .shapeOverflow shape => s!"Element count of shape {shape.text} overflows"
  | .missingValue id => s!"No value computed for node {nodeText id}"
  | .unsupportedOnCipher kind => s!"{kind.name} cannot be evaluated on ciphertexts"
  | .missingSecretKey => "Reading ciphertexts requires the secret key"
  | .responseLength expected got => s!"Oracle returned {got} ciphertexts for {expected}"
  | .graph e => e.message
  | .normalize e => e.message
  | .element e => e.message
  | .scheme e => e.message
  | .fault _ => ""

instance : ToString Problem := ⟨Problem.message⟩

instance : MonadLift (Except Graph.Error) (Except Problem) := ⟨fun r => r.mapError .graph⟩

instance : MonadLift (Except Normalize.Error) (Except Problem) :=
  ⟨fun r => r.mapError .normalize⟩

instance : MonadLift (Except Element.Error) (Except Problem) := ⟨fun r => r.mapError .element⟩

instance (priority := 1300) : MonadLift (Except Scheme.Error) (Except Problem) :=
  ⟨fun r => r.mapError .scheme⟩

instance (priority := 1400) : MonadLift (Except Fault) (Except Problem) :=
  ⟨fun r => r.mapError .fault⟩

/-- A part of a run that takes coins. -/
abbrev Sampling := StateT Coins (Except Problem)

instance (priority := 1200) : MonadLift Scheme.Sampling Sampling :=
  ⟨fun x c => (x.run c).mapError .scheme⟩

instance : MonadLift Element.Compute Sampling := ⟨fun x c => (x.run c).mapError .element⟩

end CipherFlow.Run
