import CipherFlow.Element.Arith
import CipherFlow.Tensor.Contraction

/-!
# Tensor operations on elements

The tensor operations with the sums and products of plain and encrypted
elements.
-/

namespace CipherFlow.Element

/-- The sums of elements at the same places. -/
def addAll (ev : Evaluator) (a b : List Element) : Compute (List Element) :=
  Tensor.elementwise (add ev) a b

/-- The products of elements at the same places. -/
def multiplyAll (ev : Evaluator) (a b : List Element) : Compute (List Element) :=
  Tensor.elementwise (multiply ev) a b

/-- The contraction of the last axis of `a` with the first axis of `b`. -/
def dot (ev : Evaluator) (a : List Element) (aShape : Shape) (b : List Element)
    (bShape : Shape) : Compute (List Element) :=
  Tensor.dot (add ev) (multiply ev) a aShape b bShape

/-- The convolution of images with filters. -/
def convolution (ev : Evaluator) (data : List Element) (dataShape : Shape)
    (filter : List Element) (filterShape : Shape) (strides : Nat × Nat) :
    Compute (List Element) :=
  Tensor.convolution (add ev) (multiply ev) data dataShape filter filterShape strides

/-- The averages over windows: sums times the inverse of the window size. -/
def averagePool (ev : Evaluator) (data : List Element) (dataShape : Shape)
    (window strides : Nat × Nat) : Compute (List Element) :=
  Tensor.windowSums (add ev) (multiply ev) (fun area => .plain [1 / Float.ofNat area])
    data dataShape window strides

/-- Rescales every element. -/
def rescaleAll (ev : Evaluator) (values : List Element) : Except Error (List Element) :=
  values.mapM (rescale ev)

end CipherFlow.Element
