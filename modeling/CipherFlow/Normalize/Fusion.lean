import CipherFlow.Normalize.Rescaling

/-!
# Fusion

The minimum of a rectified value and a constant bound is one bounded
rectifier, which takes one exchange with the key holder instead of two.
-/

namespace CipherFlow.Normalize

/-- The bound of a constant whose values are all equal and which has the type
of the value that it bounds, a real one. -/
def uniformBound? (root x bound : Node) : Option Float :=
  if root.type.elementType.isReal && bound.type == x.type then
    match bound.constant? with
    | some (first :: rest) => if rest.all (· == first) && first == first then some first else none
    | _ => none
  else none

/-- Fuses a minimum of a rectifier and a bound, which may be repeated to a
shape. -/
def fuseBounded : Rule where
  pattern := .op .minimum [.op .relu [.any "x"],
    .skip (.label "alpha" (·.kind = .constant)) (·.kind = .broadcast)]
  apply := fun root found => do
    let x ← bound found "x"
    let alpha ← bound found "alpha"
    match uniformBound? (← node root) (← node x) (← node alpha) with
    | none => return false
    | some value =>
      let fused ← change (Graph.boundedRelu x (.ofFloat value))
      change (Graph.replace root fused)
      return true

/-- Places a rescaling after a product of two operands. -/
def rescaleProduct (kind : OpKind) : Rule where
  pattern := .op kind [.any "a", .any "b"]
  apply := fun root _ => ensureRescaleAfter root

/-- Fuses bounded rectifiers and places rescalings after products. -/
def fuse : Edit Bool :=
  applyRules [fuseBounded, rescaleProduct .dot, rescaleProduct .multiply,
    rescaleProduct .convolution]

end CipherFlow.Normalize
