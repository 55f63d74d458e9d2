import CipherFlow.Element.Arith

/-!
# Nonlinear functions

The rectifier and its bounded form. On plain lanes they are computed in
place. A ciphertext has to be decrypted for them, so they take the secret
key, and the result is encrypted afresh.
-/

namespace CipherFlow

/-- A nonlinear function of one real variable. -/
inductive Nonlinear where
  /-- `max(x, 0)` -/
  | relu
  /-- `min(max(x, 0), bound)` -/
  | bounded (bound : Binary64)
deriving Repr, BEq

namespace Nonlinear

/-- The name of a function. -/
def name : Nonlinear → String
  | relu => "Relu"
  | bounded bound => s!"BoundedRelu({Decimal.shortest bound})"

/-- The larger of two numbers; a number beats not-a-number. -/
def maxNumber (x y : Float) : Float :=
  if x.isNaN then y else if y.isNaN then x else if x < y then y else x

/-- The smaller of two numbers; a number beats not-a-number. -/
def minNumber (x y : Float) : Float :=
  if x.isNaN then y else if y.isNaN then x else if y < x then y else x

/-- The value of a function. -/
def apply : Nonlinear → Float → Float
  | relu, x => maxNumber x 0
  | bounded bound, x => minNumber (maxNumber x 0) bound

/-- The lanes to which a function is applied: those of the message, or zeros
for an element that is known to be zero. -/
def openLanes (h : Handle) (lanes : Nat) (key : SecretKey) (ev : Evaluator) :
    Except Element.Error (List Float) :=
  match h.state with
  | .zero .. => do
    Fault.reserve 8 lanes
    return List.replicate lanes 0
  | .encrypted ct => do
    let p ← ct.decrypt key
    ev.context.decode p h.packing lanes

/-- Applies a function to the first lanes of an encrypted element, and
encrypts the result at the scale and the level of the element. An element
that is known to be zero stays so where the function keeps zero. -/
def applyWithKey (f : Nonlinear) (h : Handle) (lanes : Nat) (key : SecretKey)
    (ev : Evaluator) : Element.Compute Handle := do
  if h.isZero && f.apply 0 == 0 then return h
  let values ← openLanes h lanes key ev
  let ct ← ev.encrypt (values.map f.apply) h.packing h.scale h.level
  return .ofCiphertext ct h.packing

end Nonlinear

end CipherFlow
