import CipherFlow.Graph.Basic

/-!
# Typing

The type of the value of an operation, from the types of its operands.
-/

namespace CipherFlow.TensorType

open CipherFlow.Graph (Error Conflict)

/-- Operands have to agree in the type of their numbers. -/
def checkElementType (a b : TensorType) : Except Error Unit :=
  if a.elementType = b.elementType then .ok ()
  else .error (.elementType a.elementType b.elementType)

/-- A shape as that of images. -/
def images (t : TensorType) : Except Error Shape.Images :=
  (Shape.images t.shape).mapError fun p => .shape (.rank p)

/-- Windows over images, given the number of channels that come out. -/
def windows (t : TensorType) (i : Shape.Images) (channels : Nat) (window strides : Nat × Nat) :
    Except Error TensorType := do
  let out ← (Shape.windowImages i.batch channels (i.height, i.width) window strides).mapError
    fun p => .shape (.window p)
  return ⟨t.elementType, out.shape⟩

/-- A value repeated to fill a shape. -/
def broadcast (t : TensorType) (shape : Shape) : Except Error TensorType :=
  if t.shape.canBroadcast shape then .ok ⟨t.elementType, shape⟩
  else .error (.shape (.broadcast t.shape shape))

/-- An operation between the elements at the same places. -/
def elementwise (kind : OpKind) (a b : TensorType) : Except Error TensorType := do
  checkElementType a b
  if a.shape = b.shape then return a
  throw (.shape (.operands kind a.shape b.shape))

/-- A contraction: the axes that are left of both operands. -/
def dot (a b : TensorType) : Except Error TensorType := do
  checkElementType a b
  match a.shape.getLast?, b.shape with
  | some k, k' :: rest =>
    if k = k' then return ⟨a.elementType, a.shape.dropLast ++ rest⟩
    throw (.shape (.dot a.shape b.shape))
  | _, _ => throw (.shape (.dot a.shape b.shape))

/-- A convolution of images with filters. -/
def convolution (strides : Nat × Nat) (data filter : TensorType) : Except Error TensorType := do
  checkElementType data filter
  let d ← data.images
  let f ← filter.images
  if d.channels ≠ f.channels then throw (.shape (.channels data.shape filter.shape))
  windows data d f.batch (f.height, f.width) strides

/-- Averages over windows of images. -/
def averagePool (window strides : Nat × Nat) (data : TensorType) : Except Error TensorType := do
  let d ← data.images
  windows data d d.channels window strides

end CipherFlow.TensorType
