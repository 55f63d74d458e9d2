import CipherFlow.Tensor.Shape

/-!
# Tensor types

The type of the numbers in a tensor, and the type of a tensor: numbers and
shape.
-/

namespace CipherFlow

/-- The type of the numbers in a tensor. -/
inductive ElementType where
  | f32
  | f64
  | i32
  | i64
deriving Repr, DecidableEq

namespace ElementType

/-- The name of a type. -/
def name : ElementType → String
  | f32 => "F32"
  | f64 => "F64"
  | i32 => "I32"
  | i64 => "I64"

/-- Whether the numbers are real. -/
def isReal : ElementType → Bool
  | f32 | f64 => true
  | i32 | i64 => false

/-- The number that stands for a type in messages. -/
def code : ElementType → Nat
  | f32 => 0
  | f64 => 1
  | i32 => 2
  | i64 => 3

/-- The type that a number stands for. -/
def ofCode? : Nat → Option ElementType
  | 0 => some f32
  | 1 => some f64
  | 2 => some i32
  | 3 => some i64
  | _ => none

theorem ofCode?_code (t : ElementType) : ofCode? t.code = some t := by
  cases t <;> rfl

end ElementType

/-- The type of a tensor. -/
structure TensorType where
  elementType : ElementType
  shape : Shape
deriving Repr, DecidableEq

/-- A tensor type as text. -/
def TensorType.text (t : TensorType) : String :=
  t.elementType.name ++ t.shape.text

end CipherFlow
