import CipherFlow.Fault

/-!
# Shapes

The extents of a tensor along its axes. Tensors are flat lists in row-major
order, so a shape gives the number of elements and the place of each.
-/

namespace CipherFlow

/-- The extents of a tensor, outermost axis first. -/
abbrev Shape := List Nat

namespace Shape

/-- A shape as text: extents in brackets. -/
def text (s : Shape) : String :=
  "[" ++ ", ".intercalate (s.map toString) ++ "]"

/-- The number of elements, if no product on the way leaves a machine
word. -/
def size? (s : Shape) : Option Nat :=
  s.foldlM (fun n d => if n * d < wordSize then some (n * d) else none) 1

/-- The number of elements, or the largest word where there are more. -/
def size (s : Shape) : Nat :=
  s.size?.getD (wordSize - 1)

/-- The bytes of an element. -/
def elementWidth : Nat := 48

/-- Requires that a number of elements fits into memory. -/
def reserve (n : Nat) : Except Fault Unit :=
  Fault.reserve elementWidth n

/-- What shapes can be refused for. -/
inductive Problem where
  | elementCount (given : Nat) (shape : Shape)
  | scalarOperand
  | reductionAxes (a b : Shape)
  | emptyReduction
  | window (window stride extent : Nat)
  | emptyWindow
  | notRankFour (shape : Shape)
  | channels (filter data : Nat)
  | broadcast (source target : Shape)
deriving Repr, DecidableEq

/-- The wording of a problem. -/
def Problem.message : Problem → String
  | .elementCount given shape => s!"{given} elements for shape {shape.text}"
  | .scalarOperand => "dot needs rank >= 1 operands"
  | .reductionAxes a b => s!"dot reduction axes differ: {a.text} . {b.text}"
  | .emptyReduction => "empty reduction"
  | .window w stride extent => s!"window {w} stride {stride} over extent {extent}"
  | .emptyWindow => "empty window"
  | .notRankFour shape => s!"expected rank 4, got {shape.text}"
  | .channels filter data => s!"filter expects {filter} channels, data has {data}"
  | .broadcast source target => s!"cannot broadcast {source.text} to {target.text}"

/-! ## Windows -/

/-- The number of positions of a window along one axis: those that are
multiples of the stride and lie inside. -/
def windowCount (extent window stride : Nat) : Except Problem Nat :=
  if window = 0 ∨ stride = 0 ∨ extent < window then .error (.window window stride extent)
  else .ok ((extent - window) / stride + 1)

/-- The four extents of images: batch, channels, height, width. -/
structure Images where
  batch : Nat
  channels : Nat
  height : Nat
  width : Nat
deriving Repr, DecidableEq

/-- The shape of images. -/
def Images.shape (i : Images) : Shape :=
  [i.batch, i.channels, i.height, i.width]

/-- Reads a shape as images. -/
def images (s : Shape) : Except Problem Images :=
  match s with
  | [n, c, h, w] => .ok ⟨n, c, h, w⟩
  | s => .error (.notRankFour s)

/-- The images that windows over an area give. -/
def windowImages (batch channels : Nat) (input window strides : Nat × Nat) :
    Except Problem Images := do
  let height ← windowCount input.1 window.1 strides.1
  let width ← windowCount input.2 window.2 strides.2
  return ⟨batch, channels, height, width⟩

/-! ## Broadcasting -/

/-- Whether a shape can be repeated to fill another: aligned at the right,
every extent is 1 or the same. -/
def canBroadcast (source target : Shape) : Bool :=
  source.length ≤ target.length &&
    (List.zipWith (fun d t => d == 1 || d == t) source.reverse target.reverse).all id

/-- The place in the source from which a place of the target is filled. The
axes are given innermost first; `stride` is the distance between neighbours
along the first of them. An axis of extent 1 is read at its only index. -/
def sourceIndex : (targetAxes sourceAxes : List Nat) → (flat stride : Nat) → Nat
  | t :: target, d :: source, flat, stride =>
    (if d = 1 then 0 else flat % t * stride) + sourceIndex target source (flat / t) (stride * d)
  | _, _, _, _ => 0

end Shape

end CipherFlow
