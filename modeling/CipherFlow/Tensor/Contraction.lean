import CipherFlow.Element.Handle

/-!
# Contraction, windows and broadcasting

Tensor operations built from a sum and a product of elements. They know the
elements only through these two operations, and list them in row-major
order. Reading an element that is not there is a fault.
-/

namespace CipherFlow.Tensor

open CipherFlow.Element (Compute Error)

variable {α : Type}

/-- Requires as many elements as a shape has. -/
def checkCount (values : List α) (shape : Shape) : Except Error Unit :=
  if values.length = shape.size then .ok ()
  else .error (.shape (.elementCount values.length shape))

/-- The values of a computation at `start`, `start + 1`, …, in this order. -/
def tabulateFrom (f : Nat → Compute α) : (count start : Nat) → Compute (List α)
  | 0, _ => return []
  | count + 1, start => do
    let x ← f start
    let rest ← tabulateFrom f count (start + 1)
    return x :: rest

/-- The values of a computation at each place of an output. -/
def tabulate (count : Nat) (f : Nat → Compute α) : Compute (List α) := do
  let n ← Fault.checkSize count
  Shape.reserve n
  tabulateFrom f n 0

/-- Combines two lists of one length element by element. -/
def elementwise (op : α → α → Compute α) (a b : List α) : Compute (List α) := do
  if a.length ≠ b.length then throw (.lengthMismatch a.length b.length)
  (a.zip b).mapM fun xy => op xy.1 xy.2

/-! ## Sums -/

/-- Adds products to a sum, from left to right. -/
def addProducts (add mul : α → α → Compute α) : (sum : α) → List (α × α) → Compute α
  | sum, [] => return sum
  | sum, (x, y) :: rest => do
    let term ← mul x y
    let sum ← add sum term
    addProducts add mul sum rest

/-- The sum of products, from left to right; there has to be one. -/
def sumProducts (add mul : α → α → Compute α) : List (α × α) → Compute α
  | [] => throw (.shape .emptyReduction)
  | (x, y) :: rest => do
    let term ← mul x y
    addProducts add mul term rest

/-- The sum of elements, from left to right; there has to be one. -/
def sumElements (add : α → α → Compute α) : List α → Compute α
  | [] => throw (.shape .emptyWindow)
  | x :: rest => rest.foldlM add x

/-! ## Contraction -/

/-- The pairs of elements whose products make up one entry: a row of the
first operand, a column of the second. -/
def rowColumn (a b : Array α) (k cols i j : Nat) : Except Fault (List (α × α)) :=
  (List.range k).mapM fun t => do
    let x ← Fault.entryOf a (i * k + t)
    let y ← Fault.entryOf b (t * cols + j)
    return (x, y)

/-- Sums over the last axis of the first operand and the first axis of the
second. -/
def dot (add mul : α → α → Compute α) (a : List α) (aShape : Shape) (b : List α)
    (bShape : Shape) : Compute (List α) := do
  checkCount a aShape
  checkCount b bShape
  match aShape.getLast?, bShape with
  | some k, k' :: rest =>
    if k ≠ k' then throw (.shape (.reductionAxes aShape bShape))
    let cols := Shape.size rest
    let a := a.toArray
    let b := b.toArray
    tabulate (Shape.size aShape.dropLast * cols) fun place => do
      let pairs ← rowColumn a b k cols (place / cols) (place % cols)
      sumProducts add mul pairs
  | _, _ => throw (.shape .scalarOperand)

/-! ## Windows -/

/-- The place of an element of images. -/
def imageIndex (i : Shape.Images) (b ch y x : Nat) : Nat :=
  ((b * i.channels + ch) * i.height + y) * i.width + x

/-- A place in images: batch, channel, row and column. -/
def imagePlace (i : Shape.Images) (place : Nat) : Nat × Nat × Nat × Nat :=
  (place / (i.height * i.width) / i.channels, place / (i.height * i.width) % i.channels,
    place / i.width % i.height, place % i.width)

/-- The offsets inside a window, row by row. -/
def windowOffsets (window : Nat × Nat) : List (Nat × Nat) :=
  (List.range window.1).flatMap fun ky => (List.range window.2).map fun kx => (ky, kx)

/-- The number of elements of images. -/
def imageCount (i : Shape.Images) : Nat :=
  i.batch * i.channels * i.height * i.width

/-- The pairs of data and filter elements that one output of a convolution
sums over: all channels, each window row by row. -/
def windowPairs (data filter : Array α) (d f : Shape.Images) (strides : Nat × Nat)
    (b oc oy ox : Nat) : Except Fault (List (α × α)) :=
  ((List.range d.channels).flatMap fun ch =>
      (windowOffsets (f.height, f.width)).map fun k => (ch, k)).mapM fun (ch, ky, kx) => do
    let x ← Fault.entryOf data (imageIndex d b ch (oy * strides.1 + ky) (ox * strides.2 + kx))
    let y ← Fault.entryOf filter (imageIndex f oc ch ky kx)
    return (x, y)

/-- The convolution of images with filters, without padding. -/
def convolution (add mul : α → α → Compute α) (data : List α) (dataShape : Shape)
    (filter : List α) (filterShape : Shape) (strides : Nat × Nat) : Compute (List α) := do
  checkCount data dataShape
  checkCount filter filterShape
  let d ← Shape.images dataShape
  let f ← Shape.images filterShape
  if f.channels ≠ d.channels then throw (.shape (.channels f.channels d.channels))
  let out ← Shape.windowImages d.batch f.batch (d.height, d.width) (f.height, f.width) strides
  let data := data.toArray
  let filter := filter.toArray
  tabulate (imageCount out) fun place => do
    let (b, oc, oy, ox) := imagePlace out place
    let pairs ← windowPairs data filter d f strides b oc oy ox
    sumProducts add mul pairs

/-- The elements of one window, row by row. -/
def windowElements (data : Array α) (d : Shape.Images) (window strides : Nat × Nat)
    (b ch oy ox : Nat) : Except Fault (List α) :=
  (windowOffsets window).mapM fun (ky, kx) =>
    Fault.entryOf data (imageIndex d b ch (oy * strides.1 + ky) (ox * strides.2 + kx))

/-- The sums over windows, each times a common factor that `inverse` gives
for the size of the window. -/
def windowSums (add mul : α → α → Compute α) (inverse : Nat → α) (data : List α)
    (dataShape : Shape) (window strides : Nat × Nat) : Compute (List α) := do
  checkCount data dataShape
  let d ← Shape.images dataShape
  let out ← Shape.windowImages d.batch d.channels (d.height, d.width) window strides
  let area ← Fault.checkSize (window.1 * window.2)
  let data := data.toArray
  tabulate (imageCount out) fun place => do
    let (b, ch, oy, ox) := imagePlace out place
    let elements ← windowElements data d window strides b ch oy ox
    let sum ← sumElements add elements
    mul sum (inverse area)

/-! ## Broadcasting -/

/-- Repeats elements along axes of extent 1 and along missing leading axes
to fill a shape. -/
def broadcast (values : List α) (source target : Shape) : Compute (List α) := do
  checkCount values source
  if !source.canBroadcast target then throw (.shape (.broadcast source target))
  let values := values.toArray
  tabulate target.size fun flat =>
    (Fault.entryOf values (Shape.sourceIndex target.reverse source.reverse flat 1) :)

end CipherFlow.Tensor
