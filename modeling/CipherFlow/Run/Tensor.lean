import CipherFlow.Run.Problem

/-!
# Batched tensors

With a batch size `b` above 1 the leading axis is cut into groups of `b`
consecutive items, and the items of a group share their elements: lane `l` of
an element belongs to item `l` of its group. So only a `b`-th of the elements
is held. The shape that they are laid out in is the packed shape.
-/

namespace CipherFlow

open CipherFlow.Run (Problem)

/-- A tensor held as elements. -/
structure BatchedTensor where
  type : TensorType
  batch : Nat
  values : List Element
deriving Repr, BEq

namespace BatchedTensor

/-! ## Layout -/

/-- A shape with its leading axis divided by the batch size. -/
def pack (shape : Shape) (batch : Nat) : Except Problem Shape :=
  if batch = 1 then .ok shape
  else
    match shape with
    | [] => .error (.batching (.leadingAxis batch shape))
    | n :: rest =>
      if 1 < batch ∧ n % batch = 0 then .ok (n / batch :: rest)
      else .error (.batching (.leadingAxis batch shape))

/-- The number of elements of an item of the leading axis. -/
def itemSize (shape : Shape) : Nat :=
  max (Shape.size shape.tail) 1

/-- The place in row-major order of a lane of an element. -/
def laneIndex (item batch element lane : Nat) : Nat :=
  (element / item * batch + lane) * item + element % item

/-- Collects the lanes of each element from row-major data. -/
def groupLanes (data : List Float) (shape : Shape) (batch : Nat) :
    Except Problem (List (List Float)) := do
  if data.length ≠ shape.size then throw (.valueCount data.length)
  let packed ← pack shape batch
  let data := data.toArray
  (List.range packed.size).mapM fun element =>
    (List.range batch).mapM fun lane =>
      (Fault.entryOf data (laneIndex (itemSize shape) batch element lane) :)

/-- The element and the lane of a place in row-major order. -/
def laneAt (item batch place : Nat) : Nat × Nat :=
  (place / item / batch * item + place % item, place / item % batch)

/-- Row-major data from the lanes of each element; lanes that are not there
count as zero. -/
def spreadLanes (lanes : List (List Float)) (shape : Shape) (batch : Nat) : List Float :=
  let table := (lanes.map List.toArray).toArray
  (List.range shape.size).map fun place =>
    let (element, lane) := laneAt (itemSize shape) batch place
    (table.getD element #[]).getD lane 0

/-! ## Making tensors -/

/-- A tensor of given elements, as many as the packed shape has. -/
def ofValues (type : TensorType) (batch : Nat) (values : List Element) :
    Except Problem BatchedTensor := do
  if type.shape.size?.isNone then throw (.shapeOverflow type.shape)
  let packed ← pack type.shape batch
  if values.length ≠ packed.size then throw (.valueCount values.length)
  return ⟨type, batch, values⟩

/-- A plain tensor of row-major data. -/
def plain (type : TensorType) (batch : Nat) (data : List Float) :
    Except Problem BatchedTensor := do
  let lanes ← groupLanes data type.shape batch
  ofValues type batch (lanes.map .plain)

/-- Encrypts row-major data at the top level and the default scale. -/
def encrypt (ev : Evaluator) (type : TensorType) (batch : Nat) (data : List Float)
    (packing : Packing) : Run.Sampling BatchedTensor := do
  let capacity := packing.capacity ev.context.slotCount
  if capacity < batch then throw (.laneCapacity batch capacity)
  let lanes ← groupLanes data type.shape batch
  let values ← lanes.mapM fun xs => do
    let ct ← ev.encrypt xs packing ev.context.defaultScale ev.context.topLevel
    return Element.cipher (.ofCiphertext ct packing)
  ofValues type batch values

/-! ## Views -/

/-- The shape that the elements are laid out in. -/
def packedShape (t : BatchedTensor) : Shape :=
  match t.type.shape with
  | [] => []
  | n :: rest => n / t.batch :: rest

/-- Whether some element is encrypted. -/
def isEncrypted (t : BatchedTensor) : Bool :=
  t.values.any Element.isCipher

/-- The lanes of an element, for which an encrypted one needs the secret
key. -/
def openElement (ctx : Context) (key : Option SecretKey) (batch : Nat) :
    Element → Except Problem (List Float)
  | .plain xs => do
    Fault.reserve 8 batch
    (List.range batch).mapM fun lane => (Lanes.lane xs lane :)
  | .cipher h =>
    match h.state, key with
    | .zero .., _ => do
      Fault.reserve 8 batch
      return List.replicate batch 0
    | .encrypted _, none => throw .missingSecretKey
    | .encrypted ct, some key => do
      let p ← ct.decrypt key
      ctx.decode p h.packing batch

/-- The row-major values of a tensor. -/
def read (t : BatchedTensor) (key : Option SecretKey) (ctx : Context) :
    Except Problem (List Float) := do
  let lanes ← t.values.mapM (openElement ctx key t.batch)
  Fault.reserve 8 t.type.shape.size
  return spreadLanes lanes t.type.shape t.batch

end BatchedTensor

end CipherFlow
