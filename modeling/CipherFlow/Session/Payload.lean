import CipherFlow.Session.Message

/-!
# Contents of messages

For each kind of message there is a function that makes it, and one that
reads it back.
-/

namespace CipherFlow.Session

open CipherFlow.Wire (Bytes)

/-- A reader of contents takes bytes off the front of a list. -/
abbrev Reader := StateT Bytes (Except Error)

instance : MonadLift Wire.Reader Reader := ⟨fun r bytes => (r.run bytes).mapError .wire⟩

/-- Reads a field that belongs to the message itself. -/
def field (r : Wire.Reader α) : Reader α := fun bytes =>
  match r.run bytes with
  | .ok x => .ok x
  | .error .endOfData => .error .endOfData
  | .error e => .error (.wire e)

/-- Reads contents to their end. -/
def readAll (r : Reader α) (payload : Bytes) : Except Error α := do
  let (a, rest) ← r.run payload
  Wire.checkConsumed rest
  return a

/-! ## Shapes -/

/-- A shape as bytes: the rank, then the extents. -/
def shapeBytes (s : Shape) : Bytes :=
  Wire.wordBytes s.length ++ s.flatMap Wire.wordBytes

/-- Reads a shape. -/
def readShape : Reader Shape := do
  let rank ← field Wire.readWord
  if maxRank < rank then throw (.malformed (.rank rank))
  field (Wire.readMany Wire.readWord rank)

/-! ## Parameters and keys -/

/-- The server's parameters. -/
def Message.parameters (p : Params) : Message :=
  ⟨.parameters, 0, Wire.paramsBytes p⟩

/-- Reads the server's parameters. -/
def Message.readParameters (m : Message) : Except Error Params :=
  readAll Wire.readParams m.payload

/-- The client's public key material. -/
def Message.evaluationKeys (ctx : Context) (publicKey : PublicKey) (relinKey : RelinKey) :
    Except Error Message := do
  let a ← Wire.publicKeyBytes ctx publicKey
  let b ← Wire.relinKeyBytes ctx relinKey
  return ⟨.evaluationKeys, 0, a ++ b⟩

/-- Reads the client's public key material. -/
def Message.readEvaluationKeys (m : Message) (ctx : Context) :
    Except Error (PublicKey × RelinKey) :=
  readAll (do
    let publicKey ← Wire.readPublicKey ctx
    let relinKey ← Wire.readRelinKey ctx
    return (publicKey, relinKey)) m.payload

/-! ## The input -/

/-- The encrypted input of a client. -/
structure Input where
  packing : Packing
  type : TensorType
  batch : Nat
  handles : List Handle
deriving Repr, BEq

/-- The input of a client as a message. -/
def Message.execute (ctx : Context) (input : Input) : Except Error Message := do
  let handles ← Wire.handlesBytes ctx input.handles
  return ⟨.execute, input.handles.length,
    Wire.natBytes 1 (if input.packing.isComplex then 1 else 0) ++
      Wire.natBytes 1 input.type.elementType.code ++ Wire.wordBytes input.batch ++
      shapeBytes input.type.shape ++ handles⟩

/-- Reads the type of numbers. -/
def readElementType : Reader ElementType := do
  let code ← field Wire.readByte
  match ElementType.ofCode? code with
  | some t => return t
  | none => throw (.malformed (.elementType code))

/-- Reads the input of a client: a batch of lanes has to fit a ciphertext,
and the shape has to hold as many elements as there are lanes. -/
def Message.readExecute (m : Message) (ctx : Context) : Except Error Input :=
  readAll (do
    let flag ← field Wire.readByte
    let packing := Packing.ofFlag (flag != 0)
    let elementType ← readElementType
    let batch ← field Wire.readWord
    let capacity := packing.capacity ctx.slotCount
    if batch = 0 ∨ capacity < batch then throw (.malformed (.batchSize batch capacity))
    let shape ← readShape
    if shape.size? ≠ some (m.count * batch) then
      throw (.malformed (.shape shape m.count batch))
    let handles ← Wire.readHandles ctx packing m.count
    return ⟨packing, ⟨elementType, shape⟩, batch, handles⟩) m.payload

/-! ## Requests and answers -/

/-- The kind of message that asks for a function. -/
def requestKind : Nonlinear → MessageKind
  | .relu => .reluRequest
  | .bounded _ => .boundedReluRequest

/-- The bytes that say which function is asked for, beyond the kind. -/
def requestBytes : Nonlinear → Bytes
  | .relu => []
  | .bounded bound => Wire.floatBytes bound

/-- A request to apply a function to elements. -/
def Message.request (ctx : Context) (f : Nonlinear) (batch : List Handle) :
    Except Error Message := do
  let handles ← Wire.handlesBytes ctx batch
  return ⟨requestKind f, batch.length, requestBytes f ++ handles⟩

/-- Reads the elements of a request or an answer. -/
def readElements (ctx : Context) (packing : Packing) (count : Nat) (payload : Bytes) :
    Except Error (List Handle) :=
  readAll (Wire.readHandles ctx packing count) payload

/-- The answer to a request. -/
def Message.response (ctx : Context) (batch : List Handle) : Except Error Message := do
  let handles ← Wire.handlesBytes ctx batch
  return ⟨.reluResponse, batch.length, handles⟩

/-! ## The result -/

/-- The result as a message. -/
def Message.result (ctx : Context) (shape : Shape) (handles : List Handle) :
    Except Error Message := do
  let bytes ← Wire.handlesBytes ctx handles
  return ⟨.result, handles.length, shapeBytes shape ++ bytes⟩

/-- Reads the shape and the elements of a result. -/
def Message.readResult (m : Message) (ctx : Context) (packing : Packing) :
    Except Error (Shape × List Handle) :=
  readAll (do
    let shape ← readShape
    let handles ← Wire.readHandles ctx packing m.count
    return (shape, handles)) m.payload

end CipherFlow.Session
