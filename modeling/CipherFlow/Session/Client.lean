import CipherFlow.Run.Backend
import CipherFlow.Session.Frame
import CipherFlow.Session.Payload

/-!
# The client

The client holds the secret key. It makes keys for the server's parameters,
sends its public keys and its encrypted input, and answers requests for
nonlinear functions until the result arrives. Whatever ends a run closes the
connection.
-/

namespace CipherFlow.Session

/-- The keys of a client. -/
structure ClientKeys where
  secret : SecretKey
  evaluator : Evaluator
  coins : Coins

/-- The state of a client over a transport. -/
structure Client (τ : Type) where
  transport : τ
  state : State
  settings : Settings
  type : TensorType
  inputs : List Float
  keys : Option ClientKeys
  result : Option (List Float)

namespace Client

variable {τ α : Type}

/-- A client over a connection. -/
def ofTransport (t : τ) (type : TensorType) (inputs : List Float) (settings : Settings) :
    Client τ :=
  ⟨t, .ready, settings, type, inputs, none, none⟩

/-- A client that opens a link to its server. -/
def connect (network : Link.Network) (type : TensorType) (inputs : List Float)
    (settings : Settings) : Except Link.OpenError (Client Link) := do
  let link ← Link.establish network settings.timeout
  return ofTransport link type inputs settings

/-- A step of a client. What it did before it failed stays done. -/
abbrev Act (τ : Type) := ExceptT Error (StateM (Client τ))

/-- A step that only needs the transport. -/
def overTransport (x : ExceptT Error (StateM τ) α) : Act τ α := fun c =>
  let (r, t) := x.run.run c.transport
  (r, { c with transport := t })

/-- Enters a state. -/
def enter (state : State) : Act τ Unit :=
  modify fun c => { c with state := state }

section

variable [Primitives] [Transport τ]

/-- Sends a message. -/
def send (m : Message) : Act τ Unit :=
  overTransport (Transport.send m)

/-- Ends the session. -/
def finish : Act τ Unit :=
  modify fun c => { c with transport := Transport.close c.transport, state := .done }

/-! ## Answers to messages -/

/-- Makes keys for the server's parameters, and sends the public ones and the
encrypted input. Keys and encryptions take their coins from tapes of their own. -/
def greet (m : Message) : Act τ Unit := do
  let c ← get
  let params ← m.readParameters
  let ctx ← (Context.ofParams params : Except Error Context)
  let (keys, _) ← (KeySet.generate ctx (Coins.ofSeed c.settings.seed) : Except Error _)
  let ev ← (Evaluator.ofKeys ctx keys.publicKey keys.relinKey : Except Error Evaluator)
  send (← Message.evaluationKeys ctx keys.publicKey keys.relinKey)
  let packing := c.settings.packing
  let encrypted := BatchedTensor.encrypt ev c.type c.settings.batch c.inputs packing
  let (t, coins) ← (encrypted.run (Coins.ofSeed (c.settings.seed + 1)) : Except Error _)
  send (← Message.execute ctx
    ⟨packing, c.type, c.settings.batch, Backend.cipherElements t.values⟩)
  modify fun c => { c with keys := some ⟨keys.secret, ev, coins⟩, state := .awaitingRequest }

/-- The keys, which are there once parameters have been received. -/
def keysFor (kind : MessageKind) : Act τ ClientKeys := do
  match (← get).keys with
  | some keys => return keys
  | none => throw (.unexpectedMessage .ready kind)

/-- Applies the function that is asked for to the elements of a request, and
sends the answer. The elements take coins in their order, as with
`Run.Oracle.ofKey`. -/
def answer (kind : MessageKind) (f : Nonlinear) (count : Nat) (elements : Wire.Bytes) :
    Act τ Unit := do
  enter .processing
  let keys ← keysFor kind
  let ctx := keys.evaluator.context
  let settings := (← get).settings
  let batch ← readElements ctx settings.packing count elements
  let answers : Element.Compute (List Handle) :=
    batch.mapM fun h => f.applyWithKey h settings.batch keys.secret keys.evaluator
  let (response, coins) ← (answers.run keys.coins : Except Error _)
  send (← Message.response ctx response)
  modify fun c => { c with keys := some { keys with coins }, state := .awaitingRequest }

/-- Decrypts the result and ends the session. -/
def conclude (m : Message) : Act τ Unit := do
  let keys ← keysFor m.kind
  let ctx := keys.evaluator.context
  let c ← get
  let (shape, handles) ← m.readResult ctx c.settings.packing
  let opened : Except Run.Problem (List Float) := do
    let t ← BatchedTensor.ofValues ⟨c.type.elementType, shape⟩ c.settings.batch
      (handles.map .cipher)
    t.read (some keys.secret) ctx
  let values ← (opened : Except Error _)
  modify fun c => { c with result := some values }
  finish

/-- The bound of a bounded rectifier, and the elements after it. -/
def splitBound (payload : Wire.Bytes) : Except Error (Binary64 × Wire.Bytes) :=
  (field Wire.readFloat).run payload

/-- Takes one message. Once the session is over, messages are dropped. -/
def handle (m : Message) : Act τ Unit := do
  match (← get).state, m.kind with
  | .done, _ => return
  | .ready, .parameters => greet m
  | .awaitingRequest, .reluRequest => answer m.kind .relu m.count m.payload
  | .awaitingRequest, .boundedReluRequest =>
    let (bound, elements) ← splitBound m.payload
    answer m.kind (.bounded bound) m.count elements
  | .awaitingRequest, .result => conclude m
  | state, kind => throw (.unexpectedMessage state kind)

/-! ## Whole sessions -/

/-- Receives one message and takes it; an error ends the session. -/
def step : Act τ Unit :=
  tryCatch (do
      let m ← overTransport Transport.receive
      handle m)
    fun e => do
      finish
      throw e

/-- The result, once there is one. -/
def give : Act τ (List Float) := do
  match (← get).result with
  | some values => return values
  | none => throw .closed

/-- Takes at most so many messages. -/
def serve : (messages : Nat) → Act τ (List Float)
  | 0 => give
  | messages + 1 => do
    if (← get).state = .done then give
    else
      step
      serve messages

/-- Serves the server until it sends the result. Each round takes a message, so the
rounds never run out. -/
def run : Act τ (List Float) := do
  let c ← get
  serve (Transport.pending c.transport + 1)

end

end Client

end CipherFlow.Session
