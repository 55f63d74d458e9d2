import CipherFlow.Run.Backend
import CipherFlow.Session.Payload
import CipherFlow.Session.Transport

/-!
# The server

The server sends its parameters, receives the client's public keys and its
encrypted input, and evaluates. It has the client apply nonlinear functions,
in requests of a bounded number of ciphertexts. Whatever fails closes the
connection.
-/

namespace CipherFlow.Session

/-- What a server keeps of a handshake. -/
structure Server where
  context : Context
  packing : Packing
  /-- The most ciphertexts of one request; none counts as one. -/
  maxBatch : Nat

namespace Server

variable {τ α : Type} [Primitives] [Transport τ]

/-- A step of a server. -/
abbrev Act (τ : Type) := ExceptT Error (StateM τ)

/-- Closes the connection if a step fails. -/
def orClose (x : Act τ α) : Act τ α :=
  tryCatch x fun e => do
    modify Transport.close
    throw e

/-- Receives a message of a kind. -/
def expect (kind : MessageKind) : Act τ Message := do
  let m ← Transport.receive
  if m.kind ≠ kind then throw (.malformed (.kind kind m.kind))
  return m

/-! ## The handshake -/

/-- What a handshake gives: the server, a backend with the client's keys, and
the input. -/
structure Welcome where
  server : Server
  backend : Backend
  input : BatchedTensor

/-- Sends the parameters and receives keys and input. -/
def exchange (params : Params) (settings : Settings) : Act τ Welcome := do
  let ctx ← (Context.ofParams params : Except Error Context)
  Transport.send (Message.parameters params)
  let m ← expect .evaluationKeys
  let (publicKey, relinKey) ← m.readEvaluationKeys ctx
  let m ← expect .execute
  let input ← m.readExecute ctx
  let t ← (BatchedTensor.ofValues input.type input.batch (input.handles.map .cipher) :
    Except Error BatchedTensor)
  let backend ← (Backend.ofKeys ctx publicKey relinKey
    ⟨input.packing.isComplex, settings.seed⟩ : Except Error Backend)
  return ⟨⟨ctx, input.packing, settings.maxBatch⟩, backend, t⟩

/-- A handshake with a client; if it fails, the connection is closed. -/
def handshake (params : Params) (settings : Settings) : Act τ Welcome :=
  orClose (exchange params settings)

/-! ## Requests -/

/-- Requires that answers stand at the levels and scales of what was asked,
counting from an index. -/
def checkAnswers : (index : Nat) → (asked answered : List Handle) → Except Error Unit
  | index, a :: asked, b :: answered =>
    if b.level = a.level ∧ Scheme.scalesMatch b.scale a.scale then
      checkAnswers (index + 1) asked answered
    else .error (.responseMismatch index b.level b.scale)
  | _, _, _ => .ok ()

/-- Asks the client to apply a function to elements. -/
def ask (s : Server) (f : Nonlinear) (batch : List Handle) : Act τ (List Handle) := do
  Transport.send (← Message.request s.context f batch)
  let m ← expect .reluResponse
  if m.count ≠ batch.length then throw (.malformed (.answerCount batch.length m.count))
  let answers ← readElements s.context s.packing m.count m.payload
  checkAnswers 0 batch answers
  return answers

/-- Cuts a list into pieces of one more than `size` elements; the last may be
shorter. -/
def pieces (size : Nat) : List α → List (List α)
  | [] => []
  | x :: rest => (x :: rest.take size) :: pieces size (rest.drop size)
termination_by xs => xs.length
decreasing_by
  simp only [List.length_drop, List.length_cons]
  omega

/-- Asks for pieces one after the other. -/
def askEach (s : Server) (f : Nonlinear) : List (List Handle) → Act τ (List Handle)
  | [] => return []
  | piece :: rest => do
    let here ← s.ask f piece
    let later ← askEach s f rest
    return here ++ later

/-- Has the client apply a function to elements. -/
def evaluate (s : Server) (f : Nonlinear) (batch : List Handle) : Act τ (List Handle) :=
  orClose (s.askEach f (pieces (s.maxBatch - 1) batch))

/-- The client as the oracle of a run. -/
def oracle (s : Server) : Run.Oracle τ Error := fun f _ batch (coins, t) =>
  match (s.evaluate f batch).run.run t with
  | (.ok answers, t) => (.ok answers, (coins, t))
  | (.error e, t) => (.error (.oracle e), (coins, t))

/-- Normalizes a graph and evaluates it on the client's input. -/
def Welcome.evaluate (w : Welcome) (g : Graph) :
    Run.Eval τ Error (Normalize.Compiled × List BatchedTensor) := do
  let c ← Run.require (Normalize.compile g)
  let outputs ← w.backend.call c.graph [w.input] w.server.oracle
  return (c, outputs)

/-! ## The result -/

/-- The elements of a tensor, which have to be encrypted. -/
def encryptedElements : List Element → Except Error (List Handle)
  | [] => .ok []
  | .plain _ :: _ => .error (.malformed .plainResult)
  | .cipher h :: rest => (encryptedElements rest).map (h :: ·)

/-- Sends a tensor as the result. -/
def deliver (s : Server) (t : BatchedTensor) : Act τ Unit := do
  let handles ← encryptedElements t.values
  Transport.send (← Message.result s.context t.type.shape handles)

/-- Sends the result and closes the connection. -/
def sendResult (s : Server) (t : BatchedTensor) : Act τ Unit := fun transport =>
  let (r, transport) := (s.deliver t).run.run transport
  (r, Transport.close transport)

end Server

end CipherFlow.Session
