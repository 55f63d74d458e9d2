import CipherFlow.Run.Problem
import CipherFlow.Wire.Key

/-!
# Messages

What a client, which holds the secret key, and a server, which evaluates a
graph, send each other, the states of a client, and the errors of a session.
-/

namespace CipherFlow.Session

/-- Kinds of messages. -/
inductive MessageKind where
  | parameters
  | evaluationKeys
  | execute
  | reluRequest
  | reluResponse
  | boundedReluRequest
  | result
deriving Repr, DecidableEq

namespace MessageKind

/-- The name of a kind. -/
def name : MessageKind → String
  | parameters => "Parameters"
  | evaluationKeys => "EvaluationKeys"
  | execute => "Execute"
  | reluRequest => "ReluRequest"
  | reluResponse => "ReluResponse"
  | boundedReluRequest => "BoundedReluRequest"
  | result => "Result"

/-- The number that stands for a kind; 7 is not used. -/
def code : MessageKind → Nat
  | parameters => 1
  | evaluationKeys => 2
  | execute => 3
  | reluRequest => 4
  | reluResponse => 5
  | boundedReluRequest => 6
  | result => 8

/-- The kind that a number stands for. -/
def ofCode? : Nat → Option MessageKind
  | 1 => some parameters
  | 2 => some evaluationKeys
  | 3 => some execute
  | 4 => some reluRequest
  | 5 => some reluResponse
  | 6 => some boundedReluRequest
  | 8 => some result
  | _ => none

theorem ofCode?_code (k : MessageKind) : ofCode? k.code = some k := by
  cases k <;> rfl

theorem code_of_ofCode? {n : Nat} {k : MessageKind} (h : ofCode? n = some k) : k.code = n := by
  unfold ofCode? at h
  split at h <;> simp_all [code] <;> subst h <;> rfl

end MessageKind

/-- A message: a kind, the number of ciphertexts in it, and its contents. -/
structure Message where
  kind : MessageKind
  count : Nat
  payload : Wire.Bytes
deriving Repr, DecidableEq

/-- The states of a client. -/
inductive State where
  | connecting
  | ready
  | awaitingRequest
  | processing
  | done
deriving Repr, DecidableEq

/-- All states. -/
def State.all : List State :=
  [connecting, ready, awaitingRequest, processing, done]

theorem State.mem_all (s : State) : s ∈ all := by
  cases s <;> decide

/-- The name of a state. -/
def State.name : State → String
  | connecting => "connecting"
  | ready => "ready"
  | awaitingRequest => "awaiting-request"
  | processing => "processing"
  | done => "done"

/-! ## Errors -/

/-- The largest rank of a shape that is read. -/
def maxRank : Nat := 8

/-- Contents that do not make a message. -/
inductive Malformed where
  | rank (rank : Nat)
  | frameLength (length : Nat)
  | elementType (code : Nat)
  | batchSize (batch capacity : Nat)
  | shape (shape : Shape) (count batch : Nat)
  | kind (expected got : MessageKind)
  | answerCount (asked answered : Nat)
  | plainResult
deriving Repr, DecidableEq

/-- The wording for contents that do not make a message. -/
def Malformed.message : Malformed → String
  | .rank r => s!"rank {r} exceeds {maxRank}"
  | .frameLength length => s!"frame of {length} bytes"
  | .elementType code => s!"element type {code}"
  | .batchSize batch capacity => s!"batch size {batch} outside 1..={capacity}"
  | .shape s count batch =>
    s!"shape {s.text} does not hold {count} ciphertexts of {batch} lanes"
  | .kind expected got => s!"expected {expected.name}, got {got.name}"
  | .answerCount asked answered => s!"{asked} ciphertexts answered with {answered}"
  | .plainResult => "result holds unencrypted elements"

/-- What a session can fail with. -/
inductive Error where
  | endOfData
  /-- Nothing arrived within a number of milliseconds. -/
  | timeout (milliseconds : Nat)
  | closed
  | frameTooLarge (length limit : Nat)
  | unknownMessageKind (code : Nat)
  | unexpectedMessage (state : State) (kind : MessageKind)
  | malformed (m : Malformed)
  | responseMismatch (index level : Nat) (scale : Float)
  | wire (e : Wire.Error)
  | element (e : Element.Error)
  | scheme (e : Scheme.Error)
  | run (p : Run.Problem)
deriving Repr

/-- A time as text: in seconds, from one second on, else in milliseconds. -/
def durationText (milliseconds : Nat) : String :=
  if milliseconds = 0 then "0ns"
  else if milliseconds < 1000 then s!"{milliseconds}ms"
  else s!"{Decimal.shortest (Float.ofNat milliseconds / 1000)}s"

/-- The wording of an error. -/
def Error.message : Error → String
  | .endOfData => Wire.endOfDataText
  | .timeout milliseconds => s!"No message within {durationText milliseconds}"
  | .closed => "Connection closed"
  | .frameTooLarge length limit => s!"Frame of {length} bytes exceeds limit {limit}"
  | .unknownMessageKind code => s!"Unknown message kind {code}"
  | .unexpectedMessage state kind => s!"Unexpected {kind.name} message while {state.name}"
  | .malformed m => s!"Malformed payload: {m.message}"
  | .responseMismatch index level scale =>
    s!"Response element {index} came back at level {level}, scale {Decimal.shortest scale}"
  | .wire e => e.message
  | .element e => e.message
  | .scheme e => e.message
  | .run p => p.message

instance : ToString Error := ⟨Error.message⟩

instance : MonadLift (Except Wire.Error) (Except Error) := ⟨fun r => r.mapError .wire⟩

instance (priority := 1200) : MonadLift (Except Element.Error) (Except Error) :=
  ⟨fun r => r.mapError .element⟩

instance (priority := 1300) : MonadLift (Except Scheme.Error) (Except Error) :=
  ⟨fun r => r.mapError .scheme⟩

instance : MonadLift (Except Run.Problem) (Except Error) := ⟨fun r => r.mapError .run⟩

/-- The kind of a code, which has to be one of those in use. -/
def MessageKind.ofCode (code : Nat) : Except Error MessageKind :=
  match ofCode? code with
  | some k => .ok k
  | none => .error (.unknownMessageKind code)

end CipherFlow.Session
