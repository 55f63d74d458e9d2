import CipherFlow.Session.Transport
import CipherFlow.Wire.Bytes

/-!
# Frames

Over a stream of bytes a message is sent as a frame: the length of what
follows, the code of its kind, the count and the contents.
-/

namespace CipherFlow.Session

open CipherFlow.Wire (Bytes)

/-- The largest length of a frame. -/
def maxFrameLength : Nat := Nat.pow 2 30

/-- The bytes of a frame between its length and the contents. -/
def frameOverhead : Nat := 9

/-- The length of the frame of a message. -/
def Message.frameLength (m : Message) : Nat :=
  frameOverhead + m.payload.length

/-- The frame of a message. -/
def Message.frame (m : Message) : Bytes :=
  Wire.wordBytes m.frameLength ++ Wire.natBytes 1 m.kind.code ++ Wire.wordBytes m.count ++
    m.payload

/-- One end of a stream. -/
structure Link where
  /-- Bytes of the other end that are not yet read. -/
  incoming : Bytes
  /-- Whether the other end sends no more than these. -/
  ended : Bool
  /-- Bytes that were written. -/
  outgoing : Bytes
  timeout : Nat
  closed : Bool
deriving Repr, DecidableEq

namespace Link

/-- How the host is connected to the network. What it takes to reach the other end
is the operating system's matter. -/
inductive Network where
  | reachable
  | unreachable
deriving Repr, DecidableEq

/-- Why a link cannot be opened. -/
inductive OpenError where
  | unreachable
deriving Repr, DecidableEq

/-- The wording of an error, which is the operating system's. -/
def OpenError.message : OpenError → String
  | unreachable => "Network is unreachable (os error 101)"

instance : ToString OpenError := ⟨OpenError.message⟩

/-- Opens a link over the network of the host. Nothing has been read or written
on it. -/
def establish (network : Network) (timeout : Nat) : Except OpenError Link :=
  match network with
  | .reachable => .ok ⟨[], false, [], timeout, false⟩
  | .unreachable => .error .unreachable

/-- Takes bytes that have arrived. Where there are too few, those there are
are lost, and the link is over if the other end has finished. -/
def take (count : Nat) : ExceptT Error (StateM Link) Bytes := fun l =>
  if count ≤ l.incoming.length then
    (.ok (l.incoming.take count), { l with incoming := l.incoming.drop count })
  else
    (.error (if l.ended then .closed else .timeout l.timeout), { l with incoming := [] })

/-- Takes a number of the given width. -/
def takeNat (width : Nat) : ExceptT Error (StateM Link) Nat := do
  let bytes ← take width
  return Wire.natOfBytes bytes

/-- Refuses a link that is closed. -/
def checkOpen : ExceptT Error (StateM Link) Unit := do
  if (← get).closed then throw .closed

/-- Receives the message of the next frame. -/
def receive : ExceptT Error (StateM Link) Message := do
  checkOpen
  let length ← takeNat 8
  if maxFrameLength < length then throw (.frameTooLarge length maxFrameLength)
  if length < frameOverhead then throw (.malformed (.frameLength length))
  let code ← takeNat 1
  let kind ← MessageKind.ofCode code
  let count ← takeNat 8
  let payload ← take (length - frameOverhead)
  return ⟨kind, count, payload⟩

/-- Sends the frame of a message. -/
def send (m : Message) : ExceptT Error (StateM Link) Unit := do
  checkOpen
  if maxFrameLength < m.frameLength then throw (.frameTooLarge m.frameLength maxFrameLength)
  modify fun l => { l with outgoing := l.outgoing ++ m.frame }

instance : Transport Link where
  send := send
  receive := receive
  close := fun l => { l with closed := true }
  isClosed := closed
  pending := fun l => l.incoming.length

end Link

end CipherFlow.Session
