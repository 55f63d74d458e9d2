import CipherFlow.Session.Client
import CipherFlow.Session.Server

/-!
# Exchanges

A server and a client that are connected to each other. The client takes each
message as soon as it is sent, so its answers are there when the server looks
for them.
-/

namespace CipherFlow.Session

/-- The client's end: messages that it has sent. -/
structure Outbox where
  sent : List Message
  closed : Bool
deriving Repr, DecidableEq

instance : Transport Outbox where
  send := fun m => modify fun o => { o with sent := o.sent ++ [m] }
  receive := throw .closed
  close := fun o => { o with closed := true }
  isClosed := Outbox.closed
  pending := fun _ => 0

/-- The server's end, with the client behind it. -/
structure Exchange where
  client : Client Outbox
  /-- How the client's session ended. -/
  outcome : Option (Except Error (List Float))
  /-- The number of the client's messages that the server has received. -/
  received : Nat
  /-- Messages that the server has sent. -/
  sent : List Message
  closed : Bool

namespace Exchange

/-- A connection to a client that has not yet heard anything. -/
def ofClient (type : TensorType) (inputs : List Float) (settings : Settings) : Exchange :=
  ⟨.ofTransport ⟨[], false⟩ type inputs settings, none, 0, [], false⟩

variable [Primitives]

/-- Lets the client do something, and notes how its session ended if it
did. -/
def advance (x : Exchange) (act : Client.Act Outbox Unit) : Exchange :=
  match x.outcome with
  | some _ => x
  | none =>
    match act.run.run x.client with
    | (.error e, c) =>
      { x with client := (Client.finish.run.run c).2, outcome := some (.error e) }
    | (.ok (), c) => { x with client := c, outcome := c.result.map .ok }

/-- Hands a message of the server to the client. -/
def send (m : Message) : ExceptT Error (StateM Exchange) Unit :=
  modify fun x => { x.advance (Client.handle m) with sent := x.sent ++ [m] }

/-- The next message of the client. -/
def receive : ExceptT Error (StateM Exchange) Message := do
  let x ← get
  match x.client.transport.sent[x.received]? with
  | some m =>
    set { x with received := x.received + 1 }
    return m
  | none => throw .closed

/-- Closes the server's end; a client that still waits finds out. -/
def close (x : Exchange) : Exchange :=
  { x.advance (throw .closed) with closed := true }

instance : Transport Exchange where
  send := send
  receive := receive
  close := close
  isClosed := Exchange.closed
  pending := fun x => x.client.transport.sent.length - x.received

end Exchange

end CipherFlow.Session
