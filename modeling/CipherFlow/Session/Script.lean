import CipherFlow.Primitives.Standard
import CipherFlow.Session.Transport

/-!
# Scripted peers

A peer that follows a script: each of its messages may depend on what has
been sent to it so far. Where it has no message to give, for a reason `β` or
because the script is over, it is as if it had closed the connection. Sessions
with such peers run with the standard primitives.
-/

namespace CipherFlow.Session

attribute [instance] Primitives.standard

/-- A connection to a scripted peer. -/
structure Script (β : Type) where
  replies : List (List Message → Except β Message)
  /-- What has been sent to the peer. -/
  sent : List Message
  /-- Why the last reply that failed could not be given. -/
  refused : Option β
  closed : Bool

namespace Script

variable {β : Type}

/-- A connection on which nothing has been sent. -/
def ofReplies (replies : List (List Message → Except β Message)) : Script β :=
  ⟨replies, [], none, false⟩

/-- The next reply of the peer. -/
def receive : ExceptT Error (StateM (Script β)) Message := do
  let s ← get
  match s.replies with
  | [] => throw .closed
  | reply :: replies =>
    match reply s.sent with
    | .ok m =>
      set { s with replies }
      return m
    | .error e =>
      set { s with replies, refused := some e }
      throw .closed

instance : Transport (Script β) where
  send := fun m => modify fun s => { s with sent := s.sent ++ [m] }
  receive := receive
  close := fun s => { s with closed := true }
  isClosed := closed
  pending := fun s => s.replies.length

end Script

end CipherFlow.Session
