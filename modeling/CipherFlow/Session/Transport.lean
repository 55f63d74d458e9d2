import CipherFlow.Session.Message

/-!
# Transports

A transport carries messages to and from the other end of a connection. A
session does not know more of it than this interface.
-/

namespace CipherFlow.Session

/-- What can be done with one end of a connection, whose state is `τ`. -/
class Transport (τ : Type) where
  send : Message → ExceptT Error (StateM τ) Unit
  receive : ExceptT Error (StateM τ) Message
  /-- Gives the connection up; doing so again changes nothing. -/
  close : τ → τ
  isClosed : τ → Bool
  /-- How many messages can still be received, at most. A connection does not tell its
  users: this only bounds the rounds of `Client.run`, which end before they run out. -/
  pending : τ → Nat

/-- How a session is set up. -/
structure Settings where
  /-- Lanes of each ciphertext. -/
  batch : Nat := 1
  complexPacking : Bool := false
  /-- The longest wait for one reading or writing, in milliseconds. -/
  timeout : Nat := 30000
  /-- Ciphertexts of one request; none counts as one. -/
  maxBatch : Nat := 64
  seed : Nat := 0
deriving Repr, DecidableEq

/-- The packing that settings ask for. -/
def Settings.packing (s : Settings) : Packing :=
  .ofFlag s.complexPacking

end CipherFlow.Session
