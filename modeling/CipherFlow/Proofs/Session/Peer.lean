import CipherFlow.Session.Transport
import Mathlib.Data.List.Infix

/-!
# Peers that may do anything

A peer gives any messages, one for each receiving, and then an error; and it
fails any of the sendings, for any reasons. A program that is run against it
meets, in its own order, what some other end of a connection could do to it:
what the other end does in reply is just one of the lists. The peer keeps a
record of the conversation.
-/

namespace CipherFlow.Session

/-- What happens at one end of a connection. -/
inductive Event where
  | received (m : Message)
  | sent (m : Message)
  /-- A message that could not be sent. -/
  | refused (m : Message)
  /-- A receiving that gave no message. -/
  | lost
deriving Repr, DecidableEq

/-- A connection to a peer. -/
structure Peer where
  /-- Messages that are still to be received. -/
  incoming : List Message
  /-- Why there is no message after these. -/
  ending : Error
  /-- What becomes of messages that are sent, in their order: they fail with an
  error, or not. All later ones are sent. -/
  fates : List (Option Error)
  events : List Event
  closed : Bool
deriving Repr

namespace Peer

/-- A connection over which nothing has happened. -/
def ofMessages (incoming : List Message) (ending : Error) (fates : List (Option Error)) : Peer :=
  ⟨incoming, ending, fates, [], false⟩

/-- The peer after an event. -/
def record (e : Event) (p : Peer) : Peer :=
  { p with events := p.events ++ [e] }

/-- Sends a message, unless that is to fail. -/
def send (m : Message) : ExceptT Error (StateM Peer) Unit := fun p =>
  match p.fates with
  | [] => (.ok (), record (.sent m) p)
  | none :: fates => (.ok (), record (.sent m) { p with fates })
  | some e :: fates => (.error e, record (.refused m) { p with fates })

/-- Receives the next message, if there is one. -/
def receive : ExceptT Error (StateM Peer) Message := fun p =>
  match p.incoming with
  | [] => (.error p.ending, record .lost p)
  | m :: incoming => (.ok m, record (.received m) { p with incoming })

instance : Transport Peer where
  send := send
  receive := receive
  close := fun p => { p with closed := true }
  isClosed := closed
  pending := fun p => p.incoming.length

variable {p p' p'' : Peer} {m : Message} {tail tail' : List Event}

/-- What sending leaves of a peer: there are more events, and fewer fates. -/
structure Extends (p : Peer) (tail : List Event) (p' : Peer) : Prop where
  incoming : p'.incoming = p.incoming
  ending : p'.ending = p.ending
  fates : p'.fates <:+ p.fates
  events : p'.events = p.events ++ tail
  closed : p'.closed = p.closed

theorem Extends.refl (p : Peer) : p.Extends [] p where
  incoming := rfl
  ending := rfl
  fates := List.suffix_rfl
  events := (List.append_nil _).symm
  closed := rfl

theorem Extends.trans (h : p.Extends tail p') (h' : p'.Extends tail' p'') :
    p.Extends (tail ++ tail') p'' where
  incoming := h'.incoming.trans h.incoming
  ending := h'.ending.trans h.ending
  fates := h'.fates.trans h.fates
  events := by rw [h'.events, h.events, List.append_assoc]
  closed := h'.closed.trans h.closed

/-- A message is sent, or it is refused for a reason that was to come. -/
theorem send_cases (m : Message) (p : Peer) :
    (∃ p', (send m).run.run p = (.ok (), p') ∧ p.Extends [.sent m] p') ∨
    ∃ e p', (send m).run.run p = (.error e, p') ∧ p.Extends [.refused m] p' ∧ some e ∈ p.fates := by
  obtain ⟨incoming, ending, fates, events, closed⟩ := p
  match fates with
  | [] => exact .inl ⟨_, rfl, rfl, rfl, List.suffix_rfl, rfl, rfl⟩
  | none :: fates => exact .inl ⟨_, rfl, rfl, rfl, List.suffix_cons _ _, rfl, rfl⟩
  | some e :: fates =>
    exact .inr ⟨e, _, rfl, ⟨rfl, rfl, List.suffix_cons _ _, rfl, rfl⟩, List.mem_cons_self⟩

end Peer

end CipherFlow.Session
