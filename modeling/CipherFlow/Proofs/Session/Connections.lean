import CipherFlow.Proofs.Session.Serving
import CipherFlow.Proofs.Session.Server
import CipherFlow.Session.Script

/-!
# Connections

Two ways for a party to be connected. A script is as lawful as a link, so that
whatever holds over lawful connections holds in sessions with scripted peers, too.
A client that opens a link gives up without having sent anything if its server is
silent for too long (`Client.run_silent`) or leaves in the middle of a frame
(`Client.run_cut`).
-/

namespace CipherFlow.Session

open Returning

/-! ## Scripts -/

section Scripts

variable {β : Type}

/-- A script gives its next reply, or counts as closed. -/
theorem Script.receive_cases (s : Script β) :
    (∃ s', receive.run.run s = (.error .closed, s')) ∨
      ∃ m s', receive.run.run s = (.ok m, s') ∧ s'.replies.length < s.replies.length := by
  have got : (get : ExceptT Error (StateM (Script β)) (Script β)).run.run s = (.ok s, s) := rfl
  cases left : s.replies with
  | nil =>
    refine .inl ⟨s, (run_bind_ok got).trans ?_⟩
    simp only [left]
    rfl
  | cons reply replies =>
    cases answer : reply s.sent with
    | error e =>
      refine .inl ⟨{ s with replies, refused := some e }, (run_bind_ok got).trans ?_⟩
      simp only [left, answer]
      rfl
    | ok m =>
      refine .inr ⟨m, { s with replies }, (run_bind_ok got).trans ?_, ?_⟩
      · simp only [left, answer]
        rfl
      · exact Nat.lt_succ_self _

instance : Transport.Lawful (Script β) where
  isClosed_close _ := rfl
  send_returns _ _ := trivial
  receive_returns s := by
    show Returns (Script.receive.run.run s).1 _
    rcases s.receive_cases with ⟨s', eq⟩ | ⟨m, s', eq, -⟩
    · rw [eq]
      rfl
    · rw [eq]
      trivial

instance : Transport.Draining (Script β) where
  receive_lt {s s' m} h := by
    rcases s.receive_cases with ⟨_, eq⟩ | ⟨m', _, eq, lt⟩
    · exact nomatch (Prod.mk.inj (eq.symm.trans h)).1
    · obtain ⟨-, rfl⟩ := Prod.mk.inj (eq.symm.trans h)
      exact lt
  send_le _ _ := Nat.le_refl _
  close_le _ := Nat.le_refl _

end Scripts

/-! ## Links to a server -/

namespace Link

/-- On a link where nothing has arrived a reception waits in vain. -/
theorem receive_silent {l : Link} (isOpen : l.closed = false) (nothing : l.incoming = [])
    (going : l.ended = false) : receive.run.run l = (.error (.timeout l.timeout), l) := by
  obtain ⟨incoming, ended, outgoing, timeout, closed⟩ := l
  obtain rfl : closed = false := isOpen
  obtain rfl : incoming = [] := nothing
  obtain rfl : ended = false := going
  rfl

end Link

namespace Client

variable {network : Link.Network} {type : TensorType} {inputs : List Float} {settings : Settings}
  {c : Client Link}

/-- A client that has given up before it sent anything. -/
structure GivenUp (c : Client Link) : Prop where
  done : c.state = .done
  closed : c.transport.closed = true
  silent : c.transport.outgoing = []
  result : c.result = none

theorem connect_eq_ok (connected : connect network type inputs settings = .ok c) :
    c = ofTransport ⟨[], false, [], settings.timeout, false⟩ type inputs settings := by
  cases network with
  | reachable => exact (Except.ok.inj connected).symm
  | unreachable => exact nomatch connected

variable [Primitives]

/-- A client whose server says nothing gives up after the time that was set. -/
theorem run_silent (connected : connect network type inputs settings = .ok c) :
    ∃ c', run.run.run c = (.error (.timeout settings.timeout), c') ∧ c'.GivenUp := by
  obtain rfl := connect_eq_ok connected
  exact ⟨_, run_error State.noConfusion (Link.receive_silent rfl rfl rfl), rfl, rfl, rfl, rfl⟩

/-- And one whose server leaves before a frame is complete gives up at once. -/
theorem run_cut (connected : connect network type inputs settings = .ok c) {bytes : Wire.Bytes}
    (cut : Link.IsCut bytes) :
    ∃ c', run.run.run
        { c with transport := { c.transport with incoming := bytes, ended := true } } =
      (.error .closed, c') ∧ c'.GivenUp := by
  obtain rfl := connect_eq_ok connected
  exact ⟨_, run_error State.noConfusion (Link.receive_cut rfl rfl cut), rfl, rfl, rfl, rfl⟩

end Client

end CipherFlow.Session
