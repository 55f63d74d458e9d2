import CipherFlow.Proofs.Session.Frames
import CipherFlow.Proofs.Session.Peer
import CipherFlow.Session.Client

/-!
# Serving a server

A client takes one message after the other until it is done, and does not count
them. `Client.run` counts, as a function has to come to an end: there are as many
rounds as messages can still arrive, and one more. `Client.run_eq` says that this
bound is never felt, so that a run is the loop that has none.

How the proof goes. A connection is `Draining` if each message that is received
leaves fewer to come, and nothing that is sent adds to them. Links and peers are.
Whatever a client does with a message does not add to them either (`Drains`, one
lemma for each kind of message), so that a round which succeeds leaves fewer than
there were before it. Two numbers of rounds that are both larger than what can
still arrive then give the same, by induction on one of them (`proceed_congr`).
-/

namespace CipherFlow.Session

/-- What can still be received grows less with each message, and never more. -/
class Transport.Draining (τ : Type) [Transport τ] : Prop where
  receive_lt {t t' : τ} {m : Message} : (receive : ExceptT Error (StateM τ) Message).run.run t =
    (.ok m, t') → pending t' < pending t
  send_le (m : Message) (t : τ) : pending ((send m).run.run t).2 ≤ pending t
  close_le (t : τ) : pending (close t) ≤ pending t

/-! ## Kinds of connections -/

/-- Sending reads nothing. -/
theorem Link.send_incoming (m : Message) (l : Link) :
    ((send m).run.run l).2.incoming = l.incoming := by
  obtain ⟨incoming, ended, outgoing, timeout, closed⟩ := l
  cases closed with
  | true => rfl
  | false =>
    rw [send, run_bind_ok (run_checkOpen_eq_ok (a := ()).mpr ⟨rfl, rfl⟩)]
    by_cases long : maxFrameLength < m.frameLength
    · rw [if_pos long]
      rfl
    · rw [if_neg long]
      rfl

instance : Transport.Draining Link where
  receive_lt {l l' m} h := by
    obtain ⟨-, -, rest, split, rfl⟩ := Link.receive_eq_ok.mp h
    show rest.length < l.incoming.length
    simp [split, Message.frame, Wire.length_wordBytes]
    omega
  send_le m l := Nat.le_of_eq (congrArg List.length (Link.send_incoming m l))
  close_le _ := Nat.le_refl _

instance : Transport.Draining Peer where
  receive_lt {p p' m} h := by
    obtain ⟨incoming, ending, fates, events, closed⟩ := p
    cases incoming with
    | nil => exact nomatch (Prod.mk.inj h).1
    | cons m incoming =>
      obtain ⟨-, rfl⟩ := Prod.mk.inj h
      exact Nat.lt_succ_self _
  send_le m p := by
    show ((Peer.send m).run.run p).2.incoming.length ≤ p.incoming.length
    rcases Peer.send_cases m p with ⟨p', eq, sent⟩ | ⟨e, p', eq, refused, -⟩
    · rw [eq, sent.incoming]
    · rw [eq, refused.incoming]
  close_le _ := Nat.le_refl _

namespace Client

variable {τ α β : Type} [Transport τ] {c c' : Client τ}

/-- A client that has closed its connection. -/
def finished (c : Client τ) : Client τ :=
  { c with transport := Transport.close c.transport, state := .done }

/-! ## Messages that are still to come -/

/-- A step that adds nothing to what can still be received. -/
def Drains (x : Act τ α) : Prop :=
  ∀ c, Transport.pending (x.run.run c).2.transport ≤ Transport.pending c.transport

theorem drains_bind {x : Act τ α} {f : α → Act τ β} (hx : Drains x) (hf : ∀ a, Drains (f a)) :
    Drains (x >>= f) := by
  intro c
  have first := hx c
  match eq : x.run.run c with
  | (.error e, c') =>
    rw [eq] at first
    rw [run_bind_error eq]
    exact first
  | (.ok a, c') =>
    rw [eq] at first
    rw [run_bind_ok eq]
    exact (hf a c').trans first

theorem drains_pure (a : α) : Drains (pure a : Act τ α) :=
  fun _ => Nat.le_refl _

theorem drains_throw (e : Error) : Drains (throw e : Act τ α) :=
  fun _ => Nat.le_refl _

theorem drains_get : Drains (get : Act τ (Client τ)) :=
  fun _ => Nat.le_refl _

theorem drains_lift (x : Except Error α) : Drains (liftM x : Act τ α) := by
  intro c
  cases x <;> exact Nat.le_refl _

/-- So is a change of the client that leaves its connection alone. -/
theorem drains_modify {g : Client τ → Client τ} (h : ∀ c, (g c).transport = c.transport) :
    Drains (modify g) :=
  fun c => Nat.le_of_eq (congrArg Transport.pending (h c))

theorem drains_keysFor (kind : MessageKind) : Drains (keysFor kind : Act τ ClientKeys) := by
  refine drains_bind drains_get fun c => ?_
  split
  · exact drains_pure _
  · exact drains_throw _

section Draining

variable [Transport.Draining τ]

theorem drains_send (m : Message) : Drains (send m : Act τ Unit) :=
  fun c => Transport.Draining.send_le m c.transport

theorem drains_finish : Drains (finish : Act τ Unit) :=
  fun c => Transport.Draining.close_le c.transport

theorem drains_answer (kind : MessageKind) (f : Nonlinear) (count : Nat) (elements : Wire.Bytes) :
    Drains (answer kind f count elements : Act τ Unit) := by
  refine drains_bind (drains_modify fun _ => rfl) fun _ => ?_
  refine drains_bind (drains_keysFor kind) fun keys => drains_bind drains_get fun c => ?_
  refine drains_bind (drains_lift _) fun batch => drains_bind (drains_lift _) fun response => ?_
  refine drains_bind (drains_lift _) fun a => drains_bind (drains_send a) fun _ => ?_
  exact drains_modify fun _ => rfl

theorem drains_conclude (m : Message) : Drains (conclude m : Act τ Unit) := by
  refine drains_bind (drains_keysFor m.kind) fun keys => drains_bind drains_get fun c => ?_
  refine drains_bind (drains_lift _) fun result => drains_bind (drains_lift _) fun values => ?_
  exact drains_bind (drains_modify fun _ => rfl) fun _ => drains_finish

variable [Primitives]

theorem drains_greet (m : Message) : Drains (greet m : Act τ Unit) := by
  refine drains_bind drains_get fun c => drains_bind (drains_lift _) fun params => ?_
  refine drains_bind (drains_lift _) fun ctx => drains_bind (drains_lift _) fun keys => ?_
  refine drains_bind (drains_lift _) fun ev => drains_bind (drains_lift _) fun k => ?_
  refine drains_bind (drains_send k) fun _ => drains_bind (drains_lift _) fun input => ?_
  refine drains_bind (drains_lift _) fun x => drains_bind (drains_send x) fun _ => ?_
  exact drains_modify fun _ => rfl

/-- Whatever a client does with a message, no more messages are to come. -/
theorem drains_handle (m : Message) : Drains (handle m : Act τ Unit) := by
  refine drains_bind drains_get fun c => ?_
  split
  · exact drains_pure _
  · exact drains_greet m
  · exact drains_answer _ _ _ _
  · exact drains_bind (drains_lift _) fun (bound, elements) => drains_answer _ _ _ _
  · exact drains_conclude m
  · exact drains_throw _

end Draining

/-! ## Message by message -/

variable [Primitives]

/-- Receives a message and takes it. -/
def takeNext : Act τ Unit := do
  let m ← overTransport Transport.receive
  handle m

/-- Takes at most so many messages, and leaves a failure as it is. -/
def proceed : (messages : Nat) → Act τ Unit
  | 0 => return
  | messages + 1 => do
    if (← get).state = .done then return
    else
      takeNext
      proceed messages

theorem proceed_done {messages : Nat} (ended : c.state = .done) :
    (proceed messages).run.run c = (.ok (), c) := by
  cases messages with
  | zero => rfl
  | succ messages =>
    show (if c.state = .done then pure () else _ : Act τ Unit).run.run c = _
    rw [if_pos ended]
    rfl

theorem proceed_going {messages : Nat} (going : c.state ≠ .done) :
    (proceed (messages + 1)).run.run c = (takeNext >>= fun _ => proceed messages).run.run c := by
  show (if c.state = .done then pure () else _ : Act τ Unit).run.run c = _
  rw [if_neg going]

omit [Primitives] [Transport τ] in
theorem overTransport_run {x : ExceptT Error (StateM τ) α} {r : Except Error α} {t : τ}
    (h : x.run.run c.transport = (r, t)) :
    (overTransport x).run.run c = (r, { c with transport := t }) := by
  have own : (overTransport x).run.run c =
      ((x.run.run c.transport).1, { c with transport := (x.run.run c.transport).2 }) := rfl
  rw [own, h]

/-- A message that is received is taken. -/
theorem takeNext_ok {m : Message} {t : τ}
    (received : (Transport.receive : ExceptT Error (StateM τ) Message).run.run c.transport =
      (.ok m, t)) :
    takeNext.run.run c = (handle m).run.run { c with transport := t } :=
  run_bind_ok (overTransport_run received)

theorem takeNext_error {e : Error} {t : τ}
    (failed : (Transport.receive : ExceptT Error (StateM τ) Message).run.run c.transport =
      (.error e, t)) :
    takeNext.run.run c = (.error e, { c with transport := t }) :=
  run_bind_error (overTransport_run failed)

/-- A message that is taken is no longer to come. -/
theorem pending_lt [Transport.Draining τ] (taken : takeNext.run.run c = (.ok (), c')) :
    Transport.pending c'.transport < Transport.pending c.transport := by
  match received : (Transport.receive : ExceptT Error (StateM τ) Message).run.run c.transport with
  | (.error e, t) =>
    rw [takeNext_error received] at taken
    exact nomatch (Prod.mk.inj taken).1
  | (.ok m, t) =>
    have fewer := Transport.Draining.receive_lt received
    have noMore := drains_handle m { c with transport := t }
    rw [← takeNext_ok received, taken] at noMore
    exact Nat.lt_of_le_of_lt noMore fewer

/-- It makes no difference how many more messages a client could take than there
are. -/
theorem proceed_congr [Transport.Draining τ] {few more : Nat}
    (enough : Transport.pending c.transport < few) (le : few ≤ more) :
    (proceed more).run.run c = (proceed few).run.run c := by
  induction few generalizing c more with
  | zero => exact absurd enough (Nat.not_lt_zero _)
  | succ few ih =>
    obtain ⟨more, rfl⟩ := Nat.exists_eq_add_one_of_ne_zero (Nat.ne_zero_of_lt le)
    by_cases ended : c.state = .done
    · rw [proceed_done ended, proceed_done ended]
    · rw [proceed_going ended, proceed_going ended]
      match taken : takeNext.run.run c with
      | (.error e, c') => rw [run_bind_error taken, run_bind_error taken]
      | (.ok (), c') =>
        rw [run_bind_ok taken, run_bind_ok taken]
        have fewer := pending_lt taken
        exact ih (by omega) (Nat.le_of_succ_le_succ le)

/-! ## Runs -/

theorem step_run (c : Client τ) : (step : Act τ Unit).run.run c =
    match takeNext.run.run c with
    | (.ok (), c') => (.ok (), c')
    | (.error e, c') => (.error e, c'.finished) := by
  have own : (step : Act τ Unit) = tryCatch takeNext (fun e => do
      finish
      throw e) := rfl
  rw [own, ExceptT.run_tryCatch, StateT.run_bind]
  match takeNext.run.run c with
  | (.ok (), c') => rfl
  | (.error e, c') => rfl

theorem serve_done {messages : Nat} (ended : c.state = .done) :
    (serve messages).run.run c = (give : Act τ (List Float)).run.run c := by
  cases messages with
  | zero => rfl
  | succ messages =>
    show (if c.state = .done then give else (do
      step
      serve messages) : Act τ (List Float)).run.run c = _
    rw [if_pos ended]

theorem serve_going {messages : Nat} (going : c.state ≠ .done) :
    (serve (messages + 1) : Act τ (List Float)).run.run c =
      match takeNext.run.run c with
      | (.ok (), c') => (serve messages).run.run c'
      | (.error e, c') => (.error e, c'.finished) := by
  have own : (serve (messages + 1) : Act τ (List Float)).run.run c =
      (if c.state = .done then give else (do
        step
        serve messages) : Act τ (List Float)).run.run c := rfl
  rw [own, if_neg going, ExceptT.run_bind, StateT.run_bind, step_run]
  match takeNext.run.run c with
  | (.ok (), c') => rfl
  | (.error e, c') => rfl

/-- A run takes messages, and closes the connection if one fails. -/
theorem serve_run (messages : Nat) (c : Client τ) :
    (serve messages : Act τ (List Float)).run.run c =
      match (proceed messages).run.run c with
      | (.ok (), c') => (give : Act τ (List Float)).run.run c'
      | (.error e, c') => (.error e, c'.finished) := by
  induction messages generalizing c with
  | zero => rfl
  | succ messages ih =>
    by_cases ended : c.state = .done
    · rw [serve_done ended, proceed_done ended]
    · rw [serve_going ended, proceed_going ended, ExceptT.run_bind, StateT.run_bind]
      match takeNext.run.run c with
      | (.ok (), c') => exact ih c'
      | (.error e, c') => rfl

/-- A run goes on until the client is done, however many messages that takes. -/
theorem run_eq [Transport.Draining τ] : (run : Act τ (List Float)) = (do
    if (← get).state = .done then give
    else
      step
      run) := by
  refine funext fun c => ?_
  show (serve (Transport.pending c.transport + 1)).run.run c =
    (if c.state = .done then give else (do
      step
      run) : Act τ (List Float)).run.run c
  by_cases ended : c.state = .done
  · rw [serve_done ended, if_pos ended]
  · rw [serve_going ended, if_neg ended, ExceptT.run_bind, StateT.run_bind, step_run]
    match taken : takeNext.run.run c with
    | (.error e, c') => rfl
    | (.ok (), c') =>
      have fewer := pending_lt taken
      show (serve (Transport.pending c.transport)).run.run c' =
        (serve (Transport.pending c'.transport + 1)).run.run c'
      rw [serve_run, serve_run, proceed_congr (Nat.lt_succ_self _) fewer]

/-- A client that receives no message ends with the reason. -/
theorem run_error {e : Error} {t : τ} (going : c.state ≠ .done)
    (failed : (Transport.receive : ExceptT Error (StateM τ) Message).run.run c.transport =
      (.error e, t)) :
    run.run.run c = (.error e, finished { c with transport := t }) := by
  show (serve (Transport.pending c.transport + 1)).run.run c = _
  rw [serve_going going, takeNext_error failed]

end Client

end CipherFlow.Session
