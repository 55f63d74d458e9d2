import CipherFlow.Proofs.Session.Network
import CipherFlow.Proofs.Session.Client
import CipherFlow.Proofs.Session.Server

/-!
# Programs that conduct a dialogue

A program takes part in a session as a party: what it is about to do, after it
has received and sent some messages, is where it stops when it is run against a
peer that gives no more messages and takes no more.

A program conducts a dialogue if it comes to its end against a peer that says
the other side of it, and stops at each place before, against a peer that stops
there. Programs one after the other conduct their dialogues one after the other.

The composition lemmas are `conducts_bind` and, for one entry before a program,
`conducts_entry_bind`. From them `Server.follows` and `Serves.follows` give the
parties of `CipherFlow.Proofs.Session.Network`.

How the proof goes. A program that is run against a peer that stops has told
everything up to there, and fails at that place with the failure of its peer;
`Intent.ofRun` reads from this what it was about to do. Programs are composed by the
length of the first dialogue: the peer stops either within it or after it. A client
runs until its peer gives nothing more, so its messages are taken one at a time
(`serves_cons`).
-/

namespace CipherFlow.Session

variable {α β : Type}

/-! ## Where a program stops -/

/-- A peer that gives the messages, takes so many, and fails then. -/
def Peer.replay (received : List Message) (sent : Nat) : Peer :=
  ofMessages received .closed (List.replicate sent none ++ [some .closed])

/-- What a program was about to do when its peer failed. -/
def Event.intent? : Event → Option Intent
  | .refused m => some (.send m)
  | .lost => some .receive
  | .received _ | .sent _ => none

/-- What a program was about to do, given how a run of it has ended. -/
def Intent.ofRun (r : Except Error α) (events : List Event) : Intent :=
  match events.findSome? Event.intent? with
  | some intent => intent
  | none => .stop (match r with
    | .ok _ => none
    | .error e => some e)

/-! ## Entries as events -/

variable {s : Side} {m : Message} {d : Dialogue} {i : Nat} {e : Side × Message}

/-- An entry of a dialogue, as it happens to a party. -/
def Side.event (s : Side) (e : Side × Message) : Event :=
  if e.1 = s then .sent e.2 else .received e.2

/-- An entry that does not come about. -/
def Side.failure (s : Side) (e : Side × Message) : Event :=
  if e.1 = s then .refused e.2 else .lost

theorem findSome?_events (s : Side) (d : Dialogue) :
    (d.map s.event).findSome? Event.intent? = none := by
  rw [List.findSome?_eq_none_iff]
  intro e he
  obtain ⟨entry, -, rfl⟩ := List.mem_map.mp he
  rw [Side.event]
  split <;> rfl

/-- A program that has stopped before an entry was about to say or hear it. -/
theorem Intent.ofRun_failure (entry : d[i]? = some e) (r : Except Error α) :
    ofRun r ((d.take i).map s.event ++ [s.failure e]) = Dialogue.intent s d i := by
  obtain ⟨t, m⟩ := e
  rw [Dialogue.intent, entry, Side.failure, ofRun.eq_def, List.findSome?_append, findSome?_events]
  by_cases own : t = s
  · simp only [if_pos own]
    rfl
  · simp only [if_neg own]
    rfl

/-- A program that fails by itself does not go on. -/
theorem Intent.ofRun_error (err : Error) :
    ofRun (.error err : Except Error α) (d.map s.event) = .stop (some err) := by
  rw [ofRun.eq_def, findSome?_events]

/-- A program that has come to the end does nothing more. -/
theorem Intent.ofRun_events (a : α) :
    ofRun (.ok a) (d.map s.event) = Dialogue.intent s d d.length := by
  rw [Dialogue.intent_eq_stop (List.getElem?_eq_none (Nat.le_refl _)), ofRun.eq_def,
    findSome?_events]

/-! ## Conducting -/

/-- States of a program of one party, each made of what the program keeps and
of its connection: the messages to come, what becomes of those that are sent,
and what has happened. -/
class Speaker (σ : Type) (κ : outParam Type) where
  side : Side
  at' : κ → List Message → List (Option Error) → List Event → σ
  /-- What is so of a program that is about to say or hear an entry. -/
  before : Side × Message → κ → Prop

open Speaker Dialogue

section Conducts

variable {σ κ : Type} [Speaker σ κ] {k k' k'' : κ} {d d' : Dialogue} {a : α} {b : β}
  {x : ExceptT Error (StateM σ) α} {f : α → ExceptT Error (StateM σ) β}

/-- A program says its side of a dialogue, and hears the other one. -/
structure Conducts (x : ExceptT Error (StateM σ) α) (k : κ) (d : Dialogue) (a : α) (k' : κ) :
    Prop where
  /-- It comes to the end, and leaves the rest of the connection. -/
  whole : ∀ incoming fates es,
    x.run.run (at' k (said (side σ).other d ++ incoming)
      (List.replicate (said (side σ) d).length none ++ fates) es) =
      (.ok a, at' k' incoming fates (es ++ d.map (side σ).event))
  /-- It stops at each place where its peer does. -/
  part : ∀ i e es, d[i]? = some e → ∃ err k'' incoming fates, before σ e k'' ∧
    x.run.run (at' k (said (side σ).other (d.take i))
      (List.replicate (said (side σ) (d.take i)).length none ++ [some .closed]) es) =
      (.error err, at' k'' incoming fates
        (es ++ ((d.take i).map (side σ).event ++ [(side σ).failure e])))

/-- So does a program that does the same. -/
theorem Conducts.congr {y : ExceptT Error (StateM σ) α} (h : Conducts x k d a k')
    (same : ∀ incoming fates es,
      y.run.run (at' k incoming fates es) = x.run.run (at' k incoming fates es)) :
    Conducts y k d a k' where
  whole incoming fates es := (same _ _ _).trans (h.whole incoming fates es)
  part i e es entry :=
    let ⟨err, k'', incoming, fates, before', run⟩ := h.part i e es entry
    ⟨err, k'', incoming, fates, before', (same _ _ _).trans run⟩

/-- A program that says and hears nothing. -/
theorem conducts_silent (h : ∀ incoming fates es,
    x.run.run (at' k incoming fates es) = (.ok a, at' k' incoming fates es)) :
    Conducts x k [] a k' where
  whole incoming fates es := by
    rw [List.map_nil, List.append_nil]
    exact h incoming fates es
  part i e es entry := nomatch entry

theorem conducts_pure : Conducts (pure a : ExceptT Error (StateM σ) α) k [] a k :=
  conducts_silent fun _ _ _ => rfl

/-- Programs one after the other conduct one dialogue after the other. -/
theorem conducts_bind (h : Conducts x k d a k') (h' : Conducts (f a) k' d' b k'') :
    Conducts (x >>= f) k (d ++ d') b k'' where
  whole incoming fates es := by
    rw [ExceptT.run_bind, StateT.run_bind, said_append, said_append, List.length_append,
      List.replicate_add, List.append_assoc, List.append_assoc, h.whole, List.map_append,
      ← List.append_assoc]
    exact h'.whole incoming fates _
  part i e es entry := by
    rw [ExceptT.run_bind, StateT.run_bind]
    rcases Nat.lt_or_ge i d.length with lt | ge
    · rw [List.getElem?_append_left lt] at entry
      obtain ⟨err, k₁, incoming, fates, before', run⟩ := h.part i e es entry
      rw [List.take_append_of_le_length (Nat.le_of_lt lt), run]
      exact ⟨err, k₁, incoming, fates, before', rfl⟩
    · rw [List.getElem?_append_right ge] at entry
      obtain ⟨err, k₁, incoming, fates, before', run⟩ :=
        h'.part (i - d.length) e (es ++ d.map (side σ).event) entry
      rw [List.take_append, List.take_of_length_le ge, said_append, said_append,
        List.length_append, List.replicate_add, List.append_assoc, h.whole, List.map_append,
        List.append_assoc, ← List.append_assoc es]
      exact ⟨err, k₁, incoming, fates, before', run⟩

/-- A program after one entry. -/
theorem conducts_entry_bind {e : Side × Message} (h : Conducts x k [e] a k')
    (h' : Conducts (f a) k' d b k'') : Conducts (x >>= f) k (e :: d) b k'' :=
  conducts_bind h h'

/-- A program after one that says and hears nothing. -/
theorem conducts_silent_bind (h : Conducts x k [] a k') (h' : Conducts (f a) k' d b k'') :
    Conducts (x >>= f) k d b k'' :=
  conducts_bind h h'

/-- A program before one that says and hears nothing. -/
theorem conducts_bind_silent (h : Conducts x k d a k') (h' : Conducts (f a) k' [] b k'') :
    Conducts (x >>= f) k d b k'' := by
  have both := conducts_bind h h'
  rwa [List.append_nil] at both

/-- A step that computes, before a program. -/
theorem conducts_lift_bind {y : Except Error α} (eq : y = .ok a) (h : Conducts (f a) k d b k') :
    Conducts (liftM y >>= f) k d b k' := by
  subst eq
  exact h

/-- A program that looks at its state, but not at its connection. -/
theorem conducts_get_bind {f : σ → ExceptT Error (StateM σ) β}
    (same : ∀ incoming fates es, f (at' k incoming fates es) = f (at' k [] [] []))
    (h : Conducts (f (at' k [] [] [])) k d b k') : Conducts (get >>= f) k d b k' :=
  h.congr fun incoming fates es =>
    congrArg (fun y => y.run.run (at' k incoming fates es)) (same incoming fates es)

/-- A program that changes what it keeps. -/
theorem conducts_modify {g : σ → σ}
    (h : ∀ incoming fates es, g (at' k incoming fates es) = at' k' incoming fates es) :
    Conducts (modify g : ExceptT Error (StateM σ) Unit) k [] () k' :=
  conducts_silent fun incoming fates es => congrArg (Prod.mk _) (h incoming fates es)

/-- A program that conducts one entry. -/
theorem conducts_entry {e : Side × Message}
    (whole : ∀ incoming fates es,
      x.run.run (at' k (said (side σ).other [e] ++ incoming)
        (List.replicate (said (side σ) [e]).length none ++ fates) es) =
        (.ok a, at' k' incoming fates (es ++ [(side σ).event e])))
    (before' : before σ e k)
    (part : ∀ es, ∃ err incoming fates, x.run.run (at' k [] [some .closed] es) =
      (.error err, at' k incoming fates (es ++ [(side σ).failure e]))) :
    Conducts x k [e] a k' where
  whole := whole
  part i e' es entry := by
    cases i with
    | zero =>
      obtain rfl := Option.some.inj entry
      obtain ⟨err, incoming, fates, run⟩ := part es
      exact ⟨err, k, incoming, fates, before', run⟩
    | succ i => exact nomatch entry

end Conducts

/-! ## Servers -/

namespace Server

/-- A server keeps nothing that a dialogue shows, but its end can be closed. -/
instance : Speaker Peer Bool where
  side := .server
  at' closed incoming fates es := ⟨incoming, .closed, fates, es, closed⟩
  before _ _ := True

variable {closed : Bool} {d : Dialogue} {a : α} {k : Bool}

theorem conducts_send (m : Message) :
    Conducts (Transport.send m : Act Peer Unit) closed [(.server, m)] () closed :=
  conducts_entry (fun _ _ _ => rfl) trivial fun _ => ⟨_, _, _, rfl⟩

theorem conducts_expect {kind : MessageKind} (h : m.kind = kind) :
    Conducts (expect kind : Act Peer Message) closed [(.client, m)] m closed := by
  refine conducts_entry (fun incoming fates es => ?_) trivial fun es => ⟨_, _, _, rfl⟩
  show (if m.kind ≠ kind then throw _ >>= _ else _ : Act Peer Message).run.run _ = _
  rw [if_neg (not_not.mpr h)]
  rfl

/-- A program that closes its connection if it fails. -/
theorem conducts_orClose {x : Act Peer α} (h : Conducts x closed d a k) :
    Conducts (orClose x) closed d a k where
  whole incoming fates es := by
    rw [orClose_run, h.whole]
  part i e es entry := by
    obtain ⟨err, k', incoming', fates', -, run⟩ := h.part i e es entry
    rw [orClose_run, run]
    exact ⟨err, true, incoming', fates', trivial, rfl⟩

end Server

/-! ## Clients -/

/-- The state of a client that is about to say or hear an entry. -/
def State.before (e : Side × Message) : State :=
  match e with
  | (.client, m) => if m.kind = .reluResponse then .processing else .ready
  | (.server, m) => if m.kind = .parameters then .ready else .awaitingRequest

namespace Client

instance : Speaker (Client Peer) (Client Bool) where
  side := .client
  at' k incoming fates es := { k with transport := ⟨incoming, .closed, fates, es, k.transport⟩ }
  before e k := k.state = .before e

variable {k : Client Bool}

theorem conducts_send {m : Message} (h : k.state = .before (.client, m)) :
    Conducts (send m : Act Peer Unit) k [(.client, m)] () k :=
  conducts_entry (fun _ _ _ => rfl) h fun _ => ⟨_, _, _, rfl⟩

theorem conducts_receive {m : Message} (h : k.state = .before (.server, m)) :
    Conducts (overTransport Transport.receive : Act Peer Message) k [(.server, m)] m k :=
  conducts_entry (fun _ _ _ => rfl) h fun _ => ⟨_, _, _, rfl⟩

theorem conducts_keysFor {keys : ClientKeys} (h : k.keys = some keys) (kind : MessageKind) :
    Conducts (keysFor kind : Act Peer ClientKeys) k [] keys k := by
  obtain ⟨closed, state, settings, type, inputs, keys', result⟩ := k
  obtain rfl : keys' = some keys := h
  exact conducts_silent fun _ _ _ => rfl

theorem conducts_enter (state : State) :
    Conducts (enter state : Act Peer Unit) k [] () { k with state } :=
  conducts_modify fun _ _ _ => rfl

variable [Primitives]

section Handle

variable {m : Message} {d : Dialogue} {k' : Client Bool}

/-- A message that a client takes. -/
theorem conducts_takeNext (state : k.state = .before (.server, m))
    (h : Conducts (handle m : Act Peer Unit) k d () k') :
    Conducts (takeNext : Act Peer Unit) k ((.server, m) :: d) () k' :=
  conducts_entry_bind (conducts_receive state) h

theorem conducts_parameters (ready : k.state = .ready) (kind : m.kind = .parameters)
    (h : Conducts (greet m : Act Peer Unit) k d () k') :
    Conducts (handle m : Act Peer Unit) k d () k' := by
  obtain ⟨closed, state, settings, type, inputs, keys, result⟩ := k
  obtain ⟨kind', count, payload⟩ := m
  obtain rfl : state = .ready := ready
  obtain rfl : kind' = .parameters := kind
  exact conducts_get_bind (fun _ _ _ => rfl) h

section Waiting

variable (waits : k.state = .awaitingRequest)

include waits in
theorem conducts_relu (kind : m.kind = .reluRequest)
    (h : Conducts (answer m.kind .relu m.count m.payload : Act Peer Unit) k d () k') :
    Conducts (handle m : Act Peer Unit) k d () k' := by
  obtain ⟨closed, state, settings, type, inputs, keys, result⟩ := k
  obtain ⟨kind', count, payload⟩ := m
  obtain rfl : state = .awaitingRequest := waits
  obtain rfl : kind' = .reluRequest := kind
  exact conducts_get_bind (fun _ _ _ => rfl) h

include waits in
theorem conducts_bounded {bound : Binary64} {elements : Wire.Bytes}
    (kind : m.kind = .boundedReluRequest) (split : splitBound m.payload = .ok (bound, elements))
    (h : Conducts (answer m.kind (.bounded bound) m.count elements : Act Peer Unit) k d () k') :
    Conducts (handle m : Act Peer Unit) k d () k' := by
  have split' : Conducts (do
      let x ← splitBound m.payload
      answer m.kind (.bounded x.1) m.count x.2 : Act Peer Unit) k d () k' :=
    conducts_lift_bind split h
  obtain ⟨closed, state, settings, type, inputs, keys, result⟩ := k
  obtain ⟨kind', count, payload⟩ := m
  obtain rfl : state = .awaitingRequest := waits
  obtain rfl : kind' = .boundedReluRequest := kind
  exact conducts_get_bind (fun _ _ _ => rfl) split'

include waits in
theorem conducts_result (kind : m.kind = .result)
    (h : Conducts (conclude m : Act Peer Unit) k d () k') :
    Conducts (handle m : Act Peer Unit) k d () k' := by
  obtain ⟨closed, state, settings, type, inputs, keys, result⟩ := k
  obtain ⟨kind', count, payload⟩ := m
  obtain rfl : state = .awaitingRequest := waits
  obtain rfl : kind' = .result := kind
  exact conducts_get_bind (fun _ _ _ => rfl) h

end Waiting

end Handle

/-! ### Message by message -/

/-- A client that takes enough messages conducts a dialogue. -/
def Serves (k : Client Bool) (d : Dialogue) (k' : Client Bool) : Prop :=
  ∃ few, ∀ messages, few ≤ messages → Conducts (proceed messages : Act Peer Unit) k d () k'

variable {k' k'' : Client Bool} {d d' : Dialogue}

theorem serves_done (ended : k.state = .done) : Serves k [] k :=
  ⟨0, fun _ _ => conducts_silent fun _ _ _ => proceed_done ended⟩

/-- One message before others. -/
theorem serves_cons (going : k.state ≠ .done)
    (h : Conducts (takeNext : Act Peer Unit) k d () k') (h' : Serves k' d' k'') :
    Serves k (d ++ d') k'' := by
  obtain ⟨few, each⟩ := h'
  refine ⟨few + 1, fun messages le => ?_⟩
  obtain ⟨messages, rfl⟩ := Nat.exists_eq_add_one_of_ne_zero (Nat.ne_zero_of_lt le)
  exact (conducts_bind h (each messages (Nat.le_of_succ_le_succ le))).congr fun _ _ _ =>
    proceed_going going

end Client

/-! ## Parties -/

/-- A program of a server as a party. -/
def Server.party (x : Server.Act Peer α) : Party := fun received sent =>
  let (r, p) := x.run.run (.replay received sent)
  .ofRun r p.events

/-- Until a dialogue is over, what comes after it does not matter. -/
theorem Server.party_bind {x : Server.Act Peer α} {d : Dialogue} {a : α} {closed : Bool}
    (h : Conducts x false d a closed) (f : α → Server.Act Peer β) {i : Nat} (lt : i < d.length) :
    party (x >>= f) (said .client (d.take i)) (said .server (d.take i)).length =
      Dialogue.intent .server d i := by
  have entry := List.getElem?_eq_getElem lt
  obtain ⟨err, k', incoming, fates, -, run⟩ := h.part i _ [] entry
  have fails : x.run.run (.replay (said .client (d.take i)) (said .server (d.take i)).length) =
      (.error err, at' k' incoming fates
        ((d.take i).map Side.server.event ++ [Side.server.failure d[i]])) := run
  rw [party, run_bind_error fails]
  exact Intent.ofRun_failure entry _

/-- What fails once a dialogue is over fails by itself. -/
theorem Server.party_failure {x : Server.Act Peer α} {d : Dialogue} {a : α} {closed : Bool}
    (h : Conducts x false d a closed) {f : α → Server.Act Peer β} {e : Error}
    (fails : ∀ p : Peer, ∃ p', (f a).run.run p = (.error e, p') ∧ p'.events = p.events) :
    party (x >>= f) (said .client d) (said .server d).length = .stop (some e) := by
  have run := h.whole [] [some .closed] []
  rw [List.append_nil, List.nil_append] at run
  have ends : x.run.run (.replay (said .client d) (said .server d).length) =
      (.ok a, at' closed [] [some .closed] (d.map Side.server.event)) := run
  obtain ⟨p', failed, events⟩ := fails (at' closed [] [some .closed] (d.map Side.server.event))
  have failed : (x >>= f).run.run (.replay (said .client d) (said .server d).length) =
      (.error e, p') := by
    rw [run_bind_ok ends, failed]
  rw [party, failed]
  exact (congrArg (Intent.ofRun (.error e : Except Error β)) events).trans (Intent.ofRun_error e)

/-- It does what a dialogue says that it conducts. -/
theorem Server.follows {x : Server.Act Peer α} {d : Dialogue} {a : α} {closed : Bool}
    (h : Conducts x false d a closed) : Follows (party x) .server d := by
  intro i le
  rcases Nat.eq_or_lt_of_le le with rfl | lt
  · have run := h.whole [] [some .closed] []
    rw [List.append_nil, List.nil_append] at run
    rw [List.take_length]
    exact (congrArg (fun x => Intent.ofRun x.1 x.2.events) run).trans (Intent.ofRun_events a)
  · have begins := party_bind h pure lt
    rwa [bind_pure] at begins

namespace Client

variable [Primitives] {type : TensorType} {inputs : List Float} {settings : Settings}

/-- A client against a peer that gives the messages and takes so many. -/
def replay (type : TensorType) (inputs : List Float) (settings : Settings)
    (received : List Message) (sent : Nat) : Client Peer :=
  ofTransport (Peer.replay received sent) type inputs settings

/-- A client as a party. -/
def party (type : TensorType) (inputs : List Float) (settings : Settings) : Party :=
  fun received sent =>
    let (r, c) := run.run.run (replay type inputs settings received sent)
    .ofRun r c.transport.events

/-- The state in which a client sends or waits for what it can send or receive
no more. -/
def standing (type : TensorType) (inputs : List Float) (settings : Settings)
    (received : List Message) (sent : Nat) : State :=
  ((proceed (received.length + 1)).run.run (replay type inputs settings received sent)).2.state

/-- A client that has heard nothing. -/
def fresh (type : TensorType) (inputs : List Float) (settings : Settings) : Client Bool :=
  ⟨false, .ready, settings, type, inputs, none, none⟩

/-- The state of a client at a place of a dialogue. -/
def stateAt (d : Dialogue) (i : Nat) : State :=
  match d[i]? with
  | some e => .before e
  | none => .done

variable {d : Dialogue} {k : Client Bool} {values : List Float}

theorem run_replay (received : List Message) (sent : Nat) :
    run.run.run (replay type inputs settings received sent) =
      match (proceed (received.length + 1)).run.run (replay type inputs settings received sent) with
      | (.ok (), c) => (give : Act Peer (List Float)).run.run c
      | (.error e, c) => (.error e, c.finished) := by
  show (serve (received.length + 1) : Act Peer (List Float)).run.run
    (replay type inputs settings received sent) = _
  rw [serve_run]
  match (proceed (received.length + 1)).run.run (replay type inputs settings received sent) with
  | (.ok (), c) => rfl
  | (.error e, c) => rfl

theorem proceed_replay (received : List Message) (sent : Nat) {messages : Nat}
    (le : received.length + 1 ≤ messages) :
    (proceed messages).run.run (replay type inputs settings received sent) =
      (proceed (received.length + 1)).run.run (replay type inputs settings received sent) :=
  proceed_congr (Nat.lt_succ_self _) le

section Serves

variable (h : Serves (fresh type inputs settings) d k)

include h in
theorem Serves.proceed_whole :
    (proceed ((said .server d).length + 1)).run.run
        (replay type inputs settings (said .server d) (said .client d).length) =
      (.ok (), at' k [] [some .closed] (d.map Side.client.event)) := by
  obtain ⟨few, each⟩ := h
  have run :=
    (each _ (Nat.le_max_left few ((said .server d).length + 1))).whole [] [some .closed] []
  rw [List.append_nil, List.nil_append] at run
  exact (proceed_replay _ _ (Nat.le_max_right _ _)).symm.trans run

include h in
theorem Serves.proceed_part {i : Nat} {e : Side × Message} (entry : d[i]? = some e) :
    ∃ err k' incoming fates, k'.state = .before e ∧
      (proceed ((said .server (d.take i)).length + 1)).run.run
          (replay type inputs settings (said .server (d.take i)) (said .client (d.take i)).length) =
        (.error err, at' k' incoming fates
          ((d.take i).map Side.client.event ++ [Side.client.failure e])) := by
  obtain ⟨few, each⟩ := h
  obtain ⟨err, k', incoming, fates, before', run⟩ :=
    (each _ (Nat.le_max_left few ((said .server (d.take i)).length + 1))).part i e [] entry
  exact ⟨err, k', incoming, fates, before',
    (proceed_replay _ _ (Nat.le_max_right _ _)).symm.trans run⟩

variable (result : k.result = some values)

include h result in
/-- A client that serves a whole dialogue ends with its result. -/
theorem Serves.run_whole :
    run.run.run (replay type inputs settings (said .server d) (said .client d).length) =
      (.ok values, at' k [] [some .closed] (d.map Side.client.event)) := by
  rw [run_replay, h.proceed_whole]
  exact give_run result

include h result in
theorem Serves.follows : Follows (party type inputs settings) .client d := by
  intro i le
  show party type inputs settings (said .server (d.take i)) (said .client (d.take i)).length = _
  rw [party]
  rcases Nat.eq_or_lt_of_le le with rfl | lt
  · rw [List.take_length, h.run_whole result]
    exact Intent.ofRun_events values
  · have entry := List.getElem?_eq_getElem lt
    obtain ⟨err, k', incoming, fates, -, stops⟩ := h.proceed_part entry
    rw [run_replay, stops]
    exact Intent.ofRun_failure entry _

include h in
theorem Serves.standing_eq (done : k.state = .done) {i : Nat} (le : i ≤ d.length) :
    standing type inputs settings (said .server (d.take i)) (said .client (d.take i)).length =
      stateAt d i := by
  rw [standing, stateAt]
  rcases Nat.eq_or_lt_of_le le with rfl | lt
  · rw [List.take_length, h.proceed_whole, List.getElem?_eq_none (Nat.le_refl _)]
    exact done
  · have entry := List.getElem?_eq_getElem lt
    obtain ⟨err, k', incoming, fates, state, run⟩ := h.proceed_part entry
    rw [run, entry]
    exact state

end Serves

end Client

end CipherFlow.Session
