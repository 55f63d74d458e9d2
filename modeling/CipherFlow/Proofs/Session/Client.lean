import CipherFlow.Proofs.Session.Conversation
import CipherFlow.Proofs.Session.KeyHolder
import CipherFlow.Proofs.Session.Messages
import CipherFlow.Proofs.Session.Serving
import Mathlib.Logic.Relation

/-!
# Clients and servers they cannot trust

A client takes messages one by one. For one message there are few ways in
which it goes: the message is answered, it concludes the session, or it fails,
after a part of the answer was sent or refused. From these follow what a
client that waits for a message has sent so far, and how a run ends, for all
messages and all failures of the connection.

`run_endsSafely` is about any messages, any ending of the stream, and any failures
to send; `EndsSafely` lists what is safe about the end.

How the proof goes. `Takes` has the ways in which a message can go, one constructor
for each, and `handle_does` shows that there are no others. Between two messages the
client `Stands` somewhere: it has not greeted, it waits for a request, or it is
done. One message leads from one such place to the next (`Stands.advance`) or ends
the session (`Stands.fail`), and a run is the messages up to the first that does
(`serve_ends`). Faults are excluded as the data fit into memory (`Modest`).
-/

namespace CipherFlow.Session

open Returning

/-- Keys that a client can have: they are sound over a context, and the lanes
of a batch have room in a ciphertext. -/
structure ClientKeys.Sound [Primitives] (settings : Settings) (keys : ClientKeys) : Prop where
  ofParams : ∃ params, Context.ofParams params = .ok keys.evaluator.context
  holds : HoldsKeys keys.evaluator.context keys.secret keys.evaluator
  room : settings.batch ≤ settings.packing.capacity keys.evaluator.context.slotCount

theorem ClientKeys.Sound.few [Primitives] {settings : Settings} {keys : ClientKeys}
    (h : keys.Sound settings) : settings.batch ≤ 32768 :=
  let ⟨_, ofParams⟩ := h.ofParams
  h.room.trans ((Context.sized_of_ofParams ofParams).capacity_le _)

namespace Client

variable {α β : Type} {c c' : Client Peer} {m : Message}

/-! ## Steps of a client

A handler is followed from its first step to its last. Each rule takes one step off
and leaves what has to be shown if it fails, and if it does not. -/

/-- What is so after a step, of its result and the client. -/
def Does (x : Act Peer α) (c : Client Peer) (Q : Except Error α → Client Peer → Prop) : Prop :=
  Q (x.run.run c).1 (x.run.run c).2

section Rules

variable {Q : Except Error β → Client Peer → Prop} {f : α → Act Peer β}

theorem does_pure {b : β} (h : Q (.ok b) c) : Does (pure b) c Q :=
  h

theorem does_throw {e : Error} (h : Q (.error e) c) : Does (throw e) c Q :=
  h

theorem does_get_bind {f : Client Peer → Act Peer β} (h : Does (f c) c Q) :
    Does (get >>= f) c Q :=
  h

theorem does_modify {g : Client Peer → Client Peer} {Q : Except Error Unit → Client Peer → Prop}
    (h : Q (.ok ()) (g c)) : Does (modify g) c Q :=
  h

theorem does_modify_bind {g : Client Peer → Client Peer} {f : Unit → Act Peer β}
    (h : Does (f ()) (g c) Q) : Does (modify g >>= f) c Q :=
  h

/-- A step that computes, before other steps. -/
theorem does_lift_bind {y : Except Error α} (fails : ∀ e, y = .error e → Q (.error e) c)
    (goes : ∀ a, y = .ok a → Does (f a) c Q) : Does (liftM y >>= f) c Q := by
  cases eq : y with
  | error e => exact fails e eq
  | ok a => exact goes a eq

/-- So, for a step of which it is known how it can end. -/
theorem does_returns_bind {y : Except Error α} {P : α → Prop} (h : Returns y P)
    (fails : ∀ e, Faulty.isFault e = false → Q (.error e) c)
    (goes : ∀ a, y = .ok a → P a → Does (f a) c Q) : Does (liftM y >>= f) c Q :=
  does_lift_bind (fun e eq => fails e (error_of_returns h eq)) fun a eq =>
    goes a eq (ok_of_returns h eq)

/-- A sending before other steps. -/
theorem does_send_bind {f : Unit → Act Peer β}
    (fails : ∀ e p, c.transport.Extends [.refused m] p → some e ∈ c.transport.fates →
      Q (.error e) { c with transport := p })
    (goes : ∀ p, c.transport.Extends [.sent m] p → Does (f ()) { c with transport := p } Q) :
    Does (send m >>= f) c Q := by
  have own : (send m).run.run c = (((Peer.send m).run.run c.transport).1,
      { c with transport := ((Peer.send m).run.run c.transport).2 }) := rfl
  unfold Does
  rw [ExceptT.run_bind, StateT.run_bind, own]
  rcases Peer.send_cases m c.transport with ⟨p, eq, extends'⟩ | ⟨e, p, eq, extends', mem⟩
  · rw [eq]
    exact goes p extends'
  · rw [eq]
    exact fails e p extends' mem

end Rules

/-! ## Taking a message -/

section Primitives

variable [Primitives]

/-- A result is decoded in full, and these are its values. -/
def Opens (settings : Settings) (type : TensorType) (keys : ClientKeys) (m : Message)
    (values : List Float) : Prop :=
  ∃ shape handles t,
    m.readResult keys.evaluator.context settings.packing = .ok (shape, handles) ∧
    BatchedTensor.ofValues ⟨type.elementType, shape⟩ settings.batch (handles.map .cipher) = .ok t ∧
    t.read (some keys.secret) keys.evaluator.context = .ok values

/-- The inputs of a client and a message fit into memory, and the errors of the
peer come from no fault. -/
structure Tame (c : Client Peer) (m : Message) : Prop where
  inputs : 8 * c.inputs.length < Nat.pow 2 63
  payload : m.payload.length < Nat.pow 2 51
  fates : ∀ e, some e ∈ c.transport.fates → Faulty.isFault e = false

/-- How it goes when a client takes a message. -/
inductive Takes (c : Client Peer) (m : Message) : Except Error Unit → Client Peer → Prop where
  | dropped : c.state = .done → Takes c m (.ok ()) c
  | greeted {k x : Message} {keys : ClientKeys} {p : Peer} : c.state = .ready → m.Greet k x →
      keys.Sound c.settings → c.transport.Extends [.sent k, .sent x] p →
      Takes c m (.ok ())
        { c with transport := p, keys := some keys, state := .awaitingRequest }
  | answered {a : Message} {keys : ClientKeys} {coins : Coins} {p : Peer} :
      c.state = .awaitingRequest → c.keys = some keys → m.Answers a →
      c.transport.Extends [.sent a] p →
      Takes c m (.ok ())
        { c with transport := p, keys := some { keys with coins }, state := .awaitingRequest }
  | concluded {keys : ClientKeys} {values : List Float} :
      c.state = .awaitingRequest → c.keys = some keys → m.kind = .result →
      Opens c.settings c.type keys m values →
      Takes c m (.ok ())
        { c with transport := Transport.close c.transport, result := some values, state := .done }
  | failed {e : Error} {tail : List Event} {p : Peer} {s : State} :
      c.state ≠ .done → Broken m c.state tail → c.transport.Extends tail p →
      (c.state = .ready → m.kind ≠ .parameters → e = .unexpectedMessage .ready m.kind) →
      (Tame c m → Faulty.isFault e = false) →
      Takes c m (.error e) { c with transport := p, state := s }

omit [Primitives] in
theorem does_keysFor_bind {Q : Except Error β → Client Peer → Prop} {f : ClientKeys → Act Peer β}
    {kind : MessageKind}
    (missing : c.keys = none → Q (.error (.unexpectedMessage .ready kind)) c)
    (found : ∀ keys, c.keys = some keys → Does (f keys) c Q) :
    Does (keysFor kind >>= f) c Q := by
  obtain ⟨transport, state, settings, type, inputs, keys, result⟩ := c
  cases keys with
  | none => exact missing rfl
  | some keys => exact found keys rfl

/-- A failure before anything was sent, for a reason of its own. -/
theorem Takes.silent {e : Error} {s : State} (state : c.state = .ready → m.kind = .parameters)
    (going : c.state ≠ .done) (answer : Tame c m → Faulty.isFault e = false) :
    Takes c m (.error e) { c with state := s } :=
  .failed (p := c.transport) going .silent (.refl _) (fun ready other => absurd (state ready) other)
    answer

/-- Parameters are answered by keys and then by the input. Whatever can fail in between is
refused without a fault, if the input fits into memory. -/
theorem greet_does (ready : c.state = .ready) (kind : m.kind = .parameters) :
    Does (greet m) c (Takes c m) := by
  have going : c.state ≠ .done := ready.trans_ne State.noConfusion
  have silent : ∀ e, Faulty.isFault e = false → Takes c m (.error e) c := fun e answer =>
    .silent (s := c.state) (fun _ => kind) going fun _ => answer
  unfold greet
  refine does_get_bind ?_
  refine does_returns_bind (readParameters_returns m) silent fun params _ _ => ?_
  refine does_returns_bind (returns_mapError (Context.ofParams_returns params)) silent
    fun ctx _ ofParams => ?_
  have sound := Context.sound_of_ofParams ofParams
  have sized := Context.sized_of_ofParams ofParams
  obtain ⟨keys, coins, generated, hkeys⟩ :=
    KeySet.generate_ok ofParams (Coins.ofSeed c.settings.seed)
  refine does_returns_bind (P := (· = (keys, coins)))
    (returns_mapError (returns_of_ok generated rfl)) silent ?_
  rintro _ - rfl
  refine does_returns_bind
    (returns_mapError (Evaluator.ofKeys_returns ctx keys.publicKey keys.relinKey)) silent ?_
  rintro _ - rfl
  have holds : HoldsKeys ctx keys.secret ⟨ctx, keys.publicKey, keys.relinKey⟩ := ⟨rfl, hkeys⟩
  refine does_returns_bind (P := (·.kind = .evaluationKeys)) (returns_of_ok
    (Message.evaluationKeys_ok sound keys.publicKey keys.relinKey) rfl) silent fun k _ hk => ?_
  refine does_send_bind (fun e p sent mem => ?_) fun p sent => ?_
  · exact .failed (s := c.state) going (ready ▸ .keysRefused kind hk) sent
      (fun _ other => absurd kind other) fun tame => tame.fates e mem
  -- From here on the keys have been sent, so a failure leaves half a greeting.
  have greetingFails : ∀ e, (Tame c m → Faulty.isFault e = false) →
      Takes c m (.error e) { c with transport := p } := fun e answer =>
    .failed (s := c.state) going (ready ▸ .keysSent kind hk) sent (fun _ other => absurd kind other)
      answer
  refine does_lift_bind (fun e eq => greetingFails e fun tame => ?_) fun ⟨t, rest⟩ eq => ?_
  · exact error_of_returns (returns_mapError (BatchedTensor.encrypt_returns sound sized holds
      tame.inputs c.type c.settings.batch c.settings.packing _)) eq
  refine does_returns_bind (Message.execute_returns ctx _) (fun e answer =>
    greetingFails e fun _ => answer) fun x _ hx => ?_
  refine does_send_bind (fun e p' sent' mem => ?_) fun p' sent' => does_modify ?_
  · exact .failed (s := c.state) going (ready ▸ .inputRefused ⟨kind, hk, hx⟩) (sent.trans sent')
      (fun _ other => absurd kind other) fun tame => tame.fates e (sent.fates.subset mem)
  · refine .greeted ready ⟨kind, hk, hx⟩ ⟨⟨params, ofParams⟩, holds, ?_⟩ (sent.trans sent')
    exact (BatchedTensor.of_encrypt sound sized holds (eq_ok_of_mapError eq)).2.2.1

section Serving

variable (waits : c.state = .awaitingRequest)
  (hkeys : ∀ keys, c.keys = some keys → keys.Sound c.settings)

include waits in
theorem Takes.silent_of_waits {e : Error} {s : State}
    (answer : Tame c m → Faulty.isFault e = false) :
    Takes c m (.error e) { c with state := s } :=
  .silent (fun ready => nomatch waits.symm.trans ready) (waits.trans_ne State.noConfusion) answer

include waits hkeys in
/-- A request is answered by one message, with an element for each of its elements. -/
theorem answer_does (asks : m.kind.IsRequest) (f : Nonlinear) (elements : Wire.Bytes) :
    Does (answer m.kind f m.count elements) c (Takes c m) := by
  have silent : ∀ e, Faulty.isFault e = false →
      Takes c m (.error e) { c with state := .processing } := fun e answer =>
    Takes.silent_of_waits waits fun _ => answer
  unfold answer
  refine does_modify_bind (does_keysFor_bind (fun _ => silent _ rfl) fun keys found => ?_)
  obtain ⟨⟨params, ofParams⟩, holds, room⟩ := hkeys keys found
  have sound := Context.sound_of_ofParams ofParams
  have sized := Context.sized_of_ofParams ofParams
  have few := (hkeys keys found).few
  refine does_get_bind ?_
  refine does_returns_bind (readElements_returns sized c.settings.packing m.count elements) silent
    fun batch _ ⟨length, wellFormed⟩ => ?_
  have each := returns_of_decided (decided_mapM fun h hh =>
    f.applyWithKey_decided sound sized holds (wellFormed h hh) few)
  refine does_returns_bind (returns_mapError (each keys.coins)) silent
    fun ⟨response, coins⟩ _ answered => ?_
  refine does_returns_bind (Message.response_returns _ response) silent fun a _ ⟨kind, count⟩ => ?_
  have answers : m.Answers a :=
    ⟨asks, kind, by rw [count, ← List.Forall₂.length_eq answered, length]⟩
  refine does_send_bind (fun e p sent mem => ?_) fun p sent => does_modify ?_
  · exact .failed (s := .processing) (waits.trans_ne State.noConfusion)
      (waits ▸ .answerRefused answers) sent (fun ready => nomatch waits.symm.trans ready)
      fun tame => tame.fates e mem
  · exact .answered waits found answers sent

omit [Primitives] in
/-- The values of a result fit into memory if its bytes do. -/
theorem fits_of_payload {size count batch bytes : Nat} (payload : bytes < Nat.pow 2 51)
    (each : 65 * count ≤ bytes) (few : batch ≤ 32768) (eq : size = count * batch) :
    8 * size < Nat.pow 2 63 := by
  have bound : bytes < 2251799813685248 := payload
  have most : count * batch ≤ 34643074056696 * 32768 := Nat.mul_le_mul (by omega) few
  exact lt_of_le_of_lt (show 8 * size ≤ 8 * (34643074056696 * 32768) by omega) (by decide)

include waits hkeys in
/-- A result ends the session if it can be decoded, and then only. -/
theorem conclude_does (kind : m.kind = .result) : Does (conclude m) c (Takes c m) := by
  have silent : ∀ e, (Tame c m → Faulty.isFault e = false) → Takes c m (.error e) c := fun e =>
    Takes.silent_of_waits (s := c.state) waits
  unfold conclude
  refine does_keysFor_bind (fun _ => silent _ fun _ => rfl) fun keys found => ?_
  obtain ⟨⟨params, ofParams⟩, holds, room⟩ := hkeys keys found
  have sound := Context.sound_of_ofParams ofParams
  have sized := Context.sized_of_ofParams ofParams
  have few := (hkeys keys found).few
  refine does_get_bind ?_
  refine does_returns_bind (readResult_returns sized c.settings.packing m)
    (fun e answer => silent e fun _ => answer) fun ⟨shape, handles⟩ read ⟨length, wellFormed⟩ => ?_
  refine does_lift_bind (fun e eq => silent e fun tame => ?_) fun values eq => ?_
  · refine error_of_returns (returns_mapError (returns_bind (P := fun t =>
      BatchedTensor.ofValues ⟨c.type.elementType, shape⟩ c.settings.batch
        (handles.map .cipher) = .ok t) (Q := fun _ => True)
      (returns_mono (BatchedTensor.ofValues_returns _ _ _) fun t made _ => made)
      fun t made => ?_)) eq
    obtain ⟨shaped, ⟨packed, packs, places⟩, rfl⟩ := BatchedTensor.ofValues_eq_ok_iff.mp made
    have size : shape.size = m.count * c.settings.batch := by
      rw [packs.size_eq shaped, ← places, List.length_map, length]
    -- Each element takes bytes of the message, so a short message has few values.
    have fits := fits_of_payload tame.payload (le_of_readResult sized read) few size
    obtain ⟨values, opened⟩ := (BatchedTensor.exists_read_iff sound holds.keys.secret
      (t := ⟨⟨c.type.elementType, shape⟩, c.settings.batch, handles.map .cipher⟩) few rfl
      wellFormed).mpr fits
    exact returns_of_ok opened trivial
  · refine does_modify_bind (does_modify (.concluded waits found kind ?_))
    obtain ⟨t, made, opened⟩ := exists_of_bind_eq_ok (eq_ok_of_mapError eq)
    exact ⟨shape, handles, t, read, made, opened⟩

omit [Primitives] in
theorem splitBound_returns (payload : Wire.Bytes) : Returns (splitBound payload) fun _ => True :=
  returns_mono (field_returns Wire.readFloat_returns payload) fun _ _ _ => trivial

end Serving

/-- A client takes a message in one of a few ways. -/
theorem handle_does (hkeys : ∀ keys, c.keys = some keys → keys.Sound c.settings) :
    Does (handle m) c (Takes c m) := by
  unfold handle
  refine does_get_bind ?_
  split
  case h_1 ended => exact does_pure (.dropped ended)
  case h_2 ready kind => exact greet_does ready kind
  case h_3 waits kind => exact answer_does waits hkeys (.inl kind) .relu m.payload
  case h_4 waits kind =>
    refine does_returns_bind (splitBound_returns m.payload) (fun e answer =>
      Takes.silent_of_waits (s := c.state) waits fun _ => answer) fun (bound, elements) _ _ => ?_
    exact answer_does waits hkeys (.inr kind) (.bounded bound) elements
  case h_5 waits kind => exact conclude_does waits hkeys kind
  case h_6 going _ _ _ _ =>
    exact does_throw (.failed (p := c.transport) (s := c.state) going .silent (.refl _)
      (fun ready _ => by rw [ready]) fun _ => rfl)

/-! ## Advancing -/

/-- A client that is not done takes a message without an error. -/
def Advances (c c' : Client Peer) : Prop :=
  c.state ≠ .done ∧ takeNext.run.run c = (.ok (), c')

/-- A client takes messages without an error. -/
abbrev Reaches : Client Peer → Client Peer → Prop :=
  Relation.ReflTransGen Advances

/-- A client that has received a message. -/
def hears (c : Client Peer) (m : Message) (rest : List Message) : Client Peer :=
  { c with transport := { c.transport with
      incoming := rest, events := c.transport.events ++ [.received m] } }

theorem takeNext_nil (none : c.transport.incoming = []) : takeNext.run.run c =
    (.error c.transport.ending, { c with transport := c.transport.record .lost }) := by
  obtain ⟨⟨incoming, ending, fates, events, closed⟩, state, settings, type, inputs, keys,
    result⟩ := c
  obtain rfl : incoming = [] := none
  rfl

theorem takeNext_cons {rest : List Message} (some : c.transport.incoming = m :: rest) :
    takeNext.run.run c = (handle m).run.run (c.hears m rest) := by
  obtain ⟨⟨incoming, ending, fates, events, closed⟩, state, settings, type, inputs, keys,
    result⟩ := c
  obtain rfl : incoming = m :: rest := some
  rfl

/-- How a client stands between two messages. -/
inductive Stands (c : Client Peer) : Prop where
  | fresh : c.state = .ready → c.keys = none → c.result = none → c.transport.events = [] → Stands c
  | serving {keys : ClientKeys} : c.state = .awaitingRequest → c.keys = some keys →
      keys.Sound c.settings → c.result = none → Served c.transport.events → Stands c
  | ended {keys : ClientKeys} {m : Message} {values : List Float} {es : List Event} :
      c.state = .done → c.keys = some keys → c.result = some values → c.transport.closed = true →
      Served es → c.transport.events = es ++ [.received m] → m.kind = .result →
      Opens c.settings c.type keys m values → Stands c

theorem Stands.sound (h : Stands c) (going : c.state ≠ .done) {keys : ClientKeys}
    (found : c.keys = some keys) : keys.Sound c.settings := by
  cases h with
  | fresh _ none => exact nomatch none.symm.trans found
  | serving _ some sound =>
    obtain rfl := Option.some.inj (some.symm.trans found)
    exact sound
  | ended done => exact absurd done going

theorem Stands.waiting (h : Stands c) (going : c.state ≠ .done) :
    Waiting c.state c.transport.events ∧ c.result = none := by
  cases h with
  | fresh state _ result events =>
    rw [state, events]
    exact ⟨.fresh, result⟩
  | serving state _ _ result served =>
    rw [state]
    exact ⟨.served served, result⟩
  | ended done => exact absurd done going

/-- What does not change when a client takes a message. -/
structure Keeps (c c' : Client Peer) (m : Message) : Prop where
  settings : c'.settings = c.settings
  type : c'.type = c.type
  inputs : c'.inputs = c.inputs
  incoming : c.transport.incoming = m :: c'.transport.incoming
  ending : c'.transport.ending = c.transport.ending
  fates : c'.transport.fates <:+ c.transport.fates

/-- From one message to the next a client stands well. -/
theorem Stands.advance (h : Stands c) (step : Advances c c') :
    Stands c' ∧ ∃ m, Keeps c c' m := by
  obtain ⟨going, taken⟩ := step
  cases incoming : c.transport.incoming with
  | nil =>
    rw [takeNext_nil incoming] at taken
    exact nomatch congrArg Prod.fst taken
  | cons m rest =>
    rw [takeNext_cons incoming] at taken
    have takes := handle_does (c := c.hears m rest) (m := m) fun keys found => h.sound going found
    rw [Does, taken] at takes
    obtain ⟨waiting, result⟩ := h.waiting going
    cases takes with
    | dropped ended => exact absurd ended going
    | @greeted k x keys p ready greet sound sent =>
      rw [show c.state = .ready from ready] at waiting
      -- A client that is ready has neither heard nor sent anything, so this is its greeting.
      cases eq : c.transport.events with
      | cons e es =>
        rw [eq] at waiting
        exact nomatch waiting
      | nil =>
        have events : p.events = [.received m, .sent k, .sent x] := by
          rw [sent.events]
          show (c.transport.events ++ _) ++ _ = _
          rw [eq]
          rfl
        refine ⟨.serving rfl rfl sound result ?_, m, rfl, rfl, rfl, ?_, sent.ending, sent.fates⟩
        · show Served p.events
          rw [events]
          exact .greeted greet
        · rw [incoming]
          exact congrArg _ sent.incoming.symm
    | @answered a keys coins p waits found answers sent =>
      -- One answer behind those that have been served.
      rw [show c.state = .awaitingRequest from waits] at waiting
      obtain ⟨ofParams, holds, room⟩ := h.sound going found
      cases waiting with
      | served served =>
        refine ⟨.serving rfl rfl ⟨ofParams, holds, room⟩ result ?_, m, rfl, rfl, rfl, ?_,
          sent.ending, sent.fates⟩
        · show Served p.events
          rw [sent.events]
          show Served ((c.transport.events ++ [.received m]) ++ [.sent a])
          rw [List.append_assoc]
          exact .answered served answers
        · rw [incoming]
          exact congrArg _ sent.incoming.symm
    | concluded waits found kind opens =>
      rw [show c.state = .awaitingRequest from waits] at waiting
      cases waiting with
      | served served =>
        exact ⟨.ended rfl found rfl rfl served rfl kind opens, m, rfl, rfl, rfl, incoming, rfl,
          List.suffix_rfl⟩

/-! ## Failing -/

/-- The inputs of a client and the messages to come fit into memory, and the
errors of the peer come from no fault. -/
structure Modest (c : Client Peer) : Prop where
  inputs : 8 * c.inputs.length < Nat.pow 2 63
  incoming : ∀ m ∈ c.transport.incoming, m.payload.length < Nat.pow 2 51
  ending : Faulty.isFault c.transport.ending = false
  fates : ∀ e, some e ∈ c.transport.fates → Faulty.isFault e = false

omit [Primitives] in
theorem Modest.keep (h : Modest c) (keeps : Keeps c c' m) : Modest c' where
  inputs := keeps.inputs ▸ h.inputs
  incoming m' mem := h.incoming m' (keeps.incoming ▸ List.mem_cons_of_mem _ mem)
  ending := keeps.ending ▸ h.ending
  fates e mem := h.fates e (keeps.fates.subset mem)

/-- How it is with a client that has failed with an error. -/
structure Failed (e : Error) (c : Client Peer) : Prop where
  result : c.result = none
  ended : Ended c.transport.events
  /-- A client that does not hear parameters first refuses what it hears. -/
  first : ∀ m es, c.transport.events = .received m :: es → m.kind ≠ .parameters →
    es = [] ∧ e = .unexpectedMessage .ready m.kind

theorem Stands.fail {e : Error} (h : Stands c) (going : c.state ≠ .done)
    (fails : takeNext.run.run c = (.error e, c')) :
    Failed e c' ∧ (Modest c → Faulty.isFault e = false) := by
  obtain ⟨waiting, result⟩ := h.waiting going
  cases incoming : c.transport.incoming with
  | nil =>
    rw [takeNext_nil incoming] at fails
    obtain ⟨eq, rfl⟩ := Prod.mk.inj fails
    obtain rfl := Except.error.inj eq
    refine ⟨⟨result, .lost waiting, fun m es eq other => ?_⟩, fun modest => modest.ending⟩
    exact nomatch (waiting.first eq other).2
  | cons m rest =>
    rw [takeNext_cons incoming] at fails
    have takes := handle_does (c := c.hears m rest) (m := m) fun keys found => h.sound going found
    rw [Does, fails] at takes
    cases takes with
    | @failed _ tail p s _ broken sent unexpected answer =>
      have events : p.events = c.transport.events ++ .received m :: tail := by
        rw [sent.events]
        exact List.append_assoc _ [.received m] tail
      refine ⟨⟨result, ?_, fun m' es eq other => ?_⟩, fun modest => answer ⟨modest.inputs, ?_, ?_⟩⟩
      · show Ended p.events
        rw [events]
        exact .broken waiting broken
      · obtain ⟨ready, same⟩ := waiting.first (events.symm.trans eq) other
        obtain ⟨heard, rfl⟩ := List.cons.inj same
        obtain rfl := Event.received.inj heard
        have broken : Broken m .ready tail := ready ▸ broken
        exact ⟨broken.eq_nil other, unexpected ready other⟩
      · exact modest.incoming m (incoming ▸ List.mem_cons_self)
      · exact modest.fates

/-! ## Runs -/

omit [Primitives] in
theorem give_run {values : List Float} (h : c.result = some values) :
    (give : Act Peer (List Float)).run.run c = (.ok values, c) := by
  obtain ⟨transport, state, settings, type, inputs, keys, result⟩ := c
  obtain rfl : result = some values := h
  rfl

/-- A client that advances as far as it can ends a run: it is done, or a
message fails. -/
theorem serve_ends (h : Stands c) {messages : Nat}
    (enough : c.transport.incoming.length < messages) :
    ∃ c₁, Reaches c c₁ ∧
      ((c₁.state = .done ∧ (serve messages).run.run c = give.run.run c₁) ∨
        c₁.state ≠ .done ∧ ∃ e c₂, takeNext.run.run c₁ = (.error e, c₂) ∧
          (serve messages).run.run c = (.error e, c₂.finished)) := by
  induction messages generalizing c with
  | zero => exact absurd enough (Nat.not_lt_zero _)
  | succ messages ih =>
    by_cases ended : c.state = .done
    · exact ⟨c, .refl, .inl ⟨ended, serve_done ended⟩⟩
    · rw [serve_going ended]
      cases taken : takeNext.run.run c with
      | mk r c' =>
        cases r with
        | error e => exact ⟨c, .refl, .inr ⟨ended, e, c', taken, rfl⟩⟩
        | ok _ =>
          have step : Advances c c' := ⟨ended, taken⟩
          obtain ⟨stands, m, keeps⟩ := h.advance step
          have fewer : c'.transport.incoming.length < messages := by
            rw [keeps.incoming, List.length_cons] at enough
            omega
          obtain ⟨c₁, reaches, ends⟩ := ih stands fewer
          exact ⟨c₁, .head step reaches, ends⟩

/-- A session that ends safely, whatever its peer does: from a client on, with
a result and a client. -/
structure EndsSafely (c₀ : Client Peer) (r : Except Error (List Float)) (c : Client Peer) :
    Prop where
  done : c.state = .done
  closed : c.transport.closed = true
  /-- There are values exactly if a result is received and decoded in full. -/
  values : ∀ values, r = .ok values ↔ c.result = some values ∧
    ∃ es keys m, c.transport.events = es ++ [.received m] ∧ m.kind = .result ∧
      c.keys = some keys ∧ Opens c₀.settings c₀.type keys m values
  /-- Otherwise there is the first error: no message before it failed, and all
  that is done after it is to close the connection. -/
  error : ∀ e, r = .error e → ∃ c₁ c₂, Reaches c₀ c₁ ∧ c₁.state ≠ .done ∧
    takeNext.run.run c₁ = (.error e, c₂) ∧ c = c₂.finished
  kinds : ∃ n, attempted c.transport.events <+: kindsOf n
  chain : c.transport.events.IsChain Event.Next
  /-- Anything but parameters is refused before parameters are received. -/
  first : ∀ m es, c.transport.events = .received m :: es → m.kind ≠ .parameters →
    es = [] ∧ r = .error (.unexpectedMessage .ready m.kind)

theorem Stands.reach (h : Stands c) (reaches : Reaches c c') :
    Stands c' ∧ c'.settings = c.settings ∧ c'.type = c.type ∧ (Modest c → Modest c') := by
  induction reaches with
  | refl => exact ⟨h, rfl, rfl, id⟩
  | tail _ step ih =>
    obtain ⟨before, settings, type, modest⟩ := ih
    obtain ⟨stands, m, keeps⟩ := before.advance step
    exact ⟨stands, keeps.settings.trans settings, keeps.type.trans type, fun tame =>
      (modest tame).keep keeps⟩

theorem Stands.endsSafely (h : Stands c) {messages : Nat}
    (enough : c.transport.incoming.length < messages) :
    EndsSafely c ((serve messages).run.run c).1 ((serve messages).run.run c).2 ∧
      (Modest c → ∀ e, ((serve messages).run.run c).1 = .error e → Faulty.isFault e = false) := by
  obtain ⟨c₁, reaches, ⟨ended, run⟩ | ⟨going, e, c₂, fails, run⟩⟩ := serve_ends h enough
  · -- The client has taken its result.
    obtain ⟨stands, settings, type, -⟩ := h.reach reaches
    cases stands with
    | fresh state => exact nomatch ended.symm.trans state
    | serving state => exact nomatch ended.symm.trans state
    | @ended keys m values es done found result closed served events kind opens =>
      rw [run, give_run result]
      have ended : Ended c₁.transport.events := events ▸ .broken (.served served) .silent
      refine ⟨?_, fun _ e eq => nomatch eq⟩
      exact {
        done := done
        closed := closed
        values := fun values' => by
          constructor
          · intro eq
            obtain rfl := Except.ok.inj eq
            exact ⟨result, es, keys, m, events, kind, found, settings ▸ type ▸ opens⟩
          · rintro ⟨eq, -⟩
            rw [Option.some.inj (result.symm.trans eq)]
        error := fun e eq => nomatch eq
        kinds := ended.kinds
        chain := ended.chain
        first := fun m' es' eq other => by
          obtain ⟨p, rest, rfl, parameters⟩ := served.head
          rw [events] at eq
          obtain ⟨same, -⟩ := List.cons.inj eq
          exact absurd (Event.received.inj same ▸ parameters) other }
  · -- A message has failed, and what was sent before it is a part of a conversation.
    obtain ⟨stands, -, -, modest⟩ := h.reach reaches
    obtain ⟨⟨result, ended, first⟩, answer⟩ := stands.fail going fails
    rw [run]
    refine ⟨?_, fun tame e' eq => Except.error.inj eq ▸ answer (modest tame)⟩
    exact {
      done := rfl
      closed := rfl
      values := fun values => ⟨nofun, fun h => nomatch result.symm.trans h.1⟩
      error := fun e' eq => ⟨c₁, c₂, reaches, going, Except.error.inj eq ▸ fails, rfl⟩
      kinds := ended.kinds
      chain := ended.chain
      first := fun m es eq other => (first m es eq other).imp_right (congrArg Except.error) }

/-- Whatever messages a client receives, and whatever becomes of those that it
sends, its session ends safely; and it fails for no fault unless its data do
not fit into memory. Once a session is over, messages change nothing. -/
theorem run_endsSafely (messages : List Message) (ending : Error) (fates : List (Option Error))
    (type : TensorType) (inputs : List Float) (settings : Settings) :
    let c₀ := ofTransport (Peer.ofMessages messages ending fates) type inputs settings
    (EndsSafely c₀ (run.run.run c₀).1 (run.run.run c₀).2 ∧
      (Modest c₀ → ∀ e, (run.run.run c₀).1 = .error e → Faulty.isFault e = false)) ∧
    ∀ (τ : Type) [Transport τ] (c : Client τ) (m : Message), c.state = .done →
      (handle m).run.run c = (.ok (), c) := by
  intro c₀
  have stands : Stands c₀ := .fresh rfl rfl rfl rfl
  refine ⟨stands.endsSafely (Nat.lt_succ_self messages.length), ?_⟩
  intro τ _ ⟨transport, state, settings, type, inputs, keys, result⟩ m ended
  obtain rfl : state = .done := ended
  rfl

end Primitives

/-- A server that sends a result first. -/
def hasty : Client Peer :=
  ofTransport (Peer.ofMessages [⟨.result, 0, []⟩] .closed [some .closed]) ⟨.f32, [1]⟩ [0.5] {}

attribute [local instance] Primitives.coarse

/-- Its message is refused, and the session is over. -/
theorem run_endsSafely_hasty :
    Modest hasty ∧ EndsSafely hasty (run.run.run hasty).1 (run.run.run hasty).2 ∧
    (run.run.run hasty).1 = .error (.unexpectedMessage .ready .result) ∧
    (run.run.run hasty).2.transport.events = [.received ⟨.result, 0, []⟩] ∧
    (handle ⟨.parameters, 0, []⟩).run.run (run.run.run hasty).2 =
      (.ok (), (run.run.run hasty).2) := by
  obtain ⟨⟨safe, answer⟩, dropped⟩ := run_endsSafely [⟨.result, 0, []⟩] .closed [some .closed]
    ⟨.f32, [1]⟩ [0.5] {}
  have modest : Modest hasty := {
    inputs := by decide
    incoming := List.forall_mem_singleton.mpr (by decide)
    ending := rfl
    fates := fun e mem => by
      obtain rfl := Option.some.inj (List.mem_singleton.mp mem)
      rfl }
  exact ⟨modest, safe, rfl, rfl, dropped Peer _ _ safe.done⟩

end Client

end CipherFlow.Session
