import CipherFlow.Proofs.Session.Conduct
import CipherFlow.Proofs.Session.Rounds

/-!
# Sessions of two honest parties

A server that follows a plan and a client conduct one dialogue: a greeting, one
round for each request, and the result.

What the server does is any `Plan`: batches to evaluate, each chosen by the answers
to the ones before, and a tensor to deliver at the end. Of a plan it is asked that
the holder of the key could carry it out (`Plan.Proper`) for all answers that there
may be.

Main statements: `exists_rest`, for what follows the greeting, and
`Server.conducts_exchange` with `Client.conducts_greet` for the greeting.

How the proof goes. An exchange of messages is shown for each side on its own, by
the composition lemmas of `CipherFlow.Proofs.Session.Conduct`: the server asks
(`Server.conducts_ask`), the client answers (`Client.conducts_request`), and both
say one dialogue (`exists_round`). Rounds are put together by induction over the
pieces of a batch (`exists_rounds`), batches by induction over the plan
(`exists_rest`), where the induction runs over all answers since the next batch may
depend on them.
-/

namespace CipherFlow.Session

open Returning

variable {ctx : Context} {settings : Settings} {secret : SecretKey} {ev : Evaluator}

/-! ## Plans -/

/-- What a server does after a handshake: it has the client evaluate batches,
and may choose the next one by the answers, until it delivers a tensor. -/
inductive Plan where
  | deliver (t : BatchedTensor)
  | evaluate (f : Nonlinear) (batch : List Handle) (next : List Handle → Plan)

namespace Server

variable {τ : Type} [Transport τ]

/-- Follows a plan, and gives the tensor that it has delivered. -/
def follow (s : Server) : Plan → Act τ BatchedTensor
  | .deliver t => do
    s.sendResult t
    return t
  | .evaluate f batch next => do
    let answers ← s.evaluate f batch
    follow s (next answers)

/-- Shakes hands with a client, and follows a plan. -/
def session [Primitives] (params : Params) (settings : Settings) (plan : Welcome → Plan) :
    Act τ BatchedTensor := do
  let w ← handshake params settings
  w.server.follow (plan w)

end Server

/-- A tensor that a client can read: encrypted with its key, for its batch, and
of values that fit into memory. No tensor of more values can be read by anyone
(`BatchedTensor.exists_read_iff`). -/
structure Deliverable (settings : Settings) (ctx : Context) (t : BatchedTensor) : Prop where
  fits : t.Fits ctx settings.packing
  batch : t.batch = settings.batch
  short : Shape.Short t.type.shape
  room : 8 * t.type.shape.size < Nat.pow 2 63

/-- A plan that asks the holder of a key to evaluate elements on which the
functions can be evaluated, whatever the answers are, and delivers a tensor
that can be read. -/
inductive Plan.Proper (settings : Settings) (secret : SecretKey) (ev : Evaluator) : Plan → Prop
  | deliver {t : BatchedTensor} : Deliverable settings ev.context t →
      Proper settings secret ev (.deliver t)
  | evaluate {f : Nonlinear} {batch : List Handle} {next : List Handle → Plan} :
      (∀ h ∈ batch, h.WellFormed ev.context settings.packing ∧
        ∃ coins r, (f.applyWithKey h settings.batch secret ev).run coins = .ok r) →
      (∀ answers, List.Forall₂ (Server.Accepted ev.context settings.packing) batch answers →
        Proper settings secret ev (next answers)) →
      Proper settings secret ev (.evaluate f batch next)

/-! ## Rounds -/

/-- The rounds of requests and answers. -/
def rounds (qs : List (Message × Message)) : Dialogue :=
  qs.flatMap fun q => [(.server, q.1), (.client, q.2)]

/-- Rounds of requests and answers, and a result. -/
def closing (qs : List (Message × Message)) (r : Message) : Dialogue :=
  rounds qs ++ [(.server, r)]

/-- A client that waits for a request. -/
def Client.waiting (type : TensorType) (inputs : List Float) (settings : Settings)
    (keys : ClientKeys) : Client Bool :=
  ⟨false, .awaitingRequest, settings, type, inputs, some keys, none⟩

theorem rounds_cons (q : Message × Message) (qs : List (Message × Message)) :
    rounds (q :: qs) = [(.server, q.1), (.client, q.2)] ++ rounds qs :=
  rfl

theorem closing_cons (q : Message × Message) (qs : List (Message × Message)) (r : Message) :
    closing (q :: qs) r = (.server, q.1) :: (.client, q.2) :: closing qs r :=
  rfl

theorem closing_append (qs qs' : List (Message × Message)) (r : Message) :
    closing (qs ++ qs') r = rounds qs ++ closing qs' r := by
  rw [closing, rounds, List.flatMap_append, List.append_assoc]
  rfl

section Rounds

variable {type : TensorType} {inputs : List Float} {closed : Bool}

theorem Server.conducts_ask {s : Server} {f : Nonlinear} {batch answers : List Handle}
    {q a : Message} {coins coins' : Coins} (context : s.context = ev.context)
    (packing : s.packing = settings.packing)
    (round : Round settings secret ev f batch coins q a answers coins') :
    Conducts (s.ask f batch : Act Peer (List Handle)) closed [(.server, q), (.client, a)] answers
      closed := by
  have count : a.count = batch.length := round.responds.count.trans round.count
  unfold ask
  rw [context, packing]
  refine conducts_lift_bind round.request (conducts_entry_bind (conducts_send q) ?_)
  refine conducts_entry_bind (conducts_expect round.responds.kind) ?_
  rw [if_neg (not_not.mpr count)]
  exact conducts_lift_bind round.read (conducts_lift_bind round.accepted conducts_pure)

theorem Client.conducts_answer {kind : MessageKind} {f : Nonlinear} {batch answers : List Handle}
    {bytes : Wire.Bytes} {q a : Message} {coins coins' : Coins}
    (round : Round settings secret ev f batch coins q a answers coins')
    (elements : readElements ev.context settings.packing q.count bytes = .ok batch) :
    Conducts (answer kind f q.count bytes : Act Peer Unit)
      (waiting type inputs settings ⟨secret, ev, coins⟩) [(.client, a)] ()
      (waiting type inputs settings ⟨secret, ev, coins'⟩) := by
  have processing : State.before (.client, a) = .processing := if_pos round.responds.kind
  unfold answer
  refine conducts_silent_bind (conducts_enter .processing) ?_
  refine conducts_silent_bind (conducts_keysFor rfl kind) ?_
  refine conducts_get_bind (fun _ _ _ => rfl) ?_
  refine conducts_lift_bind elements ?_
  refine conducts_lift_bind (congrArg (Except.mapError Error.element) round.applied) ?_
  refine conducts_lift_bind round.response ?_
  refine conducts_entry_bind (conducts_send processing.symm) ?_
  exact conducts_modify fun _ _ _ => rfl

/-- A client takes a request and answers it. -/
theorem Client.conducts_request [Primitives] {f : Nonlinear} {batch answers : List Handle}
    {q a : Message} {coins coins' : Coins}
    (round : Round settings secret ev f batch coins q a answers coins') :
    Conducts (takeNext : Act Peer Unit) (waiting type inputs settings ⟨secret, ev, coins⟩)
      [(.server, q), (.client, a)] () (waiting type inputs settings ⟨secret, ev, coins'⟩) := by
  refine conducts_takeNext (if_neg round.responds.asks.ne_parameters).symm ?_
  obtain ⟨bytes, payload, elements⟩ := round.elements
  cases f with
  | relu => exact conducts_relu rfl round.kind (conducts_answer round (payload ▸ elements))
  | bounded bound =>
    exact conducts_bounded rfl round.kind (payload ▸ splitBound_ok bound bytes)
      (conducts_answer round elements)

variable (sound : ctx.Sound) (sized : ctx.Sized) (distinct : ctx.DistinctIds)
  (holds : HoldsKeys ctx secret ev) (few : settings.batch ≤ 32768)

include sound sized distinct holds few in
/-- A request and its answer. -/
theorem exists_round [Primitives] {s : Server} (context : s.context = ctx)
    (packing : s.packing = settings.packing) (f : Nonlinear) {batch : List Handle}
    (ready : ∀ h ∈ batch, h.WellFormed ctx settings.packing ∧
      ∃ coins r, (f.applyWithKey h settings.batch secret ev).run coins = .ok r) (coins : Coins) :
    ∃ q a answers coins', q.Answers a ∧
      List.Forall₂ (Server.Accepted ctx settings.packing) batch answers ∧
      Conducts (s.ask f batch : Server.Act Peer (List Handle)) closed
        [(.server, q), (.client, a)] answers closed ∧
      Conducts (Client.takeNext : Client.Act Peer Unit)
        (.waiting type inputs settings ⟨secret, ev, coins⟩)
        [(.server, q), (.client, a)] () (.waiting type inputs settings ⟨secret, ev, coins'⟩) := by
  obtain rfl : ev.context = ctx := holds.context
  have askable : Askable settings secret ev f batch := fun h hh =>
    ⟨⟨(ready h hh).1, distinct.named (ready h hh).1.level_lt⟩, (ready h hh).2⟩
  obtain ⟨q, a, answers, coins', round⟩ := askable.exists_round sound sized holds few coins
  have accepted : List.Forall₂ (Server.Accepted ev.context settings.packing) batch answers :=
    round.each.imp fun h r answer =>
      ⟨answer.wellFormed, answer.level,
        answer.scale ▸ Scheme.scalesMatch_self answer.wellFormed.scale⟩
  exact ⟨q, a, answers, coins', round.responds, accepted,
    Server.conducts_ask context packing round, Client.conducts_request round⟩

include sound sized distinct holds few in
/-- The rounds in which pieces are asked for. -/
theorem exists_rounds [Primitives] {s : Server} (context : s.context = ctx)
    (packing : s.packing = settings.packing) (f : Nonlinear) {pieces : List (List Handle)}
    (ready : ∀ h ∈ pieces.flatten, h.WellFormed ctx settings.packing ∧
      ∃ coins r, (f.applyWithKey h settings.batch secret ev).run coins = .ok r) (coins : Coins) :
    ∃ qs answers coins', (∀ q ∈ qs, q.1.Answers q.2) ∧
      List.Forall₂ (Server.Accepted ctx settings.packing) pieces.flatten answers ∧
      Conducts (s.askEach f pieces : Server.Act Peer (List Handle)) closed (rounds qs) answers
        closed ∧
      ∀ d k, Client.Serves (.waiting type inputs settings ⟨secret, ev, coins'⟩) d k →
        Client.Serves (.waiting type inputs settings ⟨secret, ev, coins⟩) (rounds qs ++ d) k := by
  induction pieces generalizing coins with
  | nil => exact ⟨[], [], coins, (fun q h => nomatch h), .nil, conducts_pure, fun d k h => h⟩
  | cons piece rest ih =>
    obtain ⟨here, later⟩ := List.forall_mem_append.mp ready
    obtain ⟨q, a, answers, coins₁, answers', accepted, asks, takes⟩ :=
      exists_round sound sized distinct holds few context packing f here coins
    obtain ⟨qs, answers₂, coins₂, all, accepted₂, asks₂, serves⟩ := ih later coins₁
    refine ⟨(q, a) :: qs, answers ++ answers₂, coins₂, List.forall_mem_cons.mpr ⟨answers', all⟩,
      List.rel_append accepted accepted₂, ?_, fun d k h => ?_⟩
    · exact conducts_bind asks (conducts_bind_silent asks₂ conducts_pure)
    · rw [rounds_cons, List.append_assoc]
      exact Client.serves_cons State.noConfusion takes (serves d k h)

/-! ## The result -/

theorem Server.sendResult_run (s : Server) (t : BatchedTensor) (p : Peer) :
    (s.sendResult t : Act Peer Unit).run.run p =
      (((s.deliver t).run.run p).1, Transport.close ((s.deliver t).run.run p).2) :=
  rfl

/-- Where a result cannot be written, nothing is sent. -/
theorem Server.follow_error {s : Server} {t : BatchedTensor} {handles : List Handle} {e : Error}
    (encrypted : encryptedElements t.values = .ok handles)
    (refused : Message.result s.context t.type.shape handles = .error e) (p : Peer) :
    (s.follow (.deliver t) : Act Peer BatchedTensor).run.run p = (.error e, Transport.close p) := by
  have fails : (s.deliver t : Act Peer Unit).run.run p = (.error e, p) := by
    unfold deliver
    rw [encrypted]
    show (liftM (Message.result s.context t.type.shape handles) >>= fun m => Transport.send m :
      Act Peer Unit).run.run p = _
    rw [refused]
    rfl
  have fails' : (s.sendResult t : Act Peer Unit).run.run p = (.error e, Transport.close p) := by
    rw [sendResult_run, fails]
  rw [follow, run_bind_error fails']

theorem Server.conducts_sendResult {s : Server} {t : BatchedTensor} {r : Message}
    {handles : List Handle} (encrypted : encryptedElements t.values = .ok handles)
    (result : Message.result s.context t.type.shape handles = .ok r) :
    Conducts (s.sendResult t : Act Peer Unit) closed [(.server, r)] () true := by
  have sends : Conducts (s.deliver t : Act Peer Unit) closed [(.server, r)] () closed := by
    unfold deliver
    exact conducts_lift_bind encrypted (conducts_lift_bind result (conducts_send r))
  constructor
  · intro incoming fates es
    rw [sendResult_run, sends.whole]
    rfl
  · intro i e es entry
    obtain ⟨err, k, incoming, fates, -, run⟩ := sends.part i e es entry
    refine ⟨err, true, incoming, fates, trivial, ?_⟩
    rw [sendResult_run, run]
    rfl

theorem Server.encryptedElements_ok (handles : List Handle) :
    encryptedElements (handles.map .cipher) = .ok handles := by
  induction handles with
  | nil => rfl
  | cons h handles ih =>
    rw [List.map_cons, encryptedElements, ih]
    rfl

/-- A client that is done. -/
def Client.ended (type : TensorType) (inputs : List Float) (settings : Settings)
    (keys : ClientKeys) (values : List Float) : Client Bool :=
  ⟨true, .done, settings, type, inputs, some keys, some values⟩

theorem Client.conducts_conclude {m : Message} {keys : ClientKeys} {shape : Shape}
    {handles : List Handle} {t : BatchedTensor} {values : List Float}
    (read : m.readResult keys.evaluator.context settings.packing = .ok (shape, handles))
    (made : BatchedTensor.ofValues ⟨type.elementType, shape⟩ settings.batch
      (handles.map .cipher) = .ok t)
    (opened : t.read (some keys.secret) keys.evaluator.context = .ok values) :
    Conducts (conclude m : Act Peer Unit) (waiting type inputs settings keys) [] ()
      (ended type inputs settings keys values) := by
  unfold conclude
  refine conducts_silent_bind (conducts_keysFor rfl m.kind) ?_
  refine conducts_get_bind (fun _ _ _ => rfl) ?_
  refine conducts_lift_bind read ?_
  have values' : (do
      let t ← BatchedTensor.ofValues ⟨type.elementType, shape⟩ settings.batch
        (handles.map .cipher)
      t.read (some keys.secret) keys.evaluator.context : Except Run.Problem (List Float)) =
      .ok values := by
    rw [made]
    exact opened
  refine conducts_lift_bind (congrArg (Except.mapError Error.run) values') ?_
  have gives : Conducts (modify fun c => { c with result := some values } : Act Peer Unit)
      (waiting type inputs settings keys) [] ()
      { waiting type inputs settings keys with result := some values } :=
    conducts_modify fun _ _ _ => rfl
  exact conducts_silent_bind gives (conducts_modify fun _ _ _ => rfl)

include sound sized distinct holds few in
/-- The client reads just the tensor that the server delivers. -/
theorem exists_result [Primitives] {s : Server} (context : s.context = ctx) {t : BatchedTensor}
    (h : Deliverable settings ctx t) (coins : Coins) :
    ∃ r values, r.kind = .result ∧ t.read (some secret) ctx = .ok values ∧
      Conducts (s.sendResult t : Server.Act Peer Unit) closed [(.server, r)] () true ∧
      Conducts (Client.takeNext : Client.Act Peer Unit)
        (.waiting type inputs settings ⟨secret, ev, coins⟩) [(.server, r)] ()
        (.ended type inputs settings ⟨secret, ev, coins⟩ values) := by
  obtain rfl : ev.context = ctx := holds.context
  obtain ⟨handles, encrypted, wellFormed⟩ := h.fits.encrypted
  obtain ⟨values, opened⟩ := (BatchedTensor.exists_read_iff sound holds.keys.secret
    (h.batch ▸ few) encrypted wellFormed).mpr h.room
  let r : Message := ⟨.result, handles.length,
    shapeBytes t.type.shape ++ handles.flatMap (Wire.writtenBytes ev.context)⟩
  have elements : Server.encryptedElements t.values = .ok handles := by
    rw [encrypted]
    exact Server.encryptedElements_ok handles
  refine ⟨r, values, rfl, opened, Server.conducts_sendResult elements ?_,
    Client.conducts_takeNext rfl (Client.conducts_result rfl rfl ?_)⟩
  · rw [context]
    exact Message.result_ok t.type.shape wellFormed
  · refine Client.conducts_conclude
      (t := ⟨⟨type.elementType, t.type.shape⟩, settings.batch, handles.map .cipher⟩)
      (Message.readResult_ok sized distinct h.short wellFormed) ?_ ?_
    · refine BatchedTensor.ofValues_eq_ok_iff.mpr ⟨h.fits.sized, ?_, rfl⟩
      rw [← h.batch, ← encrypted]
      exact h.fits.packs
    · rw [← encrypted, ← h.batch]
      exact opened

variable (type inputs) in
include sound sized distinct holds few in
/-- What is left of a session after the greeting. -/
theorem exists_rest [Primitives] {s : Server} (context : s.context = ctx)
    (packing : s.packing = settings.packing) {plan : Plan}
    (proper : plan.Proper settings secret ev) (coins : Coins) :
    ∃ qs r t keys values, (∀ q ∈ qs, q.1.Answers q.2) ∧ r.kind = .result ∧
      t.read (some secret) ctx = .ok values ∧
      Conducts (s.follow plan : Server.Act Peer BatchedTensor) false (closing qs r) t
        true ∧
      Client.Serves (.waiting type inputs settings ⟨secret, ev, coins⟩)
        (closing qs r) (.ended type inputs settings keys values) := by
  obtain rfl : ev.context = ctx := holds.context
  induction proper generalizing coins with
  | @deliver t h =>
    obtain ⟨r, values, kind, opened, sends, takes⟩ :=
      exists_result sound sized distinct holds few context h coins
    refine ⟨[], r, t, ⟨secret, ev, coins⟩, values, (fun q h => nomatch h), kind, opened, ?_, ?_⟩
    · unfold Server.follow
      exact conducts_bind_silent sends conducts_pure
    · exact Client.serves_cons (d := [(.server, r)]) State.noConfusion takes
        (Client.serves_done rfl)
  | @evaluate f batch next ready _ ih =>
    have pieces : (Server.pieces (s.maxBatch - 1) batch).flatten = batch :=
      Server.flatten_pieces _ _
    rw [← pieces] at ready
    obtain ⟨qs, answers, coins₁, all, accepted, asks, serves⟩ :=
      exists_rounds sound sized distinct holds few context packing f ready coins
    rw [pieces] at accepted
    obtain ⟨qs', r, t, keys, values, all', kind, opened, follows, serves'⟩ :=
      ih answers accepted coins₁
    refine ⟨qs ++ qs', r, t, keys, values, List.forall_mem_append.mpr ⟨all, all'⟩, kind, opened,
      ?_, ?_⟩
    · unfold Server.follow
      rw [closing_append]
      exact conducts_bind (Server.conducts_orClose asks) follows
    · rw [closing_append]
      exact serves _ _ serves'

/-! ## Greetings -/

section Greetings

variable [Primitives] {params : Params} {keys : KeySet} {coins : Coins} {t : BatchedTensor}
  {handles : List Handle} {k x : Message}

theorem Server.conducts_exchange (settings' : Settings)
    (greeting : Greeting params type inputs settings ctx keys coins t handles k x) :
    Conducts (exchange params settings' : Act Peer Welcome) closed
      [(.server, .parameters params), (.client, k), (.client, x)]
      ⟨⟨ctx, settings.packing, settings'.maxBatch⟩,
        ⟨⟨ctx, keys.publicKey, keys.relinKey⟩, none, settings.packing⟩, t⟩ closed := by
  obtain ⟨k_eq, x_eq⟩ := greeting.contents
  unfold exchange
  refine conducts_lift_bind (congrArg (Except.mapError Error.scheme) greeting.context) ?_
  refine conducts_entry_bind (conducts_send _) ?_
  refine conducts_entry_bind (conducts_expect (congrArg Message.kind k_eq)) ?_
  refine conducts_lift_bind greeting.readKeys ?_
  refine conducts_entry_bind (conducts_expect (congrArg Message.kind x_eq)) ?_
  refine conducts_lift_bind greeting.readInput ?_
  refine conducts_lift_bind (congrArg (Except.mapError Error.run) greeting.made) ?_
  exact conducts_lift_bind
    (congrArg (Except.mapError Error.run) (greeting.backend settings'.seed)) conducts_pure

theorem Client.conducts_greet
    (greeting : Greeting params type inputs settings ctx keys coins t handles k x) :
    Conducts (greet (.parameters params) : Act Peer Unit) (fresh type inputs settings)
      [(.client, k), (.client, x)] () (waiting type inputs settings
        ⟨keys.secret, ⟨ctx, keys.publicKey, keys.relinKey⟩, coins⟩) := by
  obtain ⟨coins', generated⟩ := greeting.drawn
  obtain ⟨rfl, rfl⟩ := greeting.contents
  unfold greet
  refine conducts_get_bind (fun _ _ _ => rfl) ?_
  refine conducts_lift_bind greeting.parameters ?_
  refine conducts_lift_bind (congrArg (Except.mapError Error.scheme) greeting.context) ?_
  refine conducts_lift_bind (congrArg (Except.mapError Error.scheme) generated) ?_
  refine conducts_lift_bind (congrArg (Except.mapError Error.scheme) greeting.evaluator) ?_
  refine conducts_lift_bind greeting.written (conducts_entry_bind (conducts_send rfl) ?_)
  refine conducts_lift_bind (congrArg (Except.mapError Error.run) greeting.encrypted) ?_
  refine conducts_lift_bind greeting.sent (conducts_entry_bind (conducts_send rfl) ?_)
  exact conducts_modify fun _ _ _ => rfl

end Greetings

end Rounds

end CipherFlow.Session
