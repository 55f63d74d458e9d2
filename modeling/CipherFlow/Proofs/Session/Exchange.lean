import CipherFlow.Proofs.Session.Completion
import CipherFlow.Session.Exchange

/-!
# A server and a client that are connected

The client takes each message as the server sends it, and the server finds the
client's messages when it looks for them. After a handshake, the server has just
the keys and the input of the client: what the client writes is what the server
reads, and both have built one context from the parameters.

`Server.exchange_agrees` states it, with every field of what the server keeps, and
no byte is left over on either side.

How the proof goes. `Runs` says that a step ends with a value in a state, and it is
composed along the program (`runs_bind`). Whatever the server sends makes the client
take its message at once (`runs_send`), so its answers are queued by the time that
the server looks for them (`runs_expect`). That what is read is what was written
comes from `CipherFlow.Proofs.Session.Contents`.
-/

namespace CipherFlow.Session

/-! ## Runs -/

section Runs

variable {σ α β : Type} {s s' s'' : σ} {a : α} {b : β} {x : ExceptT Error (StateM σ) α}
  {f : α → ExceptT Error (StateM σ) β}

/-- From one state, a step ends with a value in another. -/
def Runs (x : ExceptT Error (StateM σ) α) (s : σ) (a : α) (s' : σ) : Prop :=
  x.run.run s = (.ok a, s')

theorem runs_pure : Runs (pure a) s a s :=
  rfl

theorem runs_bind (h : Runs x s a s') (h' : Runs (f a) s' b s'') : Runs (x >>= f) s b s'' := by
  rw [Runs, run_bind_ok h]
  exact h'

/-- A step that computes, before a step. -/
theorem runs_lift_bind {y : Except Error α} (eq : y = .ok a) (h : Runs (f a) s b s') :
    Runs (liftM y >>= f) s b s' := by
  subst eq
  exact h

/-- A step that looks at its state. -/
theorem runs_get_bind {f : σ → ExceptT Error (StateM σ) β} (h : Runs (f s) s b s') :
    Runs (get >>= f) s b s' :=
  h

/-- A step that changes its state. -/
theorem runs_modify {g : σ → σ} : Runs (modify g) s ⟨⟩ (g s) :=
  rfl

end Runs

variable {ctx : Context} {params : Params} {settings : Settings} {type : TensorType}
  {inputs : List Float} {keys : KeySet} {coins : Coins} {t : BatchedTensor} {handles : List Handle}
  {k m : Message}

/-! ## The client's end -/

namespace Client

/-- A client that has said so much and waits for a request. -/
def idle (type : TensorType) (inputs : List Float) (settings : Settings) (keys : ClientKeys)
    (said : List Message) : Client Outbox :=
  ⟨⟨said, false⟩, .awaitingRequest, settings, type, inputs, some keys, none⟩

theorem runs_send_bind {α : Type} {c c' : Client Outbox} {a : α}
    {f : Unit → Act Outbox α}
    (h : Runs (f ()) { c with transport.sent := c.transport.sent ++ [m] } a c') :
    Runs (send m >>= f) c a c' :=
  h

theorem runs_parameters [Primitives] {c c' : Client Outbox} (ready : c.state = .ready)
    (kind : m.kind = .parameters) (h : Runs (greet m : Act Outbox Unit) c () c') :
    Runs (handle m : Act Outbox Unit) c () c' := by
  obtain ⟨transport, state, settings, type, inputs, keys, result⟩ := c
  obtain ⟨kind', count, payload⟩ := m
  obtain rfl : state = .ready := ready
  obtain rfl : kind' = .parameters := kind
  exact runs_get_bind h

/-- A client takes the parameters, and sends its keys and its input. -/
theorem runs_greet [Primitives]
    (greeting : Greeting params type inputs settings ctx keys coins t handles k m) :
    Runs (handle (.parameters params) : Act Outbox Unit)
      (.ofTransport ⟨[], false⟩ type inputs settings) ()
      (idle type inputs settings ⟨keys.secret, ⟨ctx, keys.publicKey, keys.relinKey⟩, coins⟩
        [k, m]) := by
  obtain ⟨coins', generated⟩ := greeting.drawn
  refine runs_parameters rfl rfl ?_
  unfold greet
  refine runs_get_bind (runs_lift_bind greeting.parameters ?_)
  refine runs_lift_bind (congrArg (Except.mapError Error.scheme) greeting.context) ?_
  refine runs_lift_bind (congrArg (Except.mapError Error.scheme) generated) ?_
  refine runs_lift_bind (congrArg (Except.mapError Error.scheme) greeting.evaluator) ?_
  refine runs_lift_bind greeting.written (runs_send_bind ?_)
  refine runs_lift_bind (congrArg (Except.mapError Error.run) greeting.encrypted) ?_
  refine runs_lift_bind greeting.sent (runs_send_bind ?_)
  exact runs_modify

end Client

/-! ## The server's end -/

namespace Exchange

/-- Both ends, after the server has heard all that the client has said. -/
def idle (type : TensorType) (inputs : List Float) (settings : Settings) (keys : ClientKeys)
    (said heard : List Message) : Exchange :=
  ⟨.idle type inputs settings keys said, none, said.length, heard, false⟩

variable [Primitives] {x : Exchange}

/-- A message that the client takes, and does not end its session with. -/
theorem runs_send {c : Client Outbox} (running : x.outcome = none)
    (takes : Runs (Client.handle m) x.client () c) (unfinished : c.result = none) :
    Runs (Transport.send m : Server.Act Exchange Unit) x ()
      { x with client := c, sent := x.sent ++ [m] } := by
  obtain ⟨client, outcome, received, sent, closed⟩ := x
  obtain rfl : outcome = none := running
  have advances : advance ⟨client, none, received, sent, closed⟩ (Client.handle m) =
      ⟨c, none, received, sent, closed⟩ := by
    rw [advance, show (Client.handle m).run.run client = (.ok (), c) from takes]
    show Exchange.mk c (c.result.map .ok) received sent closed = _
    rw [unfinished]
    rfl
  show (Except.ok (), ({ advance _ (Client.handle m) with sent := sent ++ [m] } : Exchange)) = _
  rw [advances]

/-- A message that the client has sent. -/
theorem runs_expect {kind : MessageKind} (next : x.client.transport.sent[x.received]? = some m)
    (h : m.kind = kind) :
    Runs (Server.expect kind : Server.Act Exchange Message) x m
      { x with received := x.received + 1 } := by
  have receives : Runs (receive : Server.Act Exchange Message) x m
      { x with received := x.received + 1 } := by
    unfold receive
    refine runs_get_bind ?_
    rw [next]
    rfl
  refine runs_bind receives ?_
  rw [if_neg (not_not.mpr h)]
  exact runs_pure

end Exchange

/-! ## Handshakes -/

theorem Server.runs_exchange [Primitives] (settings' : Settings)
    (greeting : Greeting params type inputs settings ctx keys coins t handles k m) :
    Runs (exchange params settings' : Act Exchange Welcome) (.ofClient type inputs settings)
      ⟨⟨ctx, settings.packing, settings'.maxBatch⟩,
        ⟨⟨ctx, keys.publicKey, keys.relinKey⟩, none, settings.packing⟩, t⟩
      (.idle type inputs settings ⟨keys.secret, ⟨ctx, keys.publicKey, keys.relinKey⟩, coins⟩ [k, m]
        [.parameters params]) := by
  obtain ⟨k_eq, m_eq⟩ := greeting.contents
  unfold exchange
  refine runs_lift_bind (congrArg (Except.mapError Error.scheme) greeting.context) ?_
  refine runs_bind (Exchange.runs_send rfl (Client.runs_greet greeting) rfl) ?_
  refine runs_bind (Exchange.runs_expect rfl (congrArg Message.kind k_eq)) ?_
  refine runs_lift_bind greeting.readKeys ?_
  refine runs_bind (Exchange.runs_expect rfl (congrArg Message.kind m_eq)) ?_
  refine runs_lift_bind greeting.readInput ?_
  refine runs_lift_bind (congrArg (Except.mapError Error.run) greeting.made) ?_
  exact runs_lift_bind (congrArg (Except.mapError Error.run) (greeting.backend settings'.seed))
    runs_pure

/-- The two sides after a handshake, in which the client has drawn keys and
encrypted its input as elements. -/
structure Agreement [Primitives] (params : Params) (serverSettings : Settings)
    (type : TensorType) (inputs : List Float) (settings : Settings) (ctx : Context)
    (keys : KeySet) (coins : Coins)
    (t : BatchedTensor) (handles : List Handle) (k m : Message) : Prop where
  /-- The server has the client's context, packing, public keys and input. The
  client waits for a request, and all that it has said has been heard. -/
  exchange : (Server.exchange params serverSettings : Server.Act Exchange _).run.run
    (.ofClient type inputs settings) =
      (.ok ⟨⟨ctx, settings.packing, serverSettings.maxBatch⟩,
        ⟨⟨ctx, keys.publicKey, keys.relinKey⟩, none, settings.packing⟩, t⟩,
      .idle type inputs settings ⟨keys.secret, ⟨ctx, keys.publicKey, keys.relinKey⟩, coins⟩ [k, m]
        [.parameters params])
  input : t = ⟨type, settings.batch, handles.map .cipher⟩
  /-- No byte is left of the parameters, of the keys and of the input, whose
  elements come last. -/
  parameters : Wire.readParams.run (Message.parameters params).payload = .ok (params, [])
  publicKeys : ∃ rest, (Wire.readPublicKey ctx).run k.payload = .ok (keys.publicKey, rest) ∧
    (Wire.readRelinKey ctx).run rest = .ok (keys.relinKey, [])
  execute : m.readExecute ctx = .ok ⟨settings.packing, type, settings.batch, handles⟩
  payload : m.payload = inputBytes ctx ⟨settings.packing, type, settings.batch, handles⟩
  elements : (Wire.readHandles ctx settings.packing m.count).run
    (handles.flatMap (Wire.writtenBytes ctx)) = .ok (handles, [])

/-- In a context that tells its levels apart, a handshake with a client that can
encrypt its input gives the server just what the client has. -/
theorem Server.exchange_agrees [Primitives] (context : Context.ofParams params = .ok ctx)
    (distinct : ctx.DistinctIds) (serverSettings : Settings) (type : TensorType)
    (inputs : List Float) (settings : Settings) (short : Shape.Short type.shape) :
    ∃ keys coins, KeySet.generate ctx (Coins.ofSeed settings.seed) = .ok (keys, coins) ∧
      ∀ t coins', (BatchedTensor.encrypt ⟨ctx, keys.publicKey, keys.relinKey⟩ type settings.batch
          inputs settings.packing).run (Coins.ofSeed (settings.seed + 1)) = .ok (t, coins') →
        ∃ handles k m,
          Agreement params serverSettings type inputs settings ctx keys coins' t handles k m := by
  obtain ⟨keys, coins, generated, -⟩ := KeySet.generate_ok context (Coins.ofSeed settings.seed)
  refine ⟨keys, coins, generated, fun t coins' encrypted => ?_⟩
  obtain ⟨handles, k, m, greeting⟩ :=
    exists_greeting context distinct short generated encrypted
  obtain ⟨-, m_eq⟩ := greeting.contents
  have sized := Context.sized_of_ofParams context
  have fits := ok_of_returns (readExecute_returns sized m) greeting.readInput
  obtain ⟨publicKey, rest, first, second⟩ :=
    run_bind_eq_ok.mp (readAll_eq_ok_iff.mp greeting.readKeys)
  obtain ⟨relinKey, rest', second, last⟩ := run_bind_eq_ok.mp second
  obtain ⟨same, rfl⟩ := Wire.run_pure_eq_ok.mp last
  obtain ⟨rfl, rfl⟩ := Prod.mk.inj same
  refine ⟨handles, k, m, {
    exchange := Server.runs_exchange serverSettings greeting
    input := (BatchedTensor.ofValues_eq_ok_iff.mp greeting.made).2.2
    parameters := lift_run.mp (readAll_eq_ok_iff.mp greeting.parameters)
    publicKeys := ⟨rest, lift_run.mp first, lift_run.mp second⟩
    execute := greeting.readInput
    payload := congrArg Message.payload m_eq
    elements := ?_ }⟩
  rw [m_eq]
  refine lift_run.mp ((readHandles_accepts sized settings.packing _ _ _ _).mpr ?_)
  exact ⟨⟨rfl, named_of_distinct distinct fits.handles⟩, (List.append_nil _).symm⟩

attribute [local instance] Primitives.coarse

/-- A client with a pair of numbers. -/
theorem Server.exchange_agrees_pair :
    Context.ofParams Context.tiny.params = .ok Context.tiny ∧ Context.tiny.DistinctIds ∧
      Shape.Short Duplex.Pair.type.shape ∧ Duplex.Pair.elements.length = 2 ∧
      (∀ h ∈ Duplex.Pair.elements, h.isZero = false) ∧
      ∃ coins k m, Agreement Context.tiny.params {} Duplex.Pair.type Duplex.Pair.numbers {}
        Context.tiny Duplex.Pair.keys coins Duplex.Pair.input Duplex.Pair.elements k m := by
  have opens := Duplex.opens Duplex.oneRound
  obtain ⟨keys, coins, generated, agrees⟩ := exchange_agrees opens.context opens.distinct {}
    Duplex.Pair.type Duplex.Pair.numbers {} opens.short
  obtain ⟨rfl, -⟩ := Prod.mk.inj (Except.ok.inj (Duplex.Pair.generate_eq.symm.trans generated))
  obtain ⟨handles, k, m, agreement⟩ := agrees _ _ Duplex.Pair.encrypt_eq
  have same : Duplex.Pair.elements = handles := by
    rw [Duplex.Pair.elements, agreement.input, BatchedTensor.cipherElements_cipher]
  rw [← same] at agreement
  exact ⟨opens.context, opens.distinct, opens.short, Duplex.Pair.length_elements,
    Duplex.Pair.encrypted, _, k, m, agreement⟩

end CipherFlow.Session
