import CipherFlow.Proofs.Session.Duplex

/-!
# Sessions come to their end

Two honest parties are connected, and take their steps in any order. Neither
fails, the messages do not pile up, and when no step is left the client has
read the tensor that the server has delivered.

`Honest.completes` says so of every interleaving of their steps, over two channels
of messages.

How the proof goes. Server and client conduct one dialogue
(`Honest.exists_dialogue`, assembled in `CipherFlow.Proofs.Session.Duplex`). In this
dialogue each request comes before its answer and the result comes last
(`Dialogue.Complete.alternates`); this is all that
`CipherFlow.Proofs.Session.Conversation` asks of two parties in order that they come
to the end. The states of the client are read off the dialogue
(`Dialogue.Complete.leads`).
-/

namespace CipherFlow.Session

open Dialogue

/-! ## Complete dialogues -/

/-- A greeting, rounds and a result. -/
inductive Dialogue.Complete : Dialogue → Prop
  | mk {p k x r : Message} {qs : List (Message × Message)} : p.Greet k x →
      (∀ q ∈ qs, q.1.Answers q.2) → r.kind = .result →
      Complete ((.server, p) :: (.client, k) :: (.client, x) :: closing qs r)

/-- How a client passes from state to state. -/
inductive State.Leads : State → State → Prop
  | greeted : Leads .ready .awaitingRequest
  | asked : Leads .awaitingRequest .processing
  | answered : Leads .processing .awaitingRequest
  | concluded : Leads .awaitingRequest .done

variable {qs : List (Message × Message)} {r : Message} {d : Dialogue}

/-- Each request comes before its answer, and the result comes last. -/
theorem alternates_closing (qs : List (Message × Message)) (r : Message) (i : Nat) :
    (said .client ((closing qs r).take i)).length ≤ (said .server ((closing qs r).take i)).length ∧
      (said .server ((closing qs r).take i)).length ≤
        (said .client ((closing qs r).take i)).length + 1 := by
  induction qs generalizing i with
  | nil => cases i <;> simp [closing, rounds, said, sentBy?]
  | cons q qs ih =>
    rcases i with _ | _ | i
    · simp [said]
    · simp [closing_cons, said, sentBy?]
    · have later := ih i
      simp only [said] at later
      simp [closing_cons, said, sentBy?, later]

theorem Dialogue.Complete.alternates (h : Complete d) : Alternates d := by
  cases h with
  | @mk p k x r qs =>
    intro i
    match i with
    | 0 => simp [said]
    | 1 => simp [said, sentBy?]
    | 2 => simp [said, sentBy?]
    | i + 3 =>
      have later := alternates_closing qs r i
      simp only [said] at later
      simp [said, sentBy?]
      omega

open Client (stateAt)

theorem stateAt_closing_zero (all : ∀ q ∈ qs, q.1.Answers q.2) (result : r.kind = .result) :
    stateAt (closing qs r) 0 = .awaitingRequest := by
  cases qs with
  | nil => exact if_neg (result.trans_ne MessageKind.noConfusion)
  | cons q qs => exact if_neg (all q List.mem_cons_self).asks.ne_parameters

/-- From place to place, the state of a client changes in the order of the
protocol. -/
theorem leads_closing (all : ∀ q ∈ qs, q.1.Answers q.2) (result : r.kind = .result) {i : Nat}
    (lt : i < (closing qs r).length) :
    State.Leads (stateAt (closing qs r) i) (stateAt (closing qs r) (i + 1)) := by
  induction qs generalizing i with
  | nil =>
    obtain rfl : i = 0 := Nat.lt_one_iff.mp lt
    rw [stateAt_closing_zero all result]
    exact .concluded
  | cons q qs ih =>
    obtain ⟨first, others⟩ := List.forall_mem_cons.mp all
    have answers : stateAt (closing (q :: qs) r) 1 = .processing := if_pos first.kind
    match i with
    | 0 =>
      rw [stateAt_closing_zero all result, answers]
      exact .asked
    | 1 =>
      rw [answers]
      show State.Leads _ (stateAt (closing qs r) 0)
      rw [stateAt_closing_zero others result]
      exact .answered
    | i + 2 => exact ih others (Nat.lt_of_succ_lt_succ (Nat.lt_of_succ_lt_succ lt))

theorem Dialogue.Complete.leads (h : Complete d) {i : Nat} (lt : i < d.length) :
    stateAt d (i + 1) = stateAt d i ∨ State.Leads (stateAt d i) (stateAt d (i + 1)) := by
  cases h with
  | @mk p k x r qs greet all result =>
    have hears : State.before (.server, p) = .ready := if_pos greet.parameters
    have keys : State.before (.client, k) = .ready :=
      if_neg (greet.keys.trans_ne MessageKind.noConfusion)
    have input : State.before (.client, x) = .ready :=
      if_neg (greet.input.trans_ne MessageKind.noConfusion)
    match i with
    | 0 => exact .inl (keys.trans hears.symm)
    | 1 => exact .inl (input.trans keys.symm)
    | 2 =>
      right
      show State.Leads (State.before (.client, x)) (stateAt (closing qs r) 0)
      rw [input, stateAt_closing_zero all result]
      exact .greeted
    | i + 3 =>
      refine .inr (leads_closing all result ?_)
      simp only [List.length_cons] at lt
      omega

/-! ## Two parties -/

/-- A server with a plan and a client. -/
structure Duplex where
  params : Params
  serverSettings : Settings
  plan : Server.Welcome → Plan
  type : TensorType
  inputs : List Float
  settings : Settings

namespace Duplex

section Parties

variable [Primitives]

/-- The program of the server. -/
def server (x : Duplex) : Server.Act Peer BatchedTensor :=
  Server.session x.params x.serverSettings x.plan

def parties (x : Duplex) : Side → Party
  | .client => Client.party x.type x.inputs x.settings
  | .server => Server.party x.server

/-- The state in which the client stands. -/
def clientState (x : Duplex) (n : Net) : State :=
  Client.standing x.type x.inputs x.settings (n.received .client) (n.sent .client)

/-- What the server keeps of the handshake. -/
def welcome (x : Duplex) (ctx : Context) (keys : KeySet) (input : BatchedTensor) :
    Server.Welcome :=
  ⟨⟨ctx, x.settings.packing, x.serverSettings.maxBatch⟩,
    ⟨⟨ctx, keys.publicKey, keys.relinKey⟩, none, x.settings.packing⟩, input⟩

/-- There is a context whose levels can be told apart, and the client can draw
its keys and encrypt its input. -/
structure Opens (x : Duplex) (ctx : Context) (keys : KeySet) (input : BatchedTensor) : Prop where
  context : Context.ofParams x.params = .ok ctx
  distinct : ctx.DistinctIds
  short : Shape.Short x.type.shape
  draws : ∃ coins, KeySet.generate ctx (Coins.ofSeed x.settings.seed) = .ok (keys, coins)
  encrypts : ∃ coins, (BatchedTensor.encrypt ⟨ctx, keys.publicKey, keys.relinKey⟩ x.type
    x.settings.batch x.inputs x.settings.packing).run (Coins.ofSeed (x.settings.seed + 1)) =
      .ok (input, coins)

/-- And the plan of the server is one that the client can serve. -/
structure Honest (x : Duplex) (ctx : Context) (keys : KeySet) (input : BatchedTensor) : Prop
    extends Opens x ctx keys input where
  plan : (x.plan (x.welcome ctx keys input)).Proper x.settings keys.secret
    ⟨ctx, keys.publicKey, keys.relinKey⟩

variable {x : Duplex} {ctx : Context} {keys : KeySet} {input : BatchedTensor}

theorem Opens.holds (h : x.Opens ctx keys input) :
    HoldsKeys ctx keys.secret ⟨ctx, keys.publicKey, keys.relinKey⟩ :=
  let ⟨_, generated⟩ := h.draws
  holdsKeys_of_generate h.context generated

/-- How a session begins. -/
theorem Opens.exists_greeting (h : x.Opens ctx keys input) :
    ∃ p k m coins, p.Greet k m ∧
      Conducts (Server.handshake x.params x.serverSettings : Server.Act Peer Server.Welcome) false
        [(.server, p), (.client, k), (.client, m)] (x.welcome ctx keys input) false ∧
      Conducts (Client.takeNext : Client.Act Peer Unit) (.fresh x.type x.inputs x.settings)
        [(.server, p), (.client, k), (.client, m)] ()
        (.waiting x.type x.inputs x.settings
          ⟨keys.secret, ⟨ctx, keys.publicKey, keys.relinKey⟩, coins⟩) := by
  obtain ⟨coins', generated⟩ := h.draws
  obtain ⟨coins, encrypted⟩ := h.encrypts
  obtain ⟨handles, k, m, greeting⟩ :=
    Session.exists_greeting h.context h.distinct h.short generated encrypted
  obtain ⟨k_eq, m_eq⟩ := greeting.contents
  exact ⟨_, k, m, coins, ⟨rfl, congrArg Message.kind k_eq, congrArg Message.kind m_eq⟩,
    Server.conducts_orClose (Server.conducts_exchange x.serverSettings greeting),
    Client.conducts_takeNext rfl
      (Client.conducts_parameters rfl rfl (Client.conducts_greet greeting))⟩

/-- The parties conduct one dialogue, in which the client reads the tensor that
the server delivers. -/
theorem Honest.exists_dialogue (h : x.Honest ctx keys input) :
    ∃ d t clientKeys values, Complete d ∧ Conducts x.server false d t true ∧
      Client.Serves (.fresh x.type x.inputs x.settings) d
        (.ended x.type x.inputs x.settings clientKeys values) ∧
      t.read (some keys.secret) ctx = .ok values := by
  have sound := Context.sound_of_ofParams h.context
  have sized := Context.sized_of_ofParams h.context
  obtain ⟨_, encrypted⟩ := h.encrypts
  obtain ⟨-, -, room, -⟩ := BatchedTensor.of_encrypt sound sized h.holds encrypted
  obtain ⟨p, k, m, coins, greet, shakes, greets⟩ := h.exists_greeting
  obtain ⟨qs, r, t, clientKeys, values, all, result, opened, follows, serves⟩ :=
    exists_rest x.type x.inputs sound sized h.distinct h.holds (room.trans (sized.capacity_le _))
      (s := (x.welcome ctx keys input).server) rfl rfl h.plan coins
  exact ⟨_, t, clientKeys, values, .mk greet all result, conducts_bind shakes follows,
    Client.serves_cons State.noConfusion greets serves, opened⟩

/-! ## Whole sessions -/

/-- The end of a session: the server has delivered a tensor, the client has
read it, and both have closed their ends. -/
structure Delivers (x : Duplex) (ctx : Context) (secret : SecretKey) (n : Net) (t : BatchedTensor)
    (values : List Float) : Prop where
  server : ∃ p, x.server.run.run (.replay (n.received .server) (n.sent .server)) = (.ok t, p) ∧
    p.closed = true
  client : ∃ c, Client.run.run.run (Client.replay x.type x.inputs x.settings (n.received .client)
    (n.sent .client)) = (.ok values, c) ∧ c.state = .done ∧ c.transport.closed = true ∧
    c.result = some values
  values : t.read (some secret) ctx = .ok values
  channel : ∀ s, n.channel s = []

/-- Whatever the order of their steps, honest parties come to the end of their
session, and on the way neither fails, at most one message of the server is not
answered, and the client passes through its states in their order. -/
theorem Honest.completes (h : x.Honest ctx keys input) :
    Acc (fun n' n => Net.Step x.parties n n') .start ∧ x.clientState .start = .ready ∧
    ∀ n, Net.Reaches x.parties .start n →
      (∀ s e, n.intent x.parties s ≠ .stop (some e)) ∧ n.Orderly ∧
      (∀ n', Net.Step x.parties n n' → x.clientState n' = x.clientState n ∨
        State.Leads (x.clientState n) (x.clientState n')) ∧
      ((∀ n', ¬Net.Step x.parties n n') → x.clientState n = .done ∧
        ∃ t values, x.Delivers ctx keys.secret n t values) := by
  obtain ⟨d, t, clientKeys, values, complete, conducts, serves, opened⟩ := h.exists_dialogue
  have follows : ∀ s, Follows (x.parties s) s d := by
    rintro (_ | _)
    · exact serves.follows rfl
    · exact Server.follows conducts
  have state : ∀ {n place}, Net.At d n place → x.clientState n = stateAt d (place .client) := by
    intro n place at'
    rw [clientState, at'.received, at'.sent]
    exact serves.standing_eq rfl (at'.le .client)
  refine ⟨(Net.at_start d).acc follows, rfl, fun n reaches => ?_⟩
  obtain ⟨place, at'⟩ := reaches.at follows
  refine ⟨fun s e => ?_, at'.orderly complete.alternates, fun n' step => ?_, fun stuck => ?_⟩
  · rw [at'.intent_eq follows]
    exact intent_ne_failure
  · obtain ⟨s, lt, next⟩ := at'.step follows step
    rw [state at', state next]
    cases s with
    | client =>
      rw [Function.update_self]
      exact complete.leads lt
    | server => exact .inl (by rw [Function.update_of_ne Side.noConfusion])
  · have all := at'.eq_length follows stuck
    have received : ∀ s, n.received s = said s.other d := fun s => by
      rw [at'.received, all, List.take_length]
    have sent : ∀ s, n.sent s = (said s d).length := fun s => by
      rw [at'.sent, all, List.take_length]
    refine ⟨?_, t, values, ?_, ?_, opened, fun s => ?_⟩
    · rw [state at', all, stateAt, List.getElem?_eq_none (Nat.le_refl _)]
    · rw [received, sent]
      have run := conducts.whole [] [some .closed] []
      rw [List.append_nil] at run
      exact ⟨_, run, rfl⟩
    · rw [received, sent]
      exact ⟨_, serves.run_whole rfl, rfl, rfl, rfl⟩
    · have left := at'.channel s
      rw [all, List.take_length, received] at left
      exact List.self_eq_append_right.mp left

end Parties

/-! ## A small session -/

attribute [local instance] Primitives.coarse

/-! Two numbers in a column, as a client with the first seed encrypts them. What is
drawn is computed by the kernel alone, which takes the definitions apart; to all
proofs they are closed. -/

namespace Pair

def type : TensorType := ⟨.f32, [2, 1]⟩

def numbers : List Float := [0.5, -0.25]

/-- The keys that the client draws, and the coins that are left. -/
@[irreducible] def drawn : KeySet × Coins :=
  (KeySet.generate Context.tiny (Coins.ofSeed 0)).toOption.get (by decide +kernel)

def keys : KeySet := drawn.1

def evaluator : Evaluator := ⟨Context.tiny, keys.publicKey, keys.relinKey⟩

/-- The encrypted numbers, and the coins that are left. -/
@[irreducible] def sealed : BatchedTensor × Coins :=
  ((BatchedTensor.encrypt evaluator type 1 numbers .real).run (Coins.ofSeed 1)).toOption.get
    (by decide +kernel)

def input : BatchedTensor := sealed.1

def elements : List Handle := Backend.cipherElements input.values

theorem generate_eq : KeySet.generate Context.tiny (Coins.ofSeed 0) = .ok (keys, drawn.2) := by
  refine eq_ok_of_toOption (a := drawn) ?_
  unfold drawn
  exact (Option.some_get _).symm

theorem encrypt_eq : (BatchedTensor.encrypt evaluator type 1 numbers .real).run (Coins.ofSeed 1) =
    .ok (input, sealed.2) := by
  refine eq_ok_of_toOption (a := sealed) ?_
  unfold sealed
  exact (Option.some_get _).symm

theorem holds : HoldsKeys Context.tiny keys.secret evaluator :=
  holdsKeys_of_generate Context.ofParams_tiny generate_eq

theorem fits : input.type = type ∧ input.batch = 1 ∧ input.Fits Context.tiny .real := by
  obtain ⟨shape, batch, -, fits⟩ := BatchedTensor.of_encrypt Context.sound_tiny
    (Context.sized_of_ofParams Context.ofParams_tiny) holds encrypt_eq
  exact ⟨shape, batch, fits⟩

theorem elements_eq : input.values = elements.map .cipher ∧
    ∀ h ∈ elements, h.WellFormed Context.tiny .real := by
  obtain ⟨handles, same, wellFormed⟩ := fits.2.2.encrypted
  have eq : elements = handles := by
    rw [elements, same, BatchedTensor.cipherElements_cipher]
  rw [eq]
  exact ⟨same, wellFormed⟩

theorem length_elements : elements.length = 2 := by
  decide +kernel

theorem exists_element : ∃ h, h ∈ elements := by
  refine List.exists_mem_of_length_pos ?_
  simp [length_elements]

/-- Neither is held as a zero. -/
theorem encrypted : ∀ h ∈ elements, h.isZero = false := by
  decide +kernel

/-- With its key the client can rectify both. -/
theorem rectified : ∀ h ∈ elements,
    ∃ coins r, (Nonlinear.relu.applyWithKey h 1 keys.secret evaluator).run coins = .ok r := by
  have each : (elements.all fun h =>
      ((Nonlinear.relu.applyWithKey h 1 keys.secret evaluator).run default).toOption.isSome) =
        true := by decide +kernel
  intro h hh
  obtain ⟨r, hr⟩ := Option.isSome_iff_exists.mp (List.all_eq_true.mp each h hh)
  exact ⟨default, r, eq_ok_of_toOption hr⟩

end Pair

/-- A server with a plan, and a client with a pair of numbers. -/
def ofPlan (plan : Server.Welcome → Plan) : Duplex :=
  ⟨Context.tiny.params, {}, plan, Pair.type, Pair.numbers, {}⟩

theorem opens (plan : Server.Welcome → Plan) :
    (ofPlan plan).Opens Context.tiny Pair.keys Pair.input where
  context := Context.ofParams_tiny
  distinct := by decide +kernel
  short := ⟨(by decide : [2, 1].length ≤ maxRank), (by decide : ∀ d ∈ [2, 1], d < wordSize)⟩
  draws := ⟨_, Pair.generate_eq⟩
  encrypts := ⟨_, Pair.encrypt_eq⟩

/-- Has the input rectified, and delivers it. -/
def oneRound (w : Server.Welcome) : Plan :=
  .evaluate .relu (Backend.cipherElements w.input.values) fun answers =>
    .deliver { w.input with values := answers.map .cipher }

/-- Any answers can be delivered in the place of the elements that were asked for. -/
theorem deliverable_answers {answers : List Handle}
    (accepted : List.Forall₂ (Server.Accepted Context.tiny .real) Pair.elements answers) :
    Deliverable (ofPlan oneRound).settings Context.tiny
      { Pair.input with values := answers.map .cipher } := by
  obtain ⟨type, batch, fits⟩ := Pair.fits
  have wellFormed : ∀ r ∈ answers, r.WellFormed Context.tiny .real := by
    intro r hr
    obtain ⟨i, lt, rfl⟩ := List.getElem_of_mem hr
    exact (accepted.get (accepted.length_eq ▸ lt) lt).wellFormed
  have length : answers.length = Pair.input.values.length := by
    rw [Pair.elements_eq.1, List.length_map, accepted.length_eq]
  constructor
  · exact fits.withElements length wellFormed
  · exact batch
  · show Shape.Short Pair.input.type.shape
    rw [type]
    exact (opens oneRound).short
  · show 8 * Pair.input.type.shape.size < Nat.pow 2 63
    rw [type]
    decide

theorem honest_oneRound : (ofPlan oneRound).Honest Context.tiny Pair.keys Pair.input := by
  refine ⟨opens oneRound, .evaluate (fun h hh => ?_) fun answers accepted => ?_⟩
  · exact ⟨Pair.elements_eq.2 h hh, Pair.rectified h hh⟩
  · exact .deliver (deliverable_answers accepted)

/-- They come to an end, at which the client has read the answers. -/
theorem completes_oneRound : (ofPlan oneRound).Honest Context.tiny Pair.keys Pair.input ∧
    Pair.elements.length = 2 ∧ (∀ h ∈ Pair.elements, h.isZero = false) ∧
    ∃ n t values, Net.Reaches (ofPlan oneRound).parties .start n ∧
      (ofPlan oneRound).Delivers Context.tiny Pair.keys.secret n t values := by
  obtain ⟨ends, -, sound⟩ := honest_oneRound.completes
  obtain ⟨n, reaches, stuck⟩ := Net.exists_end ends
  obtain ⟨-, -, -, last⟩ := sound n reaches
  obtain ⟨-, t, values, delivers⟩ := last stuck
  exact ⟨honest_oneRound, Pair.length_elements, Pair.encrypted, n, t, values, reaches, delivers⟩

/-- A tensor of one element. -/
def single (h : Handle) : BatchedTensor :=
  ⟨⟨.f32, [1]⟩, 1, [.cipher h]⟩

theorem deliverable_single {ctx : Context} {h : Handle} (wellFormed : h.WellFormed ctx .real) :
    Deliverable (ofPlan oneRound).settings ctx (single h) where
  fits := {
    sized := (by decide : (Shape.size? [1]).isSome)
    packs := ⟨[1], .axis 1 [] Nat.one_pos, rfl⟩
    encrypted := ⟨[h], rfl, List.forall_mem_singleton.mpr wellFormed⟩ }
  batch := rfl
  short := ⟨(by decide : [1].length ≤ maxRank), (by decide : ∀ d ∈ [1], d < wordSize)⟩
  room := (by decide : 8 * Shape.size [1] < Nat.pow 2 63)

/-- An element that is known to be zero. -/
def zero : Handle :=
  ⟨.real, .zero (.ofFloat 16) 1⟩

theorem wellFormed_zero : zero.WellFormed Context.tiny .real where
  packing := rfl
  level_lt := Nat.one_lt_two
  scale := by decide +kernel
  size := nofun
  components := nofun

/-- An element at a level that the context does not have. -/
def stray : Handle :=
  ⟨.real, .zero (.ofFloat 16) 99⟩

/-- Delivers it, whatever the input is. -/
def astray (_ : Server.Welcome) : Plan :=
  .deliver (single stray)

/-- A server fails that delivers an element which is not well-formed, though it
is encrypted and all else is as it should be. -/
theorem deliver_stray_fails :
    (ofPlan astray).Opens Context.tiny Pair.keys Pair.input ∧
    BatchedTensor.ofValues ⟨.f32, [1]⟩ 1 [.cipher stray] = .ok (single stray) ∧
    (single stray).batch = (ofPlan astray).settings.batch ∧
    (single stray).type.shape.length ≤ maxRank ∧
    ∃ n e, Net.Reaches (ofPlan astray).parties .start n ∧
      n.intent (ofPlan astray).parties .server = .stop (some e) := by
  have opens' := opens astray
  obtain ⟨p, k, m, coins, greet, shakes, greets⟩ := opens'.exists_greeting
  -- The client goes on as it would with an element that is well-formed.
  obtain ⟨qs, r, t, clientKeys, values, -, -, -, -, serves⟩ :=
    exists_rest Pair.type Pair.numbers Context.sound_tiny
      (Context.sized_of_ofParams opens'.context) opens'.distinct opens'.holds (by decide)
      (s := ⟨Context.tiny, .real, 64⟩) rfl rfl (.deliver (deliverable_single wellFormed_zero)) coins
  have client := (Client.serves_cons State.noConfusion greets serves).follows rfl
  let d : Dialogue := [(.server, p), (.client, k), (.client, m)]
  have begins : ∀ s, ∀ i < d.length, (ofPlan astray).parties s
      (said s.other (d.take i)) (said s (d.take i)).length = Dialogue.intent s d i := by
    rintro (_ | _) i lt
    · exact client.begins lt
    · exact Server.party_bind shakes _ lt
  obtain ⟨n, reaches, at'⟩ := Net.exists_at begins (Nat.le_refl d.length)
  obtain ⟨e, refused⟩ : ∃ e, Message.result Context.tiny [1] [stray] = .error e := ⟨_, rfl⟩
  refine ⟨opens', rfl, rfl, by decide, n, e, reaches, ?_⟩
  rw [Net.intent, at'.received, at'.sent, List.take_length]
  have fails := Server.follow_error (s := ⟨Context.tiny, .real, 64⟩) (t := single stray) rfl refused
  exact Server.party_failure shakes fun p => ⟨Transport.close p, fails p, rfl⟩

end Duplex

end CipherFlow.Session
