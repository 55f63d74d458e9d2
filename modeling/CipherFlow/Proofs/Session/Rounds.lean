import CipherFlow.Proofs.Number.Nonnegative
import CipherFlow.Proofs.Session.Conversation
import CipherFlow.Proofs.Session.KeyHolder
import CipherFlow.Proofs.Session.Messages
import CipherFlow.Session.Server

/-!
# Greetings and rounds

What the two sides of a session tell each other, whatever carries their
messages. A client greets a server with its keys and its input, which arrive as
they were sent. Then the server asks it to apply functions to elements. These
arrive as they were sent, the function is applied to each of them, and the
answers arrive as they were sent and are accepted.

Main lemmas: `exists_greeting` and `Askable.exists_round`. Both speak of messages
only, so they serve the two parties of `CipherFlow.Proofs.Session.Duplex` as well as
the connected ones of `CipherFlow.Proofs.Session.Exchange`.
-/

namespace CipherFlow

/-! ## Answers -/

/-- An element and what the holder of a key makes of it: the function is applied
to it, and the answer stands where the element stood. An element that is known
to be zero stays as it is where the function keeps zero. -/
structure Nonlinear.Answers (f : Nonlinear) (ctx : Context) (packing : Packing) (lanes : Nat)
    (secret : SecretKey) (ev : Evaluator) (h r : Handle) : Prop where
  applied : ∃ coins coins', (f.applyWithKey h lanes secret ev).run coins = .ok (r, coins')
  wellFormed : r.WellFormed ctx packing
  level : r.level = h.level
  scale : r.scale = h.scale
  packing : r.packing = h.packing
  zero : h.isZero = true → (f.apply 0 == 0) = true → r = h

section Holder

variable {ctx : Context} {packing : Packing} {secret : SecretKey} {ev : Evaluator} {lanes : Nat}
  {f : Nonlinear} {h r : Handle}

theorem Nonlinear.eq_of_applyWithKey_zero {coins coins' : Coins} (zero : h.isZero = true)
    (keeps : (f.apply 0 == 0) = true)
    (applied : (f.applyWithKey h lanes secret ev).run coins = .ok (r, coins')) : r = h := by
  rw [applyWithKey, if_pos (by rw [zero, keeps]; rfl)] at applied
  exact (Prod.mk.inj (Except.ok.inj applied)).1.symm

/-- A function that can be applied from some coins gives an answer from all. -/
theorem Nonlinear.applyWithKey_always (sound : ctx.Sound) (sized : ctx.Sized)
    (holds : HoldsKeys ctx secret ev) (few : lanes ≤ 32768) (wellFormed : h.WellFormed ctx packing)
    (applies : ∃ coins r, (f.applyWithKey h lanes secret ev).run coins = .ok r) :
    Always (f.applyWithKey h lanes secret ev) (f.Answers ctx packing lanes secret ev h) := by
  obtain ⟨_, _, ok⟩ := applies
  intro coins
  obtain ⟨r, coins', applied, stands, level, scale⟩ :=
    always_of_decided (f.applyWithKey_decided sound sized holds wellFormed few) ok coins
  exact ⟨r, coins', applied, ⟨coins, coins', applied⟩, stands, level, scale,
    stands.packing.trans wellFormed.packing.symm,
    fun zero keeps => eq_of_applyWithKey_zero zero keeps applied⟩

end Holder

namespace Session

variable {ctx : Context} {settings : Settings} {secret : SecretKey} {ev : Evaluator}

/-! ## Greetings -/

/-- The two messages of a client that has keys and an encrypted input, for a
server with some parameters. Both are written and read, and what is read makes
up the input. -/
structure Greeting [Primitives] (params : Params) (type : TensorType) (inputs : List Float)
    (settings : Settings) (ctx : Context) (keys : KeySet) (coins : Coins) (t : BatchedTensor)
    (handles : List Handle) (k m : Message) : Prop where
  parameters : (Message.parameters params).readParameters = .ok params
  context : Context.ofParams params = .ok ctx
  evaluator : Evaluator.ofKeys ctx keys.publicKey keys.relinKey =
    .ok ⟨ctx, keys.publicKey, keys.relinKey⟩
  drawn : ∃ coins', KeySet.generate ctx (Coins.ofSeed settings.seed) = .ok (keys, coins')
  encrypted : (BatchedTensor.encrypt ⟨ctx, keys.publicKey, keys.relinKey⟩ type settings.batch
    inputs settings.packing).run (Coins.ofSeed (settings.seed + 1)) = .ok (t, coins)
  written : Message.evaluationKeys ctx keys.publicKey keys.relinKey = .ok k
  sent : Message.execute ctx ⟨settings.packing, type, settings.batch,
    Backend.cipherElements t.values⟩ = .ok m
  contents : k = ⟨.evaluationKeys, 0, keysBytes ctx keys.publicKey keys.relinKey⟩ ∧
    m = ⟨.execute, handles.length,
      inputBytes ctx ⟨settings.packing, type, settings.batch, handles⟩⟩
  readKeys : k.readEvaluationKeys ctx = .ok (keys.publicKey, keys.relinKey)
  readInput : m.readExecute ctx = .ok ⟨settings.packing, type, settings.batch, handles⟩
  made : BatchedTensor.ofValues type settings.batch (handles.map .cipher) = .ok t

/-- Who has drawn keys holds them. -/
theorem holdsKeys_of_generate [Primitives] {params : Params} {keys : KeySet} {coins coins' : Coins}
    (context : Context.ofParams params = .ok ctx)
    (generated : KeySet.generate ctx coins = .ok (keys, coins')) :
    HoldsKeys ctx keys.secret ⟨ctx, keys.publicKey, keys.relinKey⟩ := by
  obtain ⟨keys', _, generated', sound⟩ := KeySet.generate_ok context coins
  obtain ⟨rfl, -⟩ := Prod.mk.inj (Except.ok.inj (generated.symm.trans generated'))
  exact ⟨rfl, sound⟩

/-- A client that has drawn its keys and encrypted its input can greet. -/
theorem exists_greeting [Primitives] {params : Params} {type : TensorType} {inputs : List Float}
    {keys : KeySet} {coins coins' : Coins} {t : BatchedTensor}
    (context : Context.ofParams params = .ok ctx) (distinct : ctx.DistinctIds)
    (short : Shape.Short type.shape)
    (generated : KeySet.generate ctx (Coins.ofSeed settings.seed) = .ok (keys, coins'))
    (encrypted : (BatchedTensor.encrypt ⟨ctx, keys.publicKey, keys.relinKey⟩ type settings.batch
      inputs settings.packing).run (Coins.ofSeed (settings.seed + 1)) = .ok (t, coins)) :
    ∃ handles k m, Greeting params type inputs settings ctx keys coins t handles k m := by
  have sound := Context.sound_of_ofParams context
  have sized := Context.sized_of_ofParams context
  have holds := holdsKeys_of_generate context generated
  obtain ⟨accepted, -⟩ := Context.ofParams_eq_ok_iff.mp context
  obtain ⟨rfl, batch, room, fits⟩ := BatchedTensor.of_encrypt sound sized holds encrypted
  obtain ⟨handles, same, inputFits, made⟩ := fits.exists_input (batch ▸ room)
  rw [batch] at inputFits made
  have overPublic : keys.publicKey.IsOver ctx.topBasis := holds.keys.publicKey_isOver
  have overRelin : keys.relinKey.IsOver ctx.topBasis := holds.keys.relinKey
  have elements : Backend.cipherElements t.values = handles := by
    rw [same]
    exact BatchedTensor.cipherElements_cipher handles
  have readInput := Message.readExecute_ok sized distinct inputFits short
  have readKeys := Message.readEvaluationKeys_ok sound sized distinct overPublic overRelin
  exact ⟨handles, _, _, {
    parameters := Message.readParameters_parameters accepted
    context
    evaluator := Evaluator.ofKeys_ok overPublic overRelin
    drawn := ⟨coins', generated⟩
    encrypted
    written := Message.evaluationKeys_ok sound keys.publicKey keys.relinKey
    sent := by
      rw [elements]
      exact Message.execute_ok inputFits
    contents := ⟨rfl, rfl⟩
    readKeys
    readInput
    made }⟩

/-- The server's backend has the client's keys and its packing. -/
theorem Greeting.backend [Primitives] {params : Params} {type : TensorType} {inputs : List Float}
    {keys : KeySet} {coins : Coins} {t : BatchedTensor} {handles : List Handle} {k m : Message}
    (greeting : Greeting params type inputs settings ctx keys coins t handles k m) (seed : Nat) :
    Backend.ofKeys ctx keys.publicKey keys.relinKey ⟨settings.packing.isComplex, seed⟩ =
      .ok ⟨⟨ctx, keys.publicKey, keys.relinKey⟩, none, settings.packing⟩ := by
  have flag : Packing.ofFlag settings.packing.isComplex = settings.packing := by
    cases settings.packing <;> rfl
  rw [Backend.ofKeys, greeting.evaluator]
  show Except.ok (Backend.mk _ none (Packing.ofFlag settings.packing.isComplex)) = _
  rw [flag]

/-! ## Rounds -/

theorem Client.splitBound_ok (bound : Binary64) (bytes : Wire.Bytes) :
    splitBound (requestBytes (.bounded bound) ++ bytes) = .ok (bound, bytes) :=
  (field_accepts Wire.readFloat_accepts _ _ _).mpr ⟨trivial, rfl⟩

theorem Server.checkAnswers_ok {index : Nat} {batch answers : List Handle} {packing : Packing}
    {lanes : Nat} {f : Nonlinear}
    (each : List.Forall₂ (f.Answers ctx packing lanes secret ev) batch answers) :
    checkAnswers index batch answers = .ok () := by
  induction each generalizing index with
  | nil => rfl
  | cons first _ ih =>
    have matching : Scheme.scalesMatch _ _ = true := Scheme.scalesMatch_self first.wellFormed.scale
    rw [checkAnswers, if_pos ⟨first.level, first.scale ▸ matching⟩, ih]

/-- A request for a function of a batch and its answer, from the coins before
to the coins after. Both are written and read, and the answers are accepted. -/
structure Round (settings : Settings) (secret : SecretKey) (ev : Evaluator) (f : Nonlinear)
    (batch : List Handle) (coins : Coins) (q a : Message) (answers : List Handle)
    (coins' : Coins) : Prop where
  request : Message.request ev.context f batch = .ok q
  kind : q.kind = requestKind f
  count : q.count = batch.length
  elements : ∃ bytes, q.payload = requestBytes f ++ bytes ∧
    readElements ev.context settings.packing q.count bytes = .ok batch
  applied : (batch.mapM fun h => f.applyWithKey h settings.batch secret ev).run coins =
    .ok (answers, coins')
  response : Message.response ev.context answers = .ok a
  responds : q.Answers a
  read : readElements ev.context settings.packing a.count a.payload = .ok answers
  accepted : Server.checkAnswers 0 batch answers = .ok ()
  each : List.Forall₂ (f.Answers ev.context settings.packing settings.batch secret ev) batch answers

/-- A batch of elements that can be sent, and to each of which the function can
be applied. -/
def Askable (settings : Settings) (secret : SecretKey) (ev : Evaluator) (f : Nonlinear)
    (batch : List Handle) : Prop :=
  ∀ h ∈ batch, (h.WellFormed ev.context settings.packing ∧ ev.context.Named h.level) ∧
    ∃ coins r, (f.applyWithKey h settings.batch secret ev).run coins = .ok r

/-- Every request for such a batch is answered. -/
theorem Askable.exists_round {f : Nonlinear} {batch : List Handle} (sound : ev.context.Sound)
    (sized : ev.context.Sized) (holds : HoldsKeys ev.context secret ev)
    (few : settings.batch ≤ 32768) (askable : Askable settings secret ev f batch)
    (coins : Coins) :
    ∃ q a answers coins', Round settings secret ev f batch coins q a answers coins' := by
  have wellFormed : ∀ h ∈ batch, h.WellFormed ev.context settings.packing := fun h hh =>
    (askable h hh).1.1
  obtain ⟨answers, coins', applied, each⟩ := always_mapM (fun h hh =>
    Nonlinear.applyWithKey_always sound sized holds few (wellFormed h hh) (askable h hh).2) coins
  have answered : ∀ r ∈ answers,
      r.WellFormed ev.context settings.packing ∧ ev.context.Named r.level := by
    intro r hr
    obtain ⟨i, lt, rfl⟩ := List.getElem_of_mem hr
    have asked : i < batch.length := each.length_eq ▸ lt
    have answer := each.get asked lt
    exact ⟨answer.wellFormed, answer.level ▸ (askable _ (List.getElem_mem asked)).1.2⟩
  have response := Message.response_ok fun r hr => (answered r hr).1
  have asks : (requestKind f).IsRequest := by
    cases f
    · exact .inl rfl
    · exact .inr rfl
  exact ⟨_, _, answers, coins', {
    request := Message.request_ok f wellFormed
    kind := rfl
    count := rfl
    elements := ⟨_, rfl, readElements_ok sized fun h hh => (askable h hh).1⟩
    applied
    response
    responds := ⟨asks, rfl, each.length_eq.symm⟩
    read := readElements_ok sized answered
    accepted := Server.checkAnswers_ok each
    each }⟩

end Session

end CipherFlow
