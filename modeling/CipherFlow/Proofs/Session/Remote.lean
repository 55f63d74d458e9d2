import CipherFlow.Proofs.Run.Answers
import CipherFlow.Proofs.Session.Exchange
import Mathlib.Algebra.Order.Floor.Div

/-!
# Functions that are applied at a distance

A server has a client apply a function to a batch, in requests of a bounded
number of elements. The answers are those that the holder of the key gives where
it is: one for each element, in their order, and from the same coins. A round is
one request; the rounds of a batch are put together by induction over its
pieces.

`Server.evaluate_remote` has the number of requests, their order, and the values,
which are those of `Oracle.ofKey` at the key holder.

How the proof goes. The client takes a request and answers it
(`Client.runs_request`), the server asks and reads the answer (`Server.runs_ask`);
both use `Runs` of `CipherFlow.Proofs.Session.Exchange`. The induction over the
pieces is `Askable.runs_askEach`. It carries the coins of the client along, since an
answer is encrypted with the coins that the last one has left.
-/

namespace CipherFlow.Session

variable {settings : Settings} {secret : SecretKey} {ev : Evaluator} {type : TensorType}
  {inputs : List Float} {said heard : List Message} {f : Nonlinear}

/-! ## Pieces -/

namespace Server

variable {α : Type} {size : Nat}

theorem length_le_of_mem_pieces {xs piece : List α} (h : piece ∈ pieces size xs) :
    piece.length ≤ size + 1 := by
  induction xs using pieces.induct size with
  | case1 =>
    rw [pieces] at h
    exact absurd h List.not_mem_nil
  | case2 x rest ih =>
    rw [pieces, List.mem_cons] at h
    rcases h with rfl | h
    · exact Nat.succ_le_succ (List.length_take_le size rest)
    · exact ih h

/-- There are as few pieces as there can be. -/
theorem length_pieces (size : Nat) (xs : List α) :
    (pieces size xs).length = xs.length ⌈/⌉ (size + 1) := by
  induction xs using pieces.induct size with
  | case1 => rw [pieces, List.length_nil, List.length_nil, zero_ceilDiv]
  | case2 x rest ih =>
    rw [pieces, List.length_cons, ih, List.length_drop, List.length_cons,
      Nat.ceilDiv_eq_add_pred_div, Nat.ceilDiv_eq_add_pred_div]
    rcases Nat.le_total size rest.length with le | le
    · have longer : rest.length + 1 + (size + 1) - 1 =
          rest.length - size + (size + 1) - 1 + (size + 1) := by omega
      rw [longer, Nat.add_div_right _ size.succ_pos]
    · -- The first piece takes all that is left.
      have one : (rest.length + 1 + (size + 1) - 1) / (size + 1) = 1 :=
        Nat.div_eq_of_lt_le (by omega) (by omega)
      rw [one, Nat.sub_eq_zero_of_le le, Nat.div_eq_of_lt (by omega)]

end Server

/-! ## Rounds -/

section Round

variable {batch answers : List Handle} {q a : Message} {coins coins' : Coins}

theorem Client.runs_answer {kind : MessageKind} {bytes : Wire.Bytes}
    (round : Round settings secret ev f batch coins q a answers coins')
    (elements : readElements ev.context settings.packing q.count bytes = .ok batch) :
    Runs (answer kind f q.count bytes : Act Outbox Unit)
      (idle type inputs settings ⟨secret, ev, coins⟩ said) ()
      (idle type inputs settings ⟨secret, ev, coins'⟩ (said ++ [a])) := by
  unfold answer
  refine runs_bind runs_modify (runs_bind rfl (runs_get_bind ?_))
  refine runs_lift_bind elements ?_
  refine runs_lift_bind (congrArg (Except.mapError Error.element) round.applied) ?_
  refine runs_lift_bind round.response (runs_send_bind ?_)
  exact runs_modify

variable [Primitives]

section Takes

variable {c c' : Client Outbox} (waits : c.state = .awaitingRequest)

include waits in
theorem Client.runs_relu (kind : q.kind = .reluRequest)
    (h : Runs (answer q.kind .relu q.count q.payload : Act Outbox Unit) c () c') :
    Runs (handle q : Act Outbox Unit) c () c' := by
  obtain ⟨transport, state, settings, type, inputs, keys, result⟩ := c
  obtain ⟨kind', count, payload⟩ := q
  obtain rfl : state = .awaitingRequest := waits
  obtain rfl : kind' = .reluRequest := kind
  exact runs_get_bind h

include waits in
theorem Client.runs_bounded {bound : Binary64} {bytes : Wire.Bytes}
    (kind : q.kind = .boundedReluRequest) (split : splitBound q.payload = .ok (bound, bytes))
    (h : Runs (answer q.kind (.bounded bound) q.count bytes : Act Outbox Unit) c () c') :
    Runs (handle q : Act Outbox Unit) c () c' := by
  have split' : Runs (do
      let x ← splitBound q.payload
      answer q.kind (.bounded x.1) q.count x.2 : Act Outbox Unit) c () c' :=
    runs_lift_bind split h
  obtain ⟨transport, state, settings, type, inputs, keys, result⟩ := c
  obtain ⟨kind', count, payload⟩ := q
  obtain rfl : state = .awaitingRequest := waits
  obtain rfl : kind' = .boundedReluRequest := kind
  exact runs_get_bind split'

end Takes

/-- A client takes a request and answers it. -/
theorem Client.runs_request
    (round : Round settings secret ev f batch coins q a answers coins') :
    Runs (handle q : Act Outbox Unit) (idle type inputs settings ⟨secret, ev, coins⟩ said) ()
      (idle type inputs settings ⟨secret, ev, coins'⟩ (said ++ [a])) := by
  obtain ⟨bytes, payload, elements⟩ := round.elements
  cases f with
  | relu => exact runs_relu rfl round.kind (runs_answer round (payload ▸ elements))
  | bounded bound =>
    exact runs_bounded rfl round.kind (payload ▸ splitBound_ok bound bytes)
      (runs_answer round elements)

theorem Server.runs_orClose {α : Type} {x : Act Exchange α} {e e' : Exchange} {r : α}
    (h : Runs x e r e') : Runs (orClose x) e r e' := by
  rw [Runs, orClose_run, h]

theorem Server.runs_ask {s : Server} (context : s.context = ev.context)
    (packing : s.packing = settings.packing)
    (round : Round settings secret ev f batch coins q a answers coins') :
    Runs (s.ask f batch : Act Exchange (List Handle))
      (.idle type inputs settings ⟨secret, ev, coins⟩ said heard) answers
      (.idle type inputs settings ⟨secret, ev, coins'⟩ (said ++ [a]) (heard ++ [q])) := by
  have count : a.count = batch.length := round.responds.count.trans round.count
  have next : (said ++ [a])[said.length]? = some a := List.getElem?_concat_length
  have heardAll : Exchange.idle type inputs settings ⟨secret, ev, coins'⟩ (said ++ [a])
      (heard ++ [q]) = ⟨.idle type inputs settings ⟨secret, ev, coins'⟩ (said ++ [a]), none,
        said.length + 1, heard ++ [q], false⟩ := by
    rw [Exchange.idle, List.length_append]
    rfl
  unfold ask
  rw [context, packing]
  refine runs_lift_bind round.request ?_
  refine runs_bind (Exchange.runs_send rfl (Client.runs_request round) rfl) ?_
  refine runs_bind (Exchange.runs_expect next round.responds.kind) ?_
  rw [if_neg (not_not.mpr count)]
  refine runs_lift_bind round.read (runs_lift_bind round.accepted ?_)
  rw [heardAll]
  exact runs_pure

end Round

/-! ## Batches -/

theorem Server.oracle_run [Primitives] {s : Server} {batch answers : List Handle}
    {x x' : Exchange}
    (h : Runs (s.evaluate f batch : Act Exchange (List Handle)) x answers x') (lanes : Nat)
    (coins : Coins) :
    (s.oracle f lanes batch : Run.Eval Exchange Error _).run.run (coins, x) =
      (.ok answers, (coins, x')) := by
  simp only [Runs, oracle, ExceptT.run, StateT.run] at h ⊢
  rw [h]

variable (type inputs said heard) in
/-- The rounds in which pieces are asked for. -/
theorem Askable.runs_askEach [Primitives] {s : Server} (sound : ev.context.Sound)
    (sized : ev.context.Sized) (holds : HoldsKeys ev.context secret ev)
    (few : settings.batch ≤ 32768)
    (context : s.context = ev.context) (packing : s.packing = settings.packing)
    {pieces : List (List Handle)} (askable : Askable settings secret ev f pieces.flatten)
    (coins : Coins) :
    ∃ qs as answers coins',
      Runs (s.askEach f pieces : Server.Act Exchange (List Handle))
        (.idle type inputs settings ⟨secret, ev, coins⟩ said heard) answers
        (.idle type inputs settings ⟨secret, ev, coins'⟩ (said ++ as) (heard ++ qs)) ∧
      List.Forall₂ (fun piece q => Message.request ev.context f piece = .ok q ∧
        q.count = piece.length) pieces qs ∧
      (pieces.flatten.mapM fun h => f.applyWithKey h settings.batch secret ev).run coins =
        .ok (answers, coins') ∧
      List.Forall₂ (f.Answers ev.context settings.packing settings.batch secret ev) pieces.flatten
        answers := by
  induction pieces generalizing coins said heard with
  | nil =>
    refine ⟨[], [], [], coins, ?_, .nil, rfl, .nil⟩
    rw [List.append_nil, List.append_nil]
    exact runs_pure
  | cons piece rest ih =>
    obtain ⟨here, later⟩ := List.forall_mem_append.mp askable
    obtain ⟨q, a, answers, coins₁, round⟩ := Askable.exists_round sound sized holds few here coins
    obtain ⟨qs, as, answers₂, coins₂, runs, requests, applied, each⟩ :=
      ih (said ++ [a]) (heard ++ [q]) later coins₁
    refine ⟨q :: qs, a :: as, answers ++ answers₂, coins₂, ?_, .cons ⟨round.request, round.count⟩
      requests, run_mapM_append round.applied applied, List.rel_append round.each each⟩
    rw [List.append_cons said, List.append_cons heard]
    exact runs_bind (Server.runs_ask context packing round) (runs_bind runs runs_pure)

/-- A client whose keys belong together, and whose batch has room in a
ciphertext. -/
structure Client.Honest (ctx : Context) (settings : Settings) (keys : ClientKeys) : Prop where
  holds : HoldsKeys ctx keys.secret keys.evaluator
  room : settings.batch ≤ settings.packing.capacity ctx.slotCount

/-- The client of a greeting is one. -/
theorem Greeting.honest [Primitives] {params : Params} {ctx : Context} {keys : KeySet}
    {coins : Coins} {t : BatchedTensor} {handles : List Handle} {k m : Message}
    (greeting : Greeting params type inputs settings ctx keys coins t handles k m) :
    Client.Honest ctx settings ⟨keys.secret, ⟨ctx, keys.publicKey, keys.relinKey⟩, coins⟩ := by
  obtain ⟨coins', generated⟩ := greeting.drawn
  have holds := holdsKeys_of_generate greeting.context generated
  obtain ⟨-, -, room, -⟩ := BatchedTensor.of_encrypt (Context.sound_of_ofParams greeting.context)
    (Context.sized_of_ofParams greeting.context) holds greeting.encrypted
  exact ⟨holds, room⟩

/-- What a batch comes to that a server has a client evaluate, after the client
has said and the server has sent some messages. -/
structure Remote [Primitives] (s : Server) (type : TensorType) (inputs : List Float)
    (settings : Settings)
    (keys : ClientKeys) (said heard : List Message) (f : Nonlinear) (batch : List Handle)
    (qs as : List Message) (answers : List Handle) (coins : Coins) : Prop where
  /-- The server sends requests and gets the answers, and the client waits again. -/
  evaluate : (s.evaluate f batch : Server.Act Exchange _).run.run
    (.idle type inputs settings keys said heard) =
      (.ok answers, .idle type inputs settings { keys with coins } (said ++ as) (heard ++ qs))
  /-- So does a run with the server's oracle, whatever lanes it asks for. -/
  oracle : ∀ lanes coins', (s.oracle f lanes batch : Run.Eval Exchange Error _).run.run
    (coins', .idle type inputs settings keys said heard) = (.ok answers,
      (coins', .idle type inputs settings { keys with coins } (said ++ as) (heard ++ qs)))
  /-- Each request is for one piece of the batch, and there are no more than
  needed. -/
  requests : List.Forall₂ (fun piece q => Message.request s.context f piece = .ok q ∧
    q.count = piece.length ∧ q.count ≤ max s.maxBatch 1) (Server.pieces (s.maxBatch - 1) batch) qs
  count : qs.length = batch.length ⌈/⌉ max s.maxBatch 1
  /-- The client has applied the function to the elements in turn. -/
  applied : (batch.mapM fun h => f.applyWithKey h settings.batch keys.secret keys.evaluator).run
    keys.coins = .ok (answers, coins)
  /-- A run with the client's key gives the same answers where the key is. -/
  here : ∀ (σ ε : Type) (state : σ), (Run.Oracle.ofKey keys.secret keys.evaluator f settings.batch
    batch : Run.Eval σ ε _).run.run (keys.coins, state) = (.ok answers, (coins, state))
  each : List.Forall₂
    (f.Answers s.context settings.packing settings.batch keys.secret keys.evaluator) batch answers

/-- What a server has an honest client evaluate is what the holder of the key
evaluates by itself. -/
theorem Server.evaluate_remote [Primitives] {params : Params} {ctx : Context}
    (context : Context.ofParams params = .ok ctx) {keys : ClientKeys}
    (honest : Client.Honest ctx settings keys) (type : TensorType) (inputs : List Float)
    (said heard : List Message) (f : Nonlinear) (maxBatch : Nat) {batch : List Handle}
    (askable : Askable settings keys.secret keys.evaluator f batch) :
    ∃ qs as answers coins, Remote ⟨ctx, settings.packing, maxBatch⟩ type inputs settings keys said
      heard f batch qs as answers coins := by
  obtain ⟨secret, ev, coins⟩ := keys
  obtain rfl : ev.context = ctx := honest.holds.context
  have sound := Context.sound_of_ofParams context
  have sized := Context.sized_of_ofParams context
  have few : settings.batch ≤ 32768 := honest.room.trans (sized.capacity_le settings.packing)
  have whole : (pieces (maxBatch - 1) batch).flatten = batch := flatten_pieces _ _
  have size : maxBatch - 1 + 1 = max maxBatch 1 := by omega
  rw [← whole] at askable
  obtain ⟨qs, as, answers, coins', runs, requests, applied, each⟩ :=
    askable.runs_askEach type inputs said heard (s := ⟨ev.context, settings.packing, maxBatch⟩)
      sound sized honest.holds few rfl rfl coins
  rw [whole] at applied each
  have evaluates : Runs (evaluate ⟨ev.context, settings.packing, maxBatch⟩ f batch :
      Act Exchange (List Handle)) _ answers _ := runs_orClose runs
  refine ⟨qs, as, answers, coins', {
    evaluate := evaluates
    oracle := fun lanes coins => oracle_run evaluates lanes coins
    requests := ?_
    count := by rw [← requests.length_eq, length_pieces, size]
    applied
    here := fun σ ε state => Run.Oracle.ofKey_run applied state
    each }⟩
  have bounded : ∀ piece ∈ pieces (maxBatch - 1) batch, piece.length ≤ max maxBatch 1 :=
    fun piece mem => size ▸ length_le_of_mem_pieces mem
  refine ((List.forall₂_and_left _ _).mpr ⟨bounded, requests⟩).imp fun piece q h => ?_
  exact ⟨h.2.1, h.2.2, h.2.2.trans_le h.1⟩

attribute [local instance] Primitives.coarse

/-- A client that has greeted with a pair of numbers. -/
def pairClient : ClientKeys :=
  ⟨Duplex.Pair.keys.secret, Duplex.Pair.evaluator, Duplex.Pair.sealed.2⟩

/-- Its numbers, twice, in two requests. -/
theorem Server.evaluate_remote_pair :
    Context.ofParams Context.tiny.params = .ok Context.tiny ∧
    Client.Honest Context.tiny {} pairClient ∧
    Askable {} pairClient.secret pairClient.evaluator .relu
      (Duplex.Pair.elements ++ Duplex.Pair.elements) ∧
    (∀ h ∈ Duplex.Pair.elements, h.isZero = false) ∧
    ∃ qs as answers coins, Remote ⟨Context.tiny, .real, 3⟩ Duplex.Pair.type Duplex.Pair.numbers {}
      pairClient [] [] .relu (Duplex.Pair.elements ++ Duplex.Pair.elements) qs as answers coins ∧
      qs.length = 2 ∧ answers.length = 4 := by
  have opens := Duplex.opens Duplex.oneRound
  have honest : Client.Honest Context.tiny {} pairClient := ⟨Duplex.Pair.holds, by decide⟩
  have askable : Askable {} pairClient.secret pairClient.evaluator .relu
      (Duplex.Pair.elements ++ Duplex.Pair.elements) := by
    intro h hh
    have own : h ∈ Duplex.Pair.elements := by simpa using hh
    have wellFormed := Duplex.Pair.elements_eq.2 h own
    exact ⟨⟨wellFormed, opens.distinct.named wellFormed.level_lt⟩, Duplex.Pair.rectified h own⟩
  obtain ⟨qs, as, answers, coins, remote⟩ := evaluate_remote opens.context honest Duplex.Pair.type
    Duplex.Pair.numbers [] [] .relu 3 askable
  have length : (Duplex.Pair.elements ++ Duplex.Pair.elements).length = 4 := by
    rw [List.length_append, Duplex.Pair.length_elements]
  have requests : 4 ⌈/⌉ max 3 1 = 2 := by
    rw [Nat.ceilDiv_eq_add_pred_div]
    rfl
  exact ⟨opens.context, honest, askable, Duplex.Pair.encrypted, qs, as, answers, coins, remote,
    remote.count.trans (length ▸ requests), remote.each.length_eq.symm.trans length⟩

end CipherFlow.Session
