import CipherFlow.Proofs.Session.Contents
import CipherFlow.Session.Frame
import CipherFlow.Session.Server

/-!
# Servers and clients they cannot trust

A client may send any messages with any contents, and its connection may fail
at any point. A handshake or an evaluation still ends well: with a value that
keeps what the rest of the server relies on, or with an error and a closed
connection. What is accepted follows from what is read; that a step which
fails closes the connection is built into the two entry points.

`handshake_evaluate_endsWell` is stated for every lawful transport; a link over a
stream of bytes is one.

How the proof goes. `orClose` turns a step that returns into one that ends well
(`orClose_endsWell`), so what is left is that each part returns and what its value
satisfies. The parts of a handshake are taken in turn (`exchange_returns`), what is
read being well-formed by the readers. A question is answered by as many accepted
elements as it has (`ask_returns`), and a batch piece by piece (`askEach_returns`).
-/

namespace CipherFlow.Session

open Returning

/-! ## Transports -/

/-- What a server relies on: a transport can be closed, and where it cannot
send or receive it says so. -/
class Transport.Lawful (τ : Type) [Transport τ] : Prop where
  isClosed_close : ∀ t : τ, Transport.isClosed (Transport.close t) = true
  send_returns : ∀ m, Returns (Transport.send m : Server.Act τ Unit) fun _ => True
  receive_returns : Returns (Transport.receive : Server.Act τ Message) fun _ => True

namespace Link

theorem take_returns (count : Nat) : Returns (take count) fun _ => True := by
  intro l
  by_cases enough : count ≤ l.incoming.length
  · have eq : (take count).run.run l =
        (.ok (l.incoming.take count), { l with incoming := l.incoming.drop count }) := if_pos enough
    rw [eq]
    trivial
  · have eq : (take count).run.run l =
        (.error (if l.ended then .closed else .timeout l.timeout), { l with incoming := [] }) :=
      if_neg enough
    rw [eq]
    cases l.ended <;> rfl

theorem takeNat_returns (width : Nat) : Returns (takeNat width) fun _ => True :=
  returns_bind (take_returns width) fun _ _ => returns_pure trivial

theorem checkOpen_returns : Returns checkOpen fun _ => True := by
  intro l
  obtain ⟨incoming, ended, outgoing, timeout, closed⟩ := l
  cases closed
  · trivial
  · rfl

end Link

instance : Transport.Lawful Link where
  isClosed_close _ := rfl
  send_returns m := by
    refine returns_bind Link.checkOpen_returns fun _ _ => returns_ite (fun _ _ => rfl) fun _ _ => ?_
    trivial
  receive_returns := by
    refine returns_bind Link.checkOpen_returns fun _ _ => ?_
    refine returns_bind (Link.takeNat_returns 8) fun length _ => ?_
    refine returns_ite (fun _ _ => rfl) fun _ => returns_ite (fun _ _ => rfl) fun _ => ?_
    refine returns_bind (Link.takeNat_returns 1) fun code _ => ?_
    refine returns_bind (P := fun _ => True) ?_ fun kind _ => ?_
    · intro l
      unfold MessageKind.ofCode
      cases MessageKind.ofCode? code with
      | none => rfl
      | some kind => trivial
    · exact returns_bind (Link.takeNat_returns 8) fun count _ =>
        returns_bind (Link.take_returns _) fun payload _ => returns_pure trivial

namespace Server

variable {τ α : Type} [Transport τ] {ctx : Context}

/-! ## Steps that close the connection -/

/-- A step ends with a value that has a property, or with an error of its own
and a closed connection. -/
def EndsWell (x : Act τ α) (P : α → Prop) : Prop :=
  ∀ t, match x.run.run t with
    | (.ok a, _) => P a
    | (.error e, t') => Faulty.isFault e = false ∧ Transport.isClosed t' = true

theorem orClose_run (x : Act τ α) (t : τ) :
    (orClose x).run.run t = match x.run.run t with
      | (.ok a, t') => (.ok a, t')
      | (.error e, t') => (.error e, Transport.close t') := by
  rw [orClose, ExceptT.run_tryCatch, StateT.run_bind]
  match x.run.run t with
  | (.ok a, t') => rfl
  | (.error e, t') => rfl

theorem orClose_endsWell [Transport.Lawful τ] {x : Act τ α} {P : α → Prop} (h : Returns x P) :
    EndsWell (orClose x) P := by
  intro t
  have first := h t
  rw [orClose_run]
  match eq : x.run.run t with
  | (.ok a, t') =>
    rw [eq] at first
    exact first
  | (.error e, t') =>
    rw [eq] at first
    exact ⟨first, Transport.Lawful.isClosed_close t'⟩

/-! ## Handshakes -/

theorem expect_returns [Transport.Lawful τ] (kind : MessageKind) :
    Returns (expect kind : Act τ Message) fun _ => True :=
  returns_bind Transport.Lawful.receive_returns fun _ _ =>
    returns_ite (fun _ _ => rfl) fun _ => returns_pure trivial

omit [Transport τ] in
/-- A step that computes, among the steps of a server. -/
theorem act_returns {x : Except Error α} {P : α → Prop} (h : Returns x P) :
    Returns (liftM x : Act τ α) P := by
  intro t
  cases x with
  | error e => exact h
  | ok a => exact h

/-- What a server relies on after a handshake for given parameters. -/
structure Welcome.Sound [Primitives] (params : Params) (w : Welcome) : Prop where
  context : Context.ofParams params = .ok w.server.context
  /-- The client's public keys are over the top basis of the context. -/
  evaluator : w.backend.evaluator.context = w.server.context
  publicKey : w.backend.evaluator.publicKey.IsOver w.server.context.topBasis
  relinKey : w.backend.evaluator.relinKey.IsOver w.server.context.topBasis
  /-- The lanes of a batch have room in a ciphertext. -/
  batch_pos : 1 ≤ w.input.batch
  batch_le : w.input.batch ≤ w.server.packing.capacity w.server.context.slotCount
  /-- The lanes of the elements are as many as the places of the shape, and can
  be counted. -/
  size : w.input.type.shape.size? = some (w.input.values.length * w.input.batch)
  prod : w.input.type.shape.prod = w.input.values.length * w.input.batch
  elements : ∀ x ∈ w.input.values, ∃ h, x = .cipher h ∧
    h.WellFormed w.server.context w.server.packing

/-- A shape that can be counted has as many places as its extents multiply to. -/
theorem prod_of_size? {shape : Shape} {n : Nat} (h : shape.size? = some n) : shape.prod = n := by
  have sized : shape.size?.isSome := by rw [h]; rfl
  rw [← Shape.size_eq_prod sized, Shape.size, h, Option.getD_some]

theorem ofKeys_returns (ctx : Context) (publicKey : PublicKey) (relinKey : RelinKey)
    (settings : Backend.Settings) :
    Returns (Backend.ofKeys ctx publicKey relinKey settings)
      fun b => b.evaluator = ⟨ctx, publicKey, relinKey⟩ :=
  returns_bind (returns_mapError (Evaluator.ofKeys_returns ctx publicKey relinKey)) fun _ eq =>
    returns_pure eq

theorem exchange_returns [Primitives] [Transport.Lawful τ] (params : Params)
    (settings : Session.Settings) :
    Returns (exchange params settings : Act τ Welcome) (Welcome.Sound params) := by
  refine returns_bind (act_returns (returns_mapError (Context.ofParams_returns params)))
    fun ctx ofParams => ?_
  have sound := Context.sound_of_ofParams ofParams
  have sized := Context.sized_of_ofParams ofParams
  refine returns_bind (Transport.Lawful.send_returns _) fun _ _ => ?_
  refine returns_bind (expect_returns _) fun keys _ => ?_
  refine returns_bind (act_returns (readEvaluationKeys_returns sound sized keys))
    fun ⟨publicKey, relinKey⟩ ⟨overPublic, overRelin⟩ => ?_
  refine returns_bind (expect_returns _) fun execute _ => ?_
  refine returns_bind (act_returns (readExecute_returns sized execute)) fun input fits => ?_
  refine returns_bind (act_returns (returns_mapError
    (BatchedTensor.ofValues_returns input.type input.batch (input.handles.map .cipher))))
    fun t ht => ?_
  refine returns_bind (act_returns (returns_mapError (ofKeys_returns ctx publicKey relinKey _)))
    fun backend hb => returns_pure ?_
  subst ht
  -- What has been read is as it should be; it is put together here.
  have size : input.type.shape.size? =
      some ((input.handles.map Element.cipher).length * input.batch) := by
    rw [List.length_map, fits.size]
  exact {
    context := ofParams
    evaluator := by rw [hb]
    publicKey := by rw [hb]; exact overPublic
    relinKey := by rw [hb]; exact overRelin
    batch_pos := fits.batch_pos
    batch_le := fits.batch_le
    size
    prod := prod_of_size? size
    elements := by
      intro x hx
      obtain ⟨h, mem, rfl⟩ := List.mem_map.mp hx
      exact ⟨h, rfl, fits.handles h mem⟩ }

/-! ## Requests -/

/-- An answer that a server accepts for an element: well-formed, at its level
and at a matching scale. -/
structure Accepted (ctx : Context) (packing : Packing) (asked answer : Handle) : Prop where
  wellFormed : answer.WellFormed ctx packing
  level : answer.level = asked.level
  scale : Scheme.scalesMatch answer.scale asked.scale = true

theorem accepted_of_checkAnswers {packing : Packing} {index : Nat} {asked answered : List Handle}
    (length : answered.length = asked.length)
    (wellFormed : ∀ h ∈ answered, h.WellFormed ctx packing)
    (ok : checkAnswers index asked answered = .ok ()) :
    List.Forall₂ (Accepted ctx packing) asked answered := by
  induction asked generalizing index answered with
  | nil =>
    obtain rfl := List.length_eq_zero_iff.mp length
    exact .nil
  | cons a asked ih =>
    cases answered with
    | nil => exact nomatch length
    | cons b answered =>
      obtain ⟨first, others⟩ := List.forall_mem_cons.mp wellFormed
      rw [checkAnswers] at ok
      split at ok
      · rename_i same
        exact .cons ⟨first, same.1, same.2⟩ (ih (Nat.succ.inj length) others ok)
      · exact nomatch ok

theorem checkAnswers_returns (index : Nat) (asked answered : List Handle) :
    Returns (checkAnswers index asked answered)
      fun _ => checkAnswers index asked answered = .ok () := by
  refine returns_mono (P := fun _ => True) ?_ fun _ eq _ => eq
  induction asked generalizing index answered with
  | nil => trivial
  | cons a asked ih =>
    cases answered with
    | nil => trivial
    | cons b answered => exact returns_ite (fun _ => ih _ _) fun _ => rfl

/-- What a question gets: an accepted answer to each of its elements, in their
order. -/
theorem ask_returns [Transport.Lawful τ] {s : Server} (sized : s.context.Sized) (f : Nonlinear)
    (batch : List Handle) :
    Returns (s.ask f batch : Act τ (List Handle))
      (List.Forall₂ (Accepted s.context s.packing) batch) := by
  refine returns_bind (P := fun _ => True) ?_ fun request _ => ?_
  · exact act_returns (returns_bind (returns_mapError (Wire.handlesBytes_returns batch)) fun _ _ =>
      returns_pure trivial)
  refine returns_bind (Transport.Lawful.send_returns _) fun _ _ => ?_
  refine returns_bind (expect_returns _) fun m _ => returns_ite (fun _ _ => rfl) fun count => ?_
  refine returns_bind (act_returns (readElements_returns sized s.packing m.count m.payload))
    fun answers ⟨length, wellFormed⟩ => ?_
  refine returns_bind (act_returns (checkAnswers_returns 0 batch answers)) fun _ ok => ?_
  exact returns_pure (accepted_of_checkAnswers (length.trans (not_not.mp count)) wellFormed ok)

/-- The pieces make up the list. -/
theorem flatten_pieces (size : Nat) (xs : List α) : (pieces size xs).flatten = xs := by
  induction xs using pieces.induct size with
  | case1 => rw [pieces, List.flatten_nil]
  | case2 x rest ih =>
    rw [pieces, List.flatten_cons, ih, List.cons_append, List.take_append_drop]

theorem askEach_returns [Transport.Lawful τ] {s : Server} (sized : s.context.Sized)
    (f : Nonlinear) (batches : List (List Handle)) :
    Returns (s.askEach f batches : Act τ (List Handle))
      (List.Forall₂ (Accepted s.context s.packing) batches.flatten) := by
  induction batches with
  | nil => exact returns_pure .nil
  | cons piece rest ih =>
    refine returns_bind (ask_returns sized f piece) fun here hhere => ?_
    refine returns_bind ih fun later hlater => returns_pure ?_
    exact List.rel_append hhere hlater

/-- Whatever its client does, a server's handshake ends with an input and keys
that the server can rely on, or with a closed connection, and so does each
evaluation, with one accepted answer to each element. -/
theorem handshake_evaluate_endsWell [Primitives] (τ : Type) [Transport τ] [Transport.Lawful τ]
    (params : Params) (settings : Session.Settings) :
    EndsWell (handshake params settings : Act τ Welcome) (Welcome.Sound params) ∧
    ∀ (s : Server) (f : Nonlinear) (batch : List Handle),
      Context.ofParams params = .ok s.context →
      EndsWell (s.evaluate f batch : Act τ (List Handle))
        (List.Forall₂ (Accepted s.context s.packing) batch) := by
  refine ⟨orClose_endsWell (exchange_returns params settings), ?_⟩
  intro s f batch ofParams
  have answers := askEach_returns (τ := τ) (Context.sized_of_ofParams ofParams) f
    (pieces (s.maxBatch - 1) batch)
  rw [flatten_pieces] at answers
  exact orClose_endsWell answers

attribute [local instance] Primitives.coarse

/-- So it is over a stream of bytes, whatever the bytes are. -/
theorem handshake_evaluate_endsWell_link :
    Context.ofParams Context.tiny.params = .ok Context.tiny ∧
    EndsWell (handshake Context.tiny.params {} : Act Link Welcome)
      (Welcome.Sound Context.tiny.params) ∧
    EndsWell (Server.evaluate ⟨Context.tiny, .complex, 1⟩ .relu [Wire.tinyHandle, Wire.tinyHandle] :
        Act Link (List Handle))
      (List.Forall₂ (Accepted Context.tiny .complex) [Wire.tinyHandle, Wire.tinyHandle]) := by
  obtain ⟨handshakes, evaluations⟩ :=
    handshake_evaluate_endsWell Link Context.tiny.params {}
  exact ⟨Context.ofParams_tiny, handshakes,
    evaluations ⟨Context.tiny, .complex, 1⟩ .relu _ Context.ofParams_tiny⟩

end Server

end CipherFlow.Session
