import CipherFlow.Proofs.Session.Peer
import Mathlib.Data.List.Chain

/-!
# Conversations of a client

A client hears parameters and greets with its keys and its input; then it
answers one request after the other, until it hears the result. Where it fails
there is a part of an answer left. Such conversations are described as they
come about, message by message. What can be said of each two events that follow
each other, and of the kinds of all messages, is derived.

Main lemmas: `Ended.kinds` and `Ended.chain`. The inductive types follow the client:
`Served`, `Waiting`, `Broken` and `Ended`. Properties of whole conversations are
proved on them by cases, since no message depends on more than the one before it.
-/

namespace CipherFlow.Session

/-- Kinds of messages that ask for a function. -/
def MessageKind.IsRequest (k : MessageKind) : Prop :=
  k = .reluRequest ∨ k = .boundedReluRequest

theorem MessageKind.IsRequest.ne_parameters {k : MessageKind} (h : k.IsRequest) :
    k ≠ .parameters := by
  rcases h with rfl | rfl <;> exact MessageKind.noConfusion

theorem MessageKind.IsRequest.ne_result {k : MessageKind} (h : k.IsRequest) : k ≠ .result := by
  rcases h with rfl | rfl <;> exact MessageKind.noConfusion

/-- A message answers a request: it has as many ciphertexts. -/
structure Message.Answers (request answer : Message) : Prop where
  asks : request.kind.IsRequest
  kind : answer.kind = .reluResponse
  count : answer.count = request.count

/-- The messages with which a client greets a server. -/
structure Message.Greet (parameters keys input : Message) : Prop where
  parameters : parameters.kind = .parameters
  keys : keys.kind = .evaluationKeys
  input : input.kind = .execute

/-- What has happened when a client with keys waits for a request. -/
inductive Served : List Event → Prop where
  | greeted {p k x : Message} : p.Greet k x → Served [.received p, .sent k, .sent x]
  | answered {es : List Event} {q a : Message} : Served es → q.Answers a →
      Served (es ++ [.received q, .sent a])

/-- What has happened when a client waits in a state. -/
inductive Waiting : State → List Event → Prop where
  | fresh : Waiting .ready []
  | served {es : List Event} : Served es → Waiting .awaitingRequest es

/-- What is left of the answer to a message when a client in a state fails. -/
inductive Broken (m : Message) : State → List Event → Prop where
  | silent {s : State} : Broken m s []
  | keysRefused {k : Message} : m.kind = .parameters → k.kind = .evaluationKeys →
      Broken m .ready [.refused k]
  | keysSent {k : Message} : m.kind = .parameters → k.kind = .evaluationKeys →
      Broken m .ready [.sent k]
  | inputRefused {k x : Message} : m.Greet k x → Broken m .ready [.sent k, .refused x]
  | answerRefused {a : Message} : m.Answers a → Broken m .awaitingRequest [.refused a]

/-- What has happened when a session is over. -/
inductive Ended : List Event → Prop where
  | lost {s : State} {es : List Event} : Waiting s es → Ended (es ++ [.lost])
  | broken {m : Message} {s : State} {es tail : List Event} : Waiting s es → Broken m s tail →
      Ended (es ++ .received m :: tail)

variable {m : Message} {s : State} {es tail rest : List Event}

/-! ## What a client hears first -/

theorem Served.head (h : Served es) :
    ∃ p rest, es = .received p :: rest ∧ p.kind = .parameters := by
  induction h with
  | greeted greet => exact ⟨_, _, rfl, greet.parameters⟩
  | answered _ _ ih =>
    obtain ⟨p, rest, rfl, kind⟩ := ih
    exact ⟨p, _, List.cons_append, kind⟩

/-- Only a client that has taken nothing can hear something else first. -/
theorem Waiting.first (h : Waiting s es) (eq : es ++ tail = .received m :: rest)
    (other : m.kind ≠ .parameters) : s = .ready ∧ tail = .received m :: rest := by
  cases h with
  | fresh => exact ⟨rfl, eq⟩
  | served served =>
    obtain ⟨p, rest, rfl, kind⟩ := served.head
    obtain ⟨same, -⟩ := List.cons.inj eq
    exact absurd (Event.received.inj same ▸ kind) other

/-- Nothing else is answered. -/
theorem Broken.eq_nil (h : Broken m .ready tail) (other : m.kind ≠ .parameters) : tail = [] := by
  cases h with
  | silent => rfl
  | keysRefused kind | keysSent kind => exact absurd kind other
  | inputRefused greet => exact absurd greet.parameters other

/-! ## Kinds of messages -/

/-- The message that is sent, or was to be sent. -/
def Event.outgoing? : Event → Option Message
  | .sent m | .refused m => some m
  | .received _ | .lost => none

/-- The kinds of all messages that a client has tried to send. -/
def attempted (es : List Event) : List MessageKind :=
  (es.filterMap Event.outgoing?).map Message.kind

@[simp]
theorem attempted_nil : attempted [] = [] :=
  rfl

@[simp]
theorem attempted_received : attempted (.received m :: es) = attempted es :=
  rfl

@[simp]
theorem attempted_sent : attempted (.sent m :: es) = m.kind :: attempted es :=
  rfl

@[simp]
theorem attempted_refused : attempted (.refused m :: es) = m.kind :: attempted es :=
  rfl

@[simp]
theorem attempted_lost : attempted (.lost :: es) = attempted es :=
  rfl

@[simp]
theorem attempted_append : attempted (es ++ rest) = attempted es ++ attempted rest := by
  rw [attempted, List.filterMap_append, List.map_append, attempted, attempted]

/-- The kinds of a greeting and of a number of answers. -/
def kindsOf (answers : Nat) : List MessageKind :=
  .evaluationKeys :: .execute :: List.replicate answers .reluResponse

theorem kindsOf_succ (n : Nat) : kindsOf (n + 1) = kindsOf n ++ [.reluResponse] := by
  rw [kindsOf, kindsOf, List.replicate_succ']
  rfl

theorem Served.attempted_eq (h : Served es) : ∃ n, attempted es = kindsOf n := by
  induction h with
  | greeted greet => exact ⟨0, by simp [kindsOf, greet.keys, greet.input]⟩
  | answered _ answers ih =>
    obtain ⟨n, eq⟩ := ih
    exact ⟨n + 1, by simp [eq, kindsOf_succ, answers.kind]⟩

/-- A greeting, or a part of it, is in order, and so is a further answer. -/
theorem Waiting.kinds (h : Waiting s es) (greeting : s = .ready → attempted tail <+: kindsOf 0)
    (answering : s = .awaitingRequest → attempted tail <+: [.reluResponse]) :
    ∃ n, attempted (es ++ tail) <+: kindsOf n := by
  cases h with
  | fresh => exact ⟨0, greeting rfl⟩
  | served served =>
    obtain ⟨n, eq⟩ := served.attempted_eq
    refine ⟨n + 1, ?_⟩
    rw [attempted_append, eq, kindsOf_succ]
    exact (List.prefix_append_right_inj _).mpr (answering rfl)

/-- A client sends its keys, then its input, then answers. -/
theorem Ended.kinds (h : Ended es) : ∃ n, attempted es <+: kindsOf n := by
  cases h with
  | lost waiting => exact waiting.kinds (fun _ => List.nil_prefix) fun _ => List.nil_prefix
  | broken waiting broken =>
    refine waiting.kinds (fun ready => ?_) fun awaiting => ?_
    · subst ready
      cases broken with
      | silent => exact List.nil_prefix
      | keysRefused _ kind | keysSent _ kind => simp [kind, kindsOf]
      | inputRefused greet => simp [greet.keys, greet.input, kindsOf]
    · subst awaiting
      cases broken with
      | silent => exact List.nil_prefix
      | answerRefused answers => simp [answers.kind]

/-! ## Events that follow each other -/

/-- What can be said of an event and the next one. -/
structure Event.Next (e e' : Event) : Prop where
  /-- Nothing comes after a failure to send or to receive. -/
  refused : ∀ m, e ≠ .refused m
  lost : e ≠ .lost
  /-- Nothing comes after a result. -/
  result : ∀ m, e = .received m → m.kind ≠ .result
  /-- An answer comes right after its request. -/
  answer : ∀ a, e'.outgoing? = some a → a.kind = .reluResponse →
    ∃ q, e = .received q ∧ q.Answers a

namespace Event

variable {a : Message} {e : Event}

/-- An event that is no answer to a request. -/
def Opens (e : Event) : Prop :=
  ∀ a, e.outgoing? = some a → a.kind ≠ .reluResponse

theorem opens_of_kind (h : e.outgoing? = some a) (kind : a.kind ≠ .reluResponse) : e.Opens := by
  rintro a' h'
  rwa [← Option.some.inj (h.symm.trans h')]

theorem next_received (goes : m.kind ≠ .result) (opens : e.Opens) : Next (.received m) e where
  refused _ := nofun
  lost := nofun
  result _ h := received.inj h ▸ goes
  answer a h kind := absurd kind (opens a h)

theorem next_sent (opens : e.Opens) : Next (.sent m) e where
  refused _ := nofun
  lost := nofun
  result _ := nofun
  answer a h kind := absurd kind (opens a h)

theorem next_answer (answers : m.Answers a) (h : e.outgoing? = some a) : Next (.received m) e where
  refused _ := nofun
  lost := nofun
  result _ same := received.inj same ▸ answers.asks.ne_result
  answer _ h' _ := ⟨m, rfl, Option.some.inj (h.symm.trans h') ▸ answers⟩

end Event

/-- What a client has done before it waits is in order, and ends with a
sending. -/
theorem Served.chain (h : Served es) :
    es.IsChain Event.Next ∧ ∀ e ∈ es.getLast?, ∃ m, e = .sent m := by
  induction h with
  | @greeted p k x greet =>
    have hears : Event.Next (.received p) (.sent k) :=
      Event.next_received (greet.parameters.trans_ne MessageKind.noConfusion)
        (Event.opens_of_kind rfl (greet.keys.trans_ne MessageKind.noConfusion))
    have sends : Event.Next (.sent k) (.sent x) :=
      Event.next_sent (Event.opens_of_kind rfl (greet.input.trans_ne MessageKind.noConfusion))
    exact ⟨.cons_cons hears (.cons_cons sends (.singleton _)), fun e he =>
      ⟨x, (Option.some.inj he).symm⟩⟩
  | @answered es q a _ answers ih =>
    obtain ⟨chain, last⟩ := ih
    refine ⟨chain.append (.cons_cons (Event.next_answer answers rfl) (.singleton _)) ?_, ?_⟩
    · intro e he e' he'
      obtain ⟨m, rfl⟩ := last e he
      obtain rfl := Option.some.inj he'
      exact Event.next_sent nofun
    · intro e he
      rw [List.getLast?_append] at he
      exact ⟨a, (Option.some.inj he).symm⟩

/-- What happens next is in order too, unless it is an answer. -/
theorem Waiting.chain (h : Waiting s es) {e : Event} (opens : e.Opens)
    (chain : (e :: tail).IsChain Event.Next) : (es ++ e :: tail).IsChain Event.Next := by
  cases h with
  | fresh => exact chain
  | served served =>
    obtain ⟨before, last⟩ := served.chain
    refine before.append chain fun x hx y hy => ?_
    obtain ⟨m, rfl⟩ := last x hx
    obtain rfl := Option.some.inj hy
    exact Event.next_sent opens

/-- All of a conversation is in order. -/
theorem Ended.chain (h : Ended es) : es.IsChain Event.Next := by
  cases h with
  | lost waiting => exact waiting.chain nofun (.singleton _)
  | @broken m s es tail waiting broken =>
    refine waiting.chain nofun ?_
    have greets : ∀ {k : Message} {e : Event}, m.kind = .parameters → k.kind = .evaluationKeys →
        e.outgoing? = some k → Event.Next (.received m) e := fun parameters keys out =>
      Event.next_received (parameters.trans_ne MessageKind.noConfusion)
        (Event.opens_of_kind out (keys.trans_ne MessageKind.noConfusion))
    cases broken with
    | silent => exact .singleton _
    | keysRefused parameters keys | keysSent parameters keys =>
      exact .cons_cons (greets parameters keys rfl) (.singleton _)
    | inputRefused greet =>
      refine .cons_cons (greets greet.parameters greet.keys rfl) (.cons_cons ?_ (.singleton _))
      exact Event.next_sent
        (Event.opens_of_kind rfl (greet.input.trans_ne MessageKind.noConfusion))
    | answerRefused answers => exact .cons_cons (Event.next_answer answers rfl) (.singleton _)

end CipherFlow.Session
