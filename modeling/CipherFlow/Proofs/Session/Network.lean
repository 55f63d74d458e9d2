import CipherFlow.Session.Transport
import Mathlib.Logic.Function.Basic
import Mathlib.Logic.Relation

/-!
# Two parties over channels

Each of two parties sends messages into a channel to the other one, which
keeps their order, and receives from its own. A state of the network says how
far each party is; a step is one sending or one receiving of either. What a
party is about to do depends on the messages that it has received and on the
number of those that it has sent, and on nothing else.

Two parties that follow one dialogue can be at different places of it, but
that is all: whatever the order of their steps, no message is lost or taken
for another, some step is possible until the dialogue is over, and it is over
after finitely many.

Main lemmas: `Net.Reaches.at`, that the parties stay at places of the dialogue,
`Net.At.exists_step`, that one of them can go on, and `Net.At.acc`, that they do not
go on for ever. The invariant is `Net.At`: each party is at a place, and the
channels hold what the other one has said beyond it. One step moves one party by one
place (`Net.At.step`), so the places that are left are a measure (`toGo`).
-/

namespace CipherFlow.Session

/-- A party of a session. -/
inductive Side where
  | client
  | server
deriving DecidableEq, Repr

/-- The party at the other end. -/
def Side.other : Side → Side
  | client => server
  | server => client

@[simp]
theorem Side.other_other (s : Side) : s.other.other = s := by
  cases s <;> rfl

theorem Side.other_ne (s : Side) : s.other ≠ s := by
  cases s <;> exact Side.noConfusion

theorem Side.eq_or_eq (s t : Side) : t = s ∨ t = s.other := by
  cases s <;> cases t <;> decide

/-- What a party is about to do. -/
inductive Intent where
  | send (m : Message)
  | receive
  /-- Nothing; the party may have failed. -/
  | stop (failure : Option Error)

/-- What a party is about to do once it has received messages and has sent a
number of them. -/
abbrev Party := (received : List Message) → (sent : Nat) → Intent

/-- How far the parties of a session are. -/
structure Net where
  received : Side → List Message
  sent : Side → Nat
  /-- The messages that are on their way to a party. -/
  channel : Side → List Message

namespace Net

/-- Nothing has happened. -/
def start : Net :=
  ⟨fun _ => [], fun _ => 0, fun _ => []⟩

/-- A party has sent a message. -/
def afterSend (n : Net) (s : Side) (m : Message) : Net :=
  { n with
    sent := Function.update n.sent s (n.sent s + 1)
    channel := Function.update n.channel s.other (n.channel s.other ++ [m]) }

/-- A party has received a message, and others are left. -/
def afterReceive (n : Net) (s : Side) (m : Message) (rest : List Message) : Net :=
  { n with
    received := Function.update n.received s (n.received s ++ [m])
    channel := Function.update n.channel s rest }

/-- What a party is about to do. -/
def intent (parties : Side → Party) (n : Net) (s : Side) : Intent :=
  parties s (n.received s) (n.sent s)

/-- One party sends a message, or receives the first one of its channel. -/
inductive Step (parties : Side → Party) (n : Net) : Net → Prop where
  | send {s : Side} {m : Message} : n.intent parties s = .send m →
      Step parties n (n.afterSend s m)
  | receive {s : Side} {m : Message} {rest : List Message} : n.intent parties s = .receive →
      n.channel s = m :: rest → Step parties n (n.afterReceive s m rest)

/-- What the parties can come to. -/
abbrev Reaches (parties : Side → Party) : Net → Net → Prop :=
  Relation.ReflTransGen (Step parties)

end Net

/-! ## Dialogues -/

/-- The messages of a session in their order, each with the party that sends
it. -/
abbrev Dialogue := List (Side × Message)

namespace Dialogue

variable {d : Dialogue} {s : Side} {m : Message} {i j : Nat}

/-- The message of an entry, if the party sends it. -/
def sentBy? (s : Side) (e : Side × Message) : Option Message :=
  if e.1 = s then some e.2 else none

/-- The messages that a party sends. -/
def said (s : Side) (d : Dialogue) : List Message :=
  d.filterMap (sentBy? s)

/-- What a party does at a place of a dialogue. -/
def intent (s : Side) (d : Dialogue) (i : Nat) : Intent :=
  match d[i]? with
  | some (by', m) => if by' = s then .send m else .receive
  | none => .stop none

/-- A party does what a dialogue says, as far as it has come. -/
def Follows (party : Party) (s : Side) (d : Dialogue) : Prop :=
  ∀ i ≤ d.length, party (said s.other (d.take i)) (said s (d.take i)).length = intent s d i

@[simp]
theorem said_append (d d' : Dialogue) : said s (d ++ d') = said s d ++ said s d' :=
  List.filterMap_append

@[simp]
theorem said_own : said s [(s, m)] = [m] := by
  simp [said, sentBy?]

@[simp]
theorem said_other : said s [(s.other, m)] = [] := by
  simp [said, sentBy?, s.other_ne]

theorem take_succ_of_getElem? {e : Side × Message} (h : d[i]? = some e) :
    d.take (i + 1) = d.take i ++ [e] := by
  rw [List.take_add_one, h]
  rfl

@[simp]
theorem said_of_other : said s.other [(s, m)] = [] := by
  simp [said, sentBy?, s.other_ne.symm]

/-- What is said up to a place begins what is said up to a later one. -/
theorem said_take_le (le : i ≤ j) (s : Side) : said s (d.take i) <+: said s (d.take j) :=
  (List.take_prefix_take_left le).filterMap _

theorem intent_eq_send (h : intent s d i = .send m) : d[i]? = some (s, m) := by
  unfold intent at h
  split at h
  · rename_i t m' found
    split at h
    · rename_i eq
      rw [found, eq, Intent.send.inj h]
    · exact nomatch h
  · exact nomatch h

theorem intent_eq_receive (h : intent s d i = .receive) : ∃ m, d[i]? = some (s.other, m) := by
  unfold intent at h
  split at h
  · rename_i t m found
    split at h
    · exact nomatch h
    · rename_i ne
      rcases s.eq_or_eq t with rfl | rfl
      · exact absurd rfl ne
      · exact ⟨m, found⟩
  · exact nomatch h

theorem intent_of_own (h : d[i]? = some (s, m)) : intent s d i = .send m := by
  rw [intent, h]
  exact if_pos rfl

theorem intent_of_other (h : d[i]? = some (s.other, m)) : intent s d i = .receive := by
  rw [intent, h]
  exact if_neg s.other_ne

theorem intent_eq_stop (h : d[i]? = none) : intent s d i = .stop none := by
  rw [intent, h]

/-- A party that follows a dialogue follows the first part of it. -/
theorem Follows.begins {party : Party} {d' : Dialogue} (h : Follows party s (d ++ d'))
    (lt : i < d.length) :
    party (said s.other (d.take i)) (said s (d.take i)).length = intent s d i := by
  have follows := h i (by rw [List.length_append]; omega)
  rwa [List.take_append_of_le_length (Nat.le_of_lt lt), intent,
    List.getElem?_append_left lt] at follows

/-- A dialogue has no failures. -/
theorem intent_ne_failure {e : Error} : intent s d i ≠ .stop (some e) := by
  unfold intent
  split
  · split <;> exact Intent.noConfusion
  · exact fun h => nomatch Intent.stop.inj h

end Dialogue

/-! ## Parties that follow a dialogue -/

open Dialogue

/-- Each party is at a place of the dialogue, and what the other one has said
beyond that is on its way. -/
structure Net.At (d : Dialogue) (n : Net) (place : Side → Nat) : Prop where
  le : ∀ s, place s ≤ d.length
  received : ∀ s, n.received s = said s.other (d.take (place s))
  sent : ∀ s, n.sent s = (said s (d.take (place s))).length
  channel : ∀ s, said s.other (d.take (place s.other)) = n.received s ++ n.channel s

section Following

variable {parties : Side → Party} {d : Dialogue} {n n' : Net} {place : Side → Nat}
  (follows : ∀ s, Follows (parties s) s d)

theorem Net.at_start (d : Dialogue) : Net.start.At d fun _ => 0 where
  le _ := Nat.zero_le _
  received _ := rfl
  sent _ := rfl
  channel _ := rfl

include follows in
/-- A party is about to do what the dialogue says at its place. -/
theorem Net.At.intent_eq (h : n.At d place) (s : Side) :
    n.intent parties s = Dialogue.intent s d (place s) := by
  rw [Net.intent, h.received, h.sent]
  exact follows s (place s) (h.le s)

/-- A party that sends moves to the next place. -/
theorem Net.At.afterSend {s : Side} {m : Message} (h : n.At d place)
    (entry : d[place s]? = some (s, m)) :
    (n.afterSend s m).At d (Function.update place s (place s + 1)) := by
  have next := take_succ_of_getElem? entry
  obtain ⟨lt, -⟩ := List.getElem?_eq_some_iff.mp entry
  constructor <;> intro t <;> rcases s.eq_or_eq t with rfl | rfl
  case le.inl => rw [Function.update_self]; exact lt
  case le.inr => simpa [s.other_ne] using h.le s.other
  case received.inl => simpa [Net.afterSend, next] using h.received t
  case received.inr => simpa [Net.afterSend, s.other_ne] using h.received s.other
  case sent.inl => simpa [Net.afterSend, next] using h.sent t
  case sent.inr => simpa [Net.afterSend, s.other_ne] using h.sent s.other
  case channel.inl => simpa [Net.afterSend, t.other_ne, t.other_ne.symm] using h.channel t
  case channel.inr =>
    have before := h.channel s.other
    rw [s.other_other] at before
    simp [Net.afterSend, next, before]

/-- A party that receives moves to the next place, and what it receives is what
stands there. -/
theorem Net.At.afterReceive {s : Side} {m m' : Message} {rest : List Message} (h : n.At d place)
    (entry : d[place s]? = some (s.other, m')) (some' : n.channel s = m :: rest) :
    (n.afterReceive s m rest).At d (Function.update place s (place s + 1)) := by
  have next := take_succ_of_getElem? entry
  obtain ⟨lt, -⟩ := List.getElem?_eq_some_iff.mp entry
  have heard := h.channel s
  rw [some', h.received s] at heard
  -- The other party is further, for it has said more than has been received.
  have further : place s + 1 ≤ place s.other := by
    by_contra notFurther
    have shorter := (said_take_le (d := d) (Nat.le_of_not_lt notFurther) s.other).length_le
    rw [heard, List.length_append, List.length_cons] at shorter
    omega
  obtain rfl : m' = m := by
    have begins := said_take_le (d := d) further s.other
    rw [heard, next, said_append, said_own, List.prefix_append_right_inj] at begins
    exact (List.cons_prefix_cons.mp begins).1
  constructor <;> intro t <;> rcases s.eq_or_eq t with rfl | rfl
  case le.inl => rw [Function.update_self]; exact lt
  case le.inr => simpa [s.other_ne] using h.le s.other
  case received.inl => simpa [Net.afterReceive, next] using h.received t
  case received.inr => simpa [Net.afterReceive, s.other_ne] using h.received s.other
  case sent.inl => simpa [Net.afterReceive, next] using h.sent t
  case sent.inr => simpa [Net.afterReceive, s.other_ne] using h.sent s.other
  case channel.inl =>
    have before := h.channel t
    rw [some'] at before
    simp [Net.afterReceive, t.other_ne, before]
  case channel.inr =>
    have before := h.channel s.other
    rw [s.other_other] at before
    simp [Net.afterReceive, s.other_ne, next, before]

include follows in
/-- Each step takes one party to its next place. -/
theorem Net.At.step (h : n.At d place) (step : Step parties n n') :
    ∃ s, place s < d.length ∧ n'.At d (Function.update place s (place s + 1)) := by
  cases step with
  | @send s m intends =>
    have entry := intent_eq_send ((h.intent_eq follows s).symm.trans intends)
    exact ⟨s, (List.getElem?_eq_some_iff.mp entry).1, h.afterSend entry⟩
  | @receive s m rest intends some' =>
    obtain ⟨m', entry⟩ := intent_eq_receive ((h.intent_eq follows s).symm.trans intends)
    exact ⟨s, (List.getElem?_eq_some_iff.mp entry).1, h.afterReceive entry some'⟩

include follows in
theorem Net.Reaches.at (h : Reaches parties start n) : ∃ place, n.At d place := by
  induction h with
  | refl => exact ⟨_, at_start d⟩
  | tail _ step ih =>
    obtain ⟨place, at'⟩ := ih
    obtain ⟨s, -, next⟩ := at'.step follows step
    exact ⟨_, next⟩

include follows in
/-- The party that is not further than the other one can go on, or the other
one can. -/
theorem Net.At.exists_step (h : n.At d place) {s : Side} (lt : place s < d.length)
    (le : place s ≤ place s.other) : ∃ n', Step parties n n' := by
  obtain ⟨⟨t, m⟩, entry⟩ : ∃ e, d[place s]? = some e := ⟨_, List.getElem?_eq_getElem lt⟩
  rcases s.eq_or_eq t with rfl | rfl
  · exact ⟨_, .send ((h.intent_eq follows t).trans (intent_of_own entry))⟩
  · rcases Nat.eq_or_lt_of_le le with same | further
    · rw [same] at entry
      exact ⟨_, .send ((h.intent_eq follows s.other).trans (intent_of_own entry))⟩
    · have begins := said_take_le (d := d) (Nat.succ_le_of_lt further) s.other
      rw [h.channel s, h.received s, take_succ_of_getElem? entry, said_append, said_own,
        List.prefix_append_right_inj] at begins
      obtain ⟨rest, some'⟩ := begins
      exact ⟨_, .receive ((h.intent_eq follows s).trans (intent_of_other entry)) some'.symm⟩

include follows in
/-- Parties that cannot go on have come to the end of the dialogue. -/
theorem Net.At.eq_length (h : n.At d place) (stuck : ∀ n', ¬Step parties n n') (s : Side) :
    place s = d.length := by
  by_contra ne
  have lt := Nat.lt_of_le_of_ne (h.le s) ne
  rcases Nat.le_total (place s) (place s.other) with le | le
  · obtain ⟨n', step⟩ := h.exists_step follows lt le
    exact stuck n' step
  · obtain ⟨n', step⟩ := h.exists_step follows (Nat.lt_of_le_of_lt le lt)
      (by rw [s.other_other]; exact le)
    exact stuck n' step

/-- How far the parties are from the end of a dialogue. -/
def toGo (d : Dialogue) (place : Side → Nat) : Nat :=
  (d.length - place .client) + (d.length - place .server)

theorem toGo_update {s : Side} (lt : place s < d.length) :
    toGo d (Function.update place s (place s + 1)) < toGo d place := by
  cases s <;> simp only [toGo, Function.update_self, ne_eq, reduceCtorEq, not_false_eq_true,
    Function.update_of_ne] <;> omega

include follows in
/-- No run goes on for ever. -/
theorem Net.At.acc (h : n.At d place) : Acc (fun n' n => Step parties n n') n := by
  induction steps : toGo d place using Nat.strongRecOn generalizing n place with
  | ind k ih =>
    refine .intro _ fun n' step => ?_
    obtain ⟨s, lt, next⟩ := h.step follows step
    exact ih _ (steps ▸ toGo_update lt) next rfl

/-- A run that ends. -/
theorem Net.exists_end (acc : Acc (fun n' n => Step parties n n') n) :
    ∃ n', Reaches parties n n' ∧ ∀ n'', ¬Step parties n' n'' := by
  induction acc with
  | intro n _ ih =>
    by_cases stuck : ∃ n', Step parties n n'
    · obtain ⟨n', step⟩ := stuck
      obtain ⟨last, reaches, stuck⟩ := ih n' step
      exact ⟨last, .head step reaches, stuck⟩
    · exact ⟨n, .refl, fun n' step => stuck ⟨n', step⟩⟩

/-- Parties that do what a dialogue says before its end can get there, one entry
after the other. -/
theorem Net.exists_at (begins : ∀ s, ∀ i < d.length,
    parties s (said s.other (d.take i)) (said s (d.take i)).length = Dialogue.intent s d i)
    {i : Nat} (le : i ≤ d.length) :
    ∃ n, Reaches parties start n ∧ n.At d fun _ => i := by
  induction i with
  | zero => exact ⟨start, .refl, at_start d⟩
  | succ i ih =>
    obtain ⟨n, reaches, at'⟩ := ih (Nat.le_of_succ_le le)
    obtain ⟨⟨t, m⟩, entry⟩ : ∃ e, d[i]? = some e := ⟨_, List.getElem?_eq_getElem le⟩
    have sends : n.intent parties t = .send m := by
      rw [intent, at'.received, at'.sent, begins t i le, intent_of_own entry]
    have sent := at'.afterSend entry
    have hears : (n.afterSend t m).intent parties t.other = .receive := by
      rw [intent, sent.received, sent.sent, Function.update_of_ne t.other_ne, begins t.other i le]
      exact intent_of_other (by rw [t.other_other]; exact entry)
    have channel := sent.channel t.other
    rw [t.other_other, Function.update_self, sent.received, Function.update_of_ne t.other_ne,
      t.other_other, take_succ_of_getElem? entry, said_append, said_own,
      List.append_right_inj] at channel
    refine ⟨_, reaches.tail (.send sends) |>.tail (.receive hears channel.symm), ?_⟩
    have stands : d[Function.update (fun _ => i) t (i + 1) t.other]? = some (t.other.other, m) := by
      rw [Function.update_of_ne t.other_ne, t.other_other]
      exact entry
    have heard := sent.afterReceive stands channel.symm
    have both : Function.update (Function.update (fun _ => i) t (i + 1)) t.other
        (Function.update (fun _ => i) t (i + 1) t.other + 1) = fun _ => i + 1 := by
      funext s
      rcases t.eq_or_eq s with rfl | rfl
      · rw [Function.update_of_ne s.other_ne.symm, Function.update_self]
      · rw [Function.update_self, Function.update_of_ne t.other_ne]
    exact both ▸ heard

/-! ## Answers -/

/-- The server speaks first, then with one message to each answer; the first
answer has two messages. -/
def Dialogue.Alternates (d : Dialogue) : Prop :=
  ∀ i, (said .server (d.take i)).length ≤ ((said .client (d.take i)).length - 1) + 1 ∧
    (said .client (d.take i)).length ≤ (said .server (d.take i)).length + 1

/-- The messages of the server that the client has not answered. The keys and
the input are one answer, and so is each later message. -/
def Net.unanswered (n : Net) : Nat :=
  n.sent .server - (n.sent .client - 1)

/-- Few messages are on their way: to the client one, which is the one that is
not answered, and to the server one answer. -/
structure Net.Orderly (n : Net) : Prop where
  unanswered : n.unanswered ≤ 1
  toClient : (n.channel .client).length ≤ 1
  toServer : (n.channel .server).length ≤ 2
  answer : n.received .server ≠ [] → (n.channel .server).length ≤ 1

theorem Net.At.orderly (h : n.At d place) (alternates : Alternates d) : n.Orderly := by
  have toClient := congrArg List.length (h.channel .client)
  have toServer := congrArg List.length (h.channel .server)
  obtain ⟨server, server'⟩ := alternates (place .server)
  obtain ⟨client, client'⟩ := alternates (place .client)
  rw [List.length_append] at toClient toServer
  have heardC := congrArg List.length (h.received .client)
  have heardS := congrArg List.length (h.received .server)
  have sentC := h.sent .client
  have sentS := h.sent .server
  simp only [Side.other] at toClient toServer heardC heardS
  refine ⟨?_, by omega, by omega, fun some' => ?_⟩
  · rw [unanswered]
    omega
  · have := List.length_pos_iff.mpr some'
    omega

end Following

end CipherFlow.Session
