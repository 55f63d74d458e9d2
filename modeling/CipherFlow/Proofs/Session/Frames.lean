import CipherFlow.Proofs.Wire.Fields
import CipherFlow.Session.Frame

/-!
# Frames in a stream

Frames are written one after the other, with nothing between them but their own
lengths. A message is received exactly if its frame stands at the front of the
bytes that have arrived, and then its frame is all that is taken. Where a frame
is cut short nothing is received in its place: the connection counts as closed.

`frames_arrive` has the three parts: whole frames arrive in order, after them the
connection counts as closed, and a message is received for its own frame only.

How the proof goes. `receive_eq_ok` inverts one reception, field by field. A
reception that does not run out of bytes leaves further bytes alone
(`Incremental.receive`), so a frame without its last bytes cannot have given a
message (`receive_cut`). Every stream is cut into whole frames and one that is cut
short by induction over the frames (`exists_whole`).
-/

namespace CipherFlow.Session

/-- A message that can be sent: its frame is not too long, and its count is a
word. -/
structure Message.Sendable (m : Message) : Prop where
  length_le : m.frameLength ≤ maxFrameLength
  count_lt : m.count < wordSize

theorem MessageKind.code_lt (k : MessageKind) : k.code < Nat.pow 256 1 := by
  cases k <;> decide

namespace Link

variable {α β : Type} {x : ExceptT Error (StateM Link) α} {l l' : Link} {n : Nat} {m : Message}
  {ms : List Message} {bytes : Wire.Bytes}

/-- A link with other bytes still to be read. -/
def leaving (l : Link) (rest : Wire.Bytes) : Link :=
  { l with incoming := rest }

/-! ## Steps -/

theorem run_pure_eq_ok {a b : α} :
    (pure a : ExceptT Error (StateM Link) α).run.run l = (.ok b, l') ↔ a = b ∧ l = l' := by
  constructor
  · intro h
    obtain ⟨value, state⟩ := Prod.mk.inj h
    exact ⟨Except.ok.inj value, state⟩
  · rintro ⟨rfl, rfl⟩
    rfl

/-- A refusal before a step. -/
theorem run_check_eq_ok {c : Prop} [Decidable c] {e : Error}
    {next : PUnit → ExceptT Error (StateM Link) α} {a : α} :
    (if c then throw e >>= next else next ⟨⟩ : ExceptT Error (StateM Link) α).run.run l =
      (.ok a, l') ↔ ¬c ∧ (next ⟨⟩).run.run l = (.ok a, l') := by
  by_cases h : c
  · rw [if_pos h]
    exact ⟨fun h' => (nomatch (Prod.mk.inj h').1), fun h' => absurd h h'.1⟩
  · rw [if_neg h]
    exact (and_iff_right h).symm

theorem run_checkOpen_eq_ok {a : Unit} :
    checkOpen.run.run l = (.ok a, l') ↔ l.closed = false ∧ l' = l := by
  obtain ⟨incoming, ended, outgoing, timeout, closed⟩ := l
  cases closed
  · exact ⟨fun h => ⟨rfl, (Prod.mk.inj h).2.symm⟩, fun h => by rw [h.2]; rfl⟩
  · exact ⟨fun h => (nomatch (Prod.mk.inj h).1), fun h => (nomatch h.1)⟩

theorem run_take_eq_ok : (take n).run.run l = (.ok bytes, l') ↔
    ∃ rest, bytes.length = n ∧ l.incoming = bytes ++ rest ∧ l' = l.leaving rest := by
  by_cases enough : n ≤ l.incoming.length
  · have eq : (take n).run.run l = (.ok (l.incoming.take n), l.leaving (l.incoming.drop n)) :=
      if_pos enough
    rw [eq]
    constructor
    · intro h
      obtain ⟨value, rfl⟩ := Prod.mk.inj h
      obtain rfl := Except.ok.inj value
      exact ⟨l.incoming.drop n, List.length_take_of_le enough, (List.take_append_drop ..).symm, rfl⟩
    · rintro ⟨rest, rfl, split, rfl⟩
      rw [split, List.take_left, List.drop_left]
  · have eq : (take n).run.run l =
        (.error (if l.ended then .closed else .timeout l.timeout), l.leaving []) := if_neg enough
    rw [eq]
    refine ⟨fun h => (nomatch (Prod.mk.inj h).1), ?_⟩
    rintro ⟨rest, rfl, split, -⟩
    rw [split, List.length_append] at enough
    omega

theorem run_takeNat_eq_ok {width : Nat} : (takeNat width).run.run l = (.ok n, l') ↔
    ∃ rest, n < Nat.pow 256 width ∧ l.incoming = Wire.natBytes width n ++ rest ∧
      l' = l.leaving rest := by
  simp only [takeNat, run_bind_ok_iff, run_take_eq_ok, run_pure_eq_ok]
  constructor
  · rintro ⟨bytes, _, ⟨rest, rfl, split, rfl⟩, rfl, rfl⟩
    exact ⟨rest, Wire.natOfBytes_lt bytes, by rw [Wire.natBytes_natOfBytes, split], rfl⟩
  · rintro ⟨rest, lt, split, rfl⟩
    exact ⟨_, _, ⟨rest, Wire.length_natBytes width n, split, rfl⟩, Wire.natOfBytes_natBytes lt, rfl⟩

theorem run_ofCode_eq_ok {kind : MessageKind} :
    (liftM (MessageKind.ofCode n) : ExceptT Error (StateM Link) MessageKind).run.run l =
      (.ok kind, l') ↔ n = kind.code ∧ l' = l := by
  unfold MessageKind.ofCode
  cases found : MessageKind.ofCode? n with
  | none =>
    refine ⟨fun h => (nomatch (Prod.mk.inj h).1), ?_⟩
    rintro ⟨rfl, -⟩
    exact nomatch found.symm.trans (MessageKind.ofCode?_code kind)
  | some kind' =>
    constructor
    · intro h
      obtain ⟨value, state⟩ := Prod.mk.inj h
      obtain rfl := Except.ok.inj value
      exact ⟨(MessageKind.code_of_ofCode? found).symm, state.symm⟩
    · rintro ⟨rfl, rfl⟩
      obtain rfl := Option.some.inj (found.symm.trans (MessageKind.ofCode?_code kind))
      rfl

/-- A message is received exactly if its frame comes first, and the rest is
left. -/
theorem receive_eq_ok : receive.run.run l = (.ok m, l') ↔
    l.closed = false ∧ m.Sendable ∧ ∃ rest, l.incoming = m.frame ++ rest ∧ l' = l.leaving rest := by
  simp only [receive, run_bind_ok_iff, run_checkOpen_eq_ok, run_takeNat_eq_ok, run_check_eq_ok,
    run_ofCode_eq_ok, run_take_eq_ok, run_pure_eq_ok]
  constructor
  · rintro ⟨_, _, ⟨isOpen, rfl⟩, length, _, ⟨_, -, first, rfl⟩, notLong, notShort, _, _,
      ⟨_, -, second, rfl⟩, kind, _, ⟨rfl, rfl⟩, count, _, ⟨_, word, third, rfl⟩, payload, _,
      ⟨rest, size, fourth, rfl⟩, rfl, rfl⟩
    have whole : length = frameOverhead + payload.length := by omega
    refine ⟨isOpen, ⟨?_, word⟩, rest, ?_, rfl⟩
    · rw [Message.frameLength, ← whole]
      omega
    · simp only [leaving] at second third fourth
      rw [first, second, third, fourth, whole]
      simp only [Message.frame, Message.frameLength, Wire.wordBytes, List.append_assoc]
  · rintro ⟨isOpen, ⟨length, count⟩, rest, split, rfl⟩
    have word : m.frameLength < Nat.pow 256 8 := Nat.lt_of_le_of_lt length (by decide)
    simp only [Message.frame, Wire.wordBytes, List.append_assoc] at split
    refine ⟨⟨⟩, l, ⟨isOpen, rfl⟩, m.frameLength, _, ⟨_, word, split, rfl⟩, by omega,
      by rw [Message.frameLength]; omega, m.kind.code, _, ⟨_, m.kind.code_lt, rfl, rfl⟩, m.kind, _,
      ⟨rfl, rfl⟩, m.count, _, ⟨_, count, rfl, rfl⟩, m.payload, _, ⟨rest, ?_, rfl, rfl⟩, rfl, rfl⟩
    rw [Message.frameLength, Nat.add_sub_cancel_left]

/-! ## Frames that are cut short -/

/-- Where a step does not run out of bytes, more bytes change nothing: they are
left, and the answer stays what it is. -/
def Incremental (x : ExceptT Error (StateM Link) α) : Prop :=
  ∀ l : Link, l.ended = true → ∃ r rest, x.run.run l = (r, l.leaving rest) ∧
    ((r = .error .closed ∧ rest = []) ∨
      ∀ more, x.run.run (l.leaving (l.incoming ++ more)) = (r, l.leaving (rest ++ more)))

namespace Incremental

theorem pure (a : α) : Incremental (Pure.pure a) :=
  fun l _ => ⟨.ok a, l.incoming, rfl, .inr fun _ => rfl⟩

theorem throw (e : Error) : Incremental (MonadExcept.throw e : ExceptT Error (StateM Link) α) :=
  fun l _ => ⟨.error e, l.incoming, rfl, .inr fun _ => rfl⟩

theorem bind (h : Incremental x) {f : α → ExceptT Error (StateM Link) β}
    (next : ∀ a, Incremental (f a)) : Incremental (x >>= f) := by
  intro l ended
  obtain ⟨r, rest, eq, first⟩ := h l ended
  cases r with
  | error e =>
    refine ⟨.error e, rest, run_bind_error eq, first.imp ?_ fun same more =>
      run_bind_error (same more)⟩
    rintro ⟨closed, nothing⟩
    exact ⟨congrArg _ (Except.error.inj closed), nothing⟩
  | ok a =>
    obtain ⟨r, left, eq', second⟩ := next a (l.leaving rest) ended
    have same := first.resolve_left fun closed => nomatch closed.1
    refine ⟨r, left, (run_bind_ok eq).trans eq', second.imp_right fun same' more => ?_⟩
    exact (run_bind_ok (same more)).trans (same' more)

theorem check {c : Prop} [Decidable c] {e : Error} {next : PUnit → ExceptT Error (StateM Link) α}
    (h : Incremental (next ⟨⟩)) :
    Incremental (if c then MonadExcept.throw e >>= next else next ⟨⟩) := by
  split
  · exact (throw e).bind fun _ => h
  · exact h

theorem take (n : Nat) : Incremental (take n) := by
  intro l ended
  by_cases enough : n ≤ l.incoming.length
  · refine ⟨.ok (l.incoming.take n), l.incoming.drop n, if_pos enough, .inr fun more => ?_⟩
    have whole : n ≤ (l.incoming ++ more).length := by
      rw [List.length_append]
      omega
    rw [← List.take_append_of_le_length enough, ← List.drop_append_of_le_length enough]
    exact if_pos whole
  · refine ⟨.error .closed, [], ?_, .inl ⟨rfl, rfl⟩⟩
    have eq : (Link.take n).run.run l =
        (.error (if l.ended then .closed else .timeout l.timeout), l.leaving []) := if_neg enough
    rw [eq, if_pos ended]

theorem takeNat (width : Nat) : Incremental (takeNat width) :=
  (take width).bind fun bytes => pure (Wire.natOfBytes bytes)

theorem checkOpen : Incremental checkOpen := by
  rintro ⟨incoming, ended, outgoing, timeout, closed⟩ -
  cases closed
  · exact ⟨.ok ⟨⟩, incoming, rfl, .inr fun _ => rfl⟩
  · exact ⟨.error .closed, incoming, rfl, .inr fun _ => rfl⟩

theorem ofCode (n : Nat) : Incremental
    (liftM (MessageKind.ofCode n) : ExceptT Error (StateM Link) MessageKind) := by
  unfold MessageKind.ofCode
  split
  · exact pure _
  · exact throw _

theorem receive : Incremental receive := by
  refine checkOpen.bind fun _ => (takeNat 8).bind fun length => check (check ?_)
  refine (takeNat 1).bind fun code => (ofCode code).bind fun kind =>
    (takeNat 8).bind fun count => ?_
  exact (take _).bind fun payload => pure _

end Incremental

/-- Bytes that begin a frame and do not end it. -/
def IsCut (bytes : Wire.Bytes) : Prop :=
  ∃ m : Message, m.Sendable ∧ bytes <+: m.frame ∧ bytes ≠ m.frame

theorem isCut_nil : IsCut [] :=
  ⟨⟨.result, 0, []⟩, ⟨by decide, by decide⟩, List.nil_prefix, fun h => (nomatch h)⟩

/-- Of a frame that is cut short no message is received. -/
theorem receive_cut (isOpen : l.closed = false) (ended : l.ended = true) (cut : IsCut l.incoming) :
    receive.run.run l = (.error .closed, l.leaving []) := by
  obtain ⟨m, sendable, ⟨more, whole⟩, ne⟩ := cut
  obtain ⟨r, rest, eq, starved | same⟩ := Incremental.receive l ended
  · rw [eq, starved.1, starved.2]
  · have complete : receive.run.run (l.leaving (l.incoming ++ more)) = (.ok m, l.leaving []) :=
      receive_eq_ok.mpr ⟨isOpen, sendable, [], by rw [List.append_nil, ← whole]; rfl, rfl⟩
    have nothing : rest ++ more = [] :=
      congrArg Link.incoming (Prod.mk.inj ((same more).symm.trans complete)).2
    obtain rfl := (List.append_eq_nil_iff.mp nothing).2
    exact absurd ((List.append_nil _).symm.trans whole) ne

/-! ## Streams -/

/-- The answers to a number of receptions, one after the other. -/
def receptions : (count : Nat) → Link → List (Except Error Message)
  | 0, _ => []
  | count + 1, l => (receive.run.run l).1 :: receptions count (receive.run.run l).2

/-- After a frame that is cut short there are no more messages. -/
theorem receptions_cut (isOpen : l.closed = false) (ended : l.ended = true)
    (cut : IsCut l.incoming) (n : Nat) : receptions n l = List.replicate n (.error .closed) := by
  induction n generalizing l with
  | zero => rfl
  | succ n ih =>
    rw [receptions, receive_cut isOpen ended cut, List.replicate_succ]
    exact congrArg _ (ih (l := l.leaving []) isOpen ended isCut_nil)

/-- Whole frames are received in order. -/
theorem receptions_frames (sendable : ∀ m ∈ ms, m.Sendable) {part : Wire.Bytes} (cut : IsCut part)
    (isOpen : l.closed = false) (ended : l.ended = true)
    (split : l.incoming = ms.flatMap Message.frame ++ part) (n : Nat) :
    receptions n l = (ms.map Except.ok ++ List.replicate n (Except.error Error.closed)).take n := by
  induction ms generalizing l n with
  | nil =>
    rw [receptions_cut isOpen ended (split ▸ cut)]
    simp
  | cons m ms ih =>
    obtain ⟨first, others⟩ := List.forall_mem_cons.mp sendable
    cases n with
    | zero => rfl
    | succ n =>
      have received : receive.run.run l =
          (.ok m, l.leaving (ms.flatMap Message.frame ++ part)) :=
        receive_eq_ok.mpr
          ⟨isOpen, first, _, by rw [split, List.flatMap_cons, List.append_assoc], rfl⟩
      have rest := ih (l := l.leaving (ms.flatMap Message.frame ++ part)) others isOpen ended rfl n
      rw [receptions, received, rest, List.map_cons, List.cons_append, List.take_succ_cons]
      -- One refusal more at the end of the list is not asked for.
      rw [List.take_append, List.take_append, List.take_replicate, List.take_replicate,
        Nat.min_eq_left (Nat.sub_le ..), Nat.min_eq_left (by omega)]

/-- The first bytes of a stream are whole frames and one that is cut short. -/
theorem exists_whole (sendable : ∀ m ∈ ms, m.Sendable) (cut : Nat) :
    ∃ k ≤ ms.length,
      (∀ j ≤ ms.length, ((ms.take j).flatMap Message.frame).length ≤ cut ↔ j ≤ k) ∧
      ∃ part, IsCut part ∧
        (ms.flatMap Message.frame).take cut = (ms.take k).flatMap Message.frame ++ part := by
  induction ms generalizing cut with
  | nil => exact ⟨0, Nat.le_refl 0, fun j le => by simpa using le, [], isCut_nil, by simp⟩
  | cons m ms ih =>
    obtain ⟨first, others⟩ := List.forall_mem_cons.mp sendable
    by_cases whole : m.frame.length ≤ cut
    · obtain ⟨k, le, complete, part, isCut, split⟩ := ih others (cut - m.frame.length)
      refine ⟨k + 1, Nat.succ_le_succ le, fun j hj => ?_, part, isCut, ?_⟩
      · cases j with
        | zero => simp
        | succ j =>
          have iff := complete j (Nat.le_of_succ_le_succ hj)
          rw [List.take_succ_cons, List.flatMap_cons, List.length_append]
          omega
      · rw [List.take_succ_cons, List.flatMap_cons, List.flatMap_cons, List.take_append,
          List.take_of_length_le whole, split, List.append_assoc]
    · have short : (m.frame ++ ms.flatMap Message.frame).take cut = m.frame.take cut :=
        List.take_append_of_le_length (by omega)
      refine ⟨0, Nat.zero_le _, fun j hj => ?_, m.frame.take cut,
        ⟨m, first, List.take_prefix .., fun same => ?_⟩, by simpa using short⟩
      · cases j with
        | zero => simp
        | succ j =>
          rw [List.take_succ_cons, List.flatMap_cons, List.length_append]
          omega
      · have length := congrArg List.length same
        rw [List.length_take] at length
        omega

/-! ## Sending -/

/-- A message that can be sent is written as its frame. -/
theorem send_run (isOpen : l.closed = false) (sendable : m.Sendable) :
    (send m).run.run l = (.ok (), { l with outgoing := l.outgoing ++ m.frame }) := by
  rw [send, run_bind_ok (run_checkOpen_eq_ok (a := ()).mpr ⟨isOpen, rfl⟩),
    if_neg (Nat.not_lt.mpr sendable.length_le)]
  rfl

theorem forM_send_run (isOpen : l.closed = false) (sendable : ∀ m ∈ ms, m.Sendable) :
    (ms.forM send).run.run l =
      (.ok (), { l with outgoing := l.outgoing ++ ms.flatMap Message.frame }) := by
  induction ms generalizing l with
  | nil =>
    rw [List.flatMap_nil, List.append_nil]
    rfl
  | cons m ms ih =>
    obtain ⟨first, others⟩ := List.forall_mem_cons.mp sendable
    have others := ih (l := { l with outgoing := l.outgoing ++ m.frame }) isOpen others
    rw [List.flatMap_cons, ← List.append_assoc]
    exact (run_bind_ok (send_run isOpen first)).trans others

/-- Messages that can be sent are written as one stream. Wherever the stream is
cut, all messages whose frames are complete are received from it in order, and
from then on the connection counts as closed. Whatever the bytes that arrive, a
message is only received for its own frame. -/
theorem frames_arrive {near : Link} (isOpen : near.closed = false)
    (sendable : ∀ m ∈ ms, m.Sendable) :
    ∃ stream, (ms.forM send).run.run near =
        (.ok (), { near with outgoing := near.outgoing ++ stream }) ∧
      stream = ms.flatMap Message.frame ∧
      (∀ cut, ∃ k ≤ ms.length,
        (∀ j ≤ ms.length, ((ms.take j).flatMap Message.frame).length ≤ cut ↔ j ≤ k) ∧
        ∀ far : Link, far.closed = false → far.ended = true → far.incoming = stream.take cut →
          ∀ n, receptions n far =
            ((ms.take k).map Except.ok ++ List.replicate n (Except.error Error.closed)).take n) ∧
      ∀ (far far' : Link) (m : Message), receive.run.run far = (.ok m, far') →
        m.Sendable ∧
          ∃ rest, far.incoming = m.frame ++ rest ∧ far' = { far with incoming := rest } := by
  refine ⟨_, forM_send_run isOpen sendable, rfl, fun cut => ?_, fun far far' m received => ?_⟩
  · obtain ⟨k, le, complete, part, isCut, split⟩ := exists_whole sendable cut
    refine ⟨k, le, complete, fun far isOpen ended arrived n => ?_⟩
    have some : ∀ m ∈ ms.take k, m.Sendable := fun m hm => sendable m (List.mem_of_mem_take hm)
    exact receptions_frames some isCut isOpen ended (arrived.trans split) n
  · exact (receive_eq_ok.mp received).2

/-- Two messages, whose frames take 21 and 17 bytes. -/
def twoMessages : List Message :=
  [⟨.reluRequest, 3, [1, 2, 3, 4]⟩, ⟨.result, 0, []⟩]

/-- Of thirty bytes only the first of them is received. -/
theorem frames_arrive_two :
    (∀ m ∈ twoMessages, m.Sendable) ∧
      receptions 3 ⟨(twoMessages.flatMap Message.frame).take 30, true, [], 5000, false⟩ =
        [.ok ⟨.reluRequest, 3, [1, 2, 3, 4]⟩, .error .closed, .error .closed] := by
  have sendable : ∀ m ∈ twoMessages, m.Sendable :=
    List.forall_mem_cons.mpr ⟨⟨by decide, by decide⟩,
      List.forall_mem_singleton.mpr ⟨by decide, by decide⟩⟩
  have isOpen : (⟨[], false, [], 5000, false⟩ : Link).closed = false := rfl
  obtain ⟨_, -, rfl, cuts, -⟩ := frames_arrive isOpen sendable
  obtain ⟨k, le, complete, answers⟩ := cuts 30
  have one : 1 ≤ k := (complete 1 (by decide)).mp (by decide)
  have notTwo : ¬2 ≤ k := fun two => absurd ((complete 2 (by decide)).mpr two) (by decide)
  obtain rfl : k = 1 := by omega
  exact ⟨sendable, answers _ rfl rfl rfl 3⟩

end Link

end CipherFlow.Session
