import CipherFlow.Proofs.Run.Nodes
import CipherFlow.Proofs.Session.Completion
import CipherFlow.Proofs.Tensor.Returning

/-!
# Shapes that arrive

A shape is sent before the elements of an input or a result. The side that
reads it accepts no more than `maxRank` axes; the side that sends it does not
ask how many there are, and neither encryption nor the evaluation of a graph
limits them. So shapes of few axes arrive as they were sent, with the elements
behind them untouched, and all others are sent as well and refused.

`shapes_arrive` is about both directions: the input of a client, and the result of a
run.

How the proof goes. `arrives_shapeBytes` is about the bytes of one shape before any
others: the reader compares the number of axes with `maxRank` before it reads an
extent. The rest is to find these bytes in the messages, behind the head of an input
(`drop_inputBytes`) and at the front of a result. That both are sent whatever the
shape is shown by carrying the sending out.
-/

namespace CipherFlow

/-- A shape whose rank and extents are words. -/
structure Shape.OfWords (s : Shape) : Prop where
  rank : s.length < wordSize
  extents : s.InWords

instance (s : Shape) : Decidable s.OfWords :=
  decidable_of_iff (s.length < wordSize ∧ ∀ d ∈ s, d < wordSize)
    ⟨fun ⟨rank, extents⟩ => ⟨rank, extents⟩, fun words => ⟨words.rank, words.extents⟩⟩

namespace Session

open Answering
open CipherFlow.Wire (Bytes)

variable {ctx : Context} {s : Shape}

/-! ## One shape -/

/-- What is read where a shape stands before elements: the shape, if it has few
enough axes, and the elements are left. -/
def Arrives (s : Shape) (bytes elements : Bytes) : Prop :=
  readShape.run bytes =
    if s.length ≤ maxRank then .ok (s, elements) else .error (.malformed (.rank s.length))

theorem arrives_shapeBytes (words : s.OfWords) (elements : Bytes) :
    Arrives s (shapeBytes s ++ elements) elements := by
  unfold Arrives
  split
  · rename_i few
    exact (readShape_accepts _ _ _).mpr ⟨⟨few, words.extents⟩, rfl⟩
  · rename_i many
    rw [readShape, shapeBytes, List.append_assoc,
      (field_accepts Wire.readWord_accepts).bind_write words.rank, if_pos (Nat.not_le.mp many)]
    rfl

/-! ## Shapes in messages -/

/-- The bytes of an input before its shape: packing, type of numbers and batch
size. -/
def inputHeadSize : Nat := 10

theorem drop_inputBytes (i : Input) :
    (inputBytes ctx i).drop inputHeadSize =
      shapeBytes i.type.shape ++ i.handles.flatMap (Wire.writtenBytes ctx) := by
  rw [inputBytes, ← List.append_assoc, ← List.append_assoc]
  refine List.drop_left' ?_
  simp [Wire.length_natBytes, Wire.length_wordBytes, inputHeadSize]

/-- An encrypted input is sent, whatever its shape. -/
theorem arrives_execute [Primitives] {params : Params}
    (ofParams : Context.ofParams params = .ok ctx)
    {keys : KeySet} {type : TensorType} {batch : Nat} {data : List Float} {packing : Packing}
    {t : BatchedTensor} {coins coins' coins₁ coins₂ : Coins}
    (generated : KeySet.generate ctx coins = .ok (keys, coins'))
    (encrypted : (BatchedTensor.encrypt ⟨ctx, keys.publicKey, keys.relinKey⟩ type batch data
      packing).run coins₁ = .ok (t, coins₂)) (words : type.shape.OfWords) :
    ∃ m elements,
      Message.execute ctx ⟨packing, type, batch, Backend.cipherElements t.values⟩ = .ok m ∧
      Wire.handlesBytes ctx (Backend.cipherElements t.values) = .ok elements ∧
      Arrives type.shape (m.payload.drop inputHeadSize) elements := by
  have sound := Context.sound_of_ofParams ofParams
  have sized := Context.sized_of_ofParams ofParams
  have holds := holdsKeys_of_generate ofParams generated
  obtain ⟨rfl, rfl, room, tensor⟩ := BatchedTensor.of_encrypt sound sized holds encrypted
  obtain ⟨handles, same, fits, -⟩ := tensor.exists_input room
  rw [same, BatchedTensor.cipherElements_cipher]
  refine ⟨_, _, Message.execute_ok fits, handlesBytes_ok fits.handles, ?_⟩
  rw [drop_inputBytes]
  exact arrives_shapeBytes words _

/-- And so is a result, if its elements can be written. -/
theorem arrives_result {handles : List Handle} {elements : Bytes} (words : s.OfWords)
    (written : Wire.handlesBytes ctx handles = .ok elements) :
    ∃ m, Message.result ctx s handles = .ok m ∧ Arrives s m.payload elements := by
  refine ⟨⟨.result, handles.length, shapeBytes s ++ elements⟩, ?_, arrives_shapeBytes words _⟩
  rw [Message.result, written]
  rfl

/-- Shapes of at most `maxRank` axes are read as they were sent, before the
elements, and all others are refused: those of inputs that a client has
encrypted, and those of encrypted results of a run, whatever the graph. -/
theorem shapes_arrive [Primitives] {params : Params}
    (ofParams : Context.ofParams params = .ok ctx) :
    (∀ (keys : KeySet) (coins coins' coins₁ coins₂ : Coins) (type : TensorType) (batch : Nat)
        (data : List Float) (packing : Packing) (t : BatchedTensor),
      KeySet.generate ctx coins = .ok (keys, coins') →
      (BatchedTensor.encrypt ⟨ctx, keys.publicKey, keys.relinKey⟩ type batch data packing).run
        coins₁ = .ok (t, coins₂) →
      type.shape.OfWords →
      ∃ m elements,
        Message.execute ctx ⟨packing, type, batch, Backend.cipherElements t.values⟩ = .ok m ∧
        Wire.handlesBytes ctx (Backend.cipherElements t.values) = .ok elements ∧
        Arrives type.shape (m.payload.drop inputHeadSize) elements) ∧
    (∀ (σ ε : Type) (b : Backend) (g : Graph) (inputs : List BatchedTensor)
        (oracle : Run.Oracle σ ε) (coins : Coins) (state state' : σ) (outs : List BatchedTensor),
      (b.call g inputs oracle).runFrom coins state = (.ok outs, state') →
      (∀ id ∈ g.results, ∀ type, g.type? id = some type → type.shape.OfWords) →
      ∀ t ∈ outs, ∀ handles, Server.encryptedElements t.values = .ok handles →
        ∀ elements, Wire.handlesBytes ctx handles = .ok elements →
          ∃ m, Message.result ctx t.type.shape handles = .ok m ∧
            Arrives t.type.shape m.payload elements) := by
  constructor
  · intro keys coins coins' coins₁ coins₂ type batch data packing t generated encrypted words
    exact arrives_execute ofParams generated encrypted words
  · intro σ ε b g inputs oracle coins state state' outs run words t ht handles _ elements written
    have types := Backend.types_of_call (may_of_runFrom run)
    obtain ⟨i, hi, rfl⟩ := List.getElem_of_mem ht
    have node := types.get (types.length_eq ▸ hi) hi
    exact arrives_result (words _ (List.get_mem _ _) _ node) written

/-! ## Few and many axes -/

attribute [local instance] Primitives.coarse

open Duplex

/-- A number spread over as many axes as asked for. -/
def spread (rank : Nat) : Graph where
  nodes := [some ⟨.parameter 0, ⟨.f64, [1]⟩, [], 1⟩,
    some ⟨.broadcast, ⟨.f64, List.replicate rank 1⟩, [0], 1⟩]
  parameters := [0]
  results := [1]

/-- One encrypted element with as many axes. -/
def held (h : Handle) (rank : Nat) : BatchedTensor :=
  ⟨⟨.f64, List.replicate rank 1⟩, 1, [.cipher h]⟩

/-- The type of a pair of numbers with one axis, and as many more. -/
def column (rank : Nat) : TensorType :=
  ⟨.f32, 2 :: List.replicate rank 1⟩

/-- A server that has been sent the keys. -/
def withKeys : Backend :=
  ⟨Pair.evaluator, none, .real⟩

theorem exists_encrypt {rank : Nat} (h : rank = 1 ∨ rank = 8) : ∃ t coins,
    (BatchedTensor.encrypt Pair.evaluator (column rank) 1 Pair.numbers .real).run (Coins.ofSeed 1) =
      .ok (t, coins) := by
  have some : ((BatchedTensor.encrypt Pair.evaluator (column rank) 1 Pair.numbers .real).run
      (Coins.ofSeed 1)).toOption.isSome = true := by
    rcases h with rfl | rfl <;> decide +kernel
  obtain ⟨⟨t, coins⟩, eq⟩ := Option.isSome_iff_exists.mp some
  exact ⟨t, coins, eq_ok_of_toOption eq⟩

theorem call_spread (h : Handle) {rank : Nat} (few : rank = 2 ∨ rank = 9) :
    (withKeys.call (spread rank) [held h 1] (.ofScript : Run.Oracle Run.Script Unit)).runFrom
      default ⟨[], []⟩ = (.ok [held h rank], ⟨[], []⟩) := by
  have order : (spread rank).order = .ok [0, 1] := by rcases few with rfl | rfl <;> cbv
  unfold Backend.call
  rw [order]
  rcases few with rfl | rfl <;> with_unfolding_all rfl

theorem exists_handlesBytes {h : Handle} (own : h ∈ Pair.elements) :
    ∃ elements, Wire.handlesBytes Context.tiny [h] = .ok elements :=
  ⟨_, handlesBytes_ok (List.forall_mem_singleton.mpr (Pair.elements_eq.2 h own))⟩

/-- Two axes arrive on either way, before two encrypted numbers and before one
of them. -/
theorem shapes_arrive_two :
    Context.ofParams Context.tiny.params = .ok Context.tiny ∧
    (∀ h ∈ Pair.elements, h.isZero = false) ∧
    ∃ h ∈ Pair.elements,
      (∃ t coins, (BatchedTensor.encrypt Pair.evaluator (column 1) 1 Pair.numbers .real).run
          (Coins.ofSeed 1) = .ok (t, coins) ∧
        ∃ m elements, Message.execute Context.tiny
            ⟨.real, column 1, 1, Backend.cipherElements t.values⟩ = .ok m ∧
          readShape.run (m.payload.drop inputHeadSize) = .ok ([2, 1], elements)) ∧
      (withKeys.call (spread 2) [held h 1] (.ofScript : Run.Oracle Run.Script Unit)).runFrom
          default ⟨[], []⟩ = (.ok [held h 2], ⟨[], []⟩) ∧
        ∃ m elements, Message.result Context.tiny [1, 1] [h] = .ok m ∧
          readShape.run m.payload = .ok ([1, 1], elements) := by
  obtain ⟨inputs, results⟩ := shapes_arrive Context.ofParams_tiny
  obtain ⟨t, coins, encrypted⟩ := exists_encrypt (.inl rfl)
  obtain ⟨m, elements, sent, -, arrives⟩ := inputs Pair.keys _ _ _ coins (column 1) 1 Pair.numbers
    .real t Pair.generate_eq encrypted (by decide)
  obtain ⟨h, own⟩ := Pair.exists_element
  have words : ∀ id ∈ (spread 2).results, ∀ type, (spread 2).type? id = some type →
      type.shape.OfWords := by
    intro id hid type h
    obtain rfl := List.mem_singleton.mp hid
    obtain rfl := Option.some.inj h
    decide
  have run := call_spread h (.inl rfl)
  obtain ⟨bytes, written⟩ := exists_handlesBytes own
  obtain ⟨m', sent', arrives'⟩ := results _ _ _ (spread 2) _ _ _ _ _ _ run words (held h 2)
    List.mem_cons_self [h] rfl bytes written
  exact ⟨Context.ofParams_tiny, Pair.encrypted, _, own, ⟨t, coins, encrypted, m, elements, sent,
    arrives⟩, run, m', bytes, sent', arrives'⟩

/-- Nine axes are sent on either way, and refused. -/
theorem nine_axes_refused :
    ∃ h ∈ Pair.elements,
      (∃ t coins, (BatchedTensor.encrypt Pair.evaluator (column 8) 1 Pair.numbers .real).run
          (Coins.ofSeed 1) = .ok (t, coins) ∧
        ∃ m, Message.execute Context.tiny
            ⟨.real, column 8, 1, Backend.cipherElements t.values⟩ = .ok m ∧
          readShape.run (m.payload.drop inputHeadSize) = .error (.malformed (.rank 9))) ∧
      (withKeys.call (spread 9) [held h 1] (.ofScript : Run.Oracle Run.Script Unit)).runFrom
          default ⟨[], []⟩ = (.ok [held h 9], ⟨[], []⟩) ∧
        ∃ m, Message.result Context.tiny (held h 9).type.shape [h] = .ok m ∧
          readShape.run m.payload = .error (.malformed (.rank 9)) := by
  obtain ⟨t, coins, encrypted⟩ := exists_encrypt (.inr rfl)
  obtain ⟨m, _, sent, -, refused⟩ :=
    arrives_execute Context.ofParams_tiny Pair.generate_eq encrypted (by decide)
  obtain ⟨h, own⟩ := Pair.exists_element
  obtain ⟨bytes, written⟩ := exists_handlesBytes own
  have words : Shape.OfWords (List.replicate 9 1) := by decide
  obtain ⟨m', sent', refused'⟩ := arrives_result words written
  exact ⟨_, own, ⟨t, coins, encrypted, m, sent, refused⟩, call_spread h (.inr rfl), m', sent',
    refused'⟩

end Session

end CipherFlow
