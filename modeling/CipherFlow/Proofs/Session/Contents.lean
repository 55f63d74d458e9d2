import CipherFlow.Proofs.Run.Layout
import CipherFlow.Proofs.Session.Returns
import CipherFlow.Proofs.Wire.Keys

/-!
# What is read from messages

Whatever bytes a message has, reading it ends with a value that meets the
conditions of its kind, or with an error that comes from no fault. The fields
come first, then the contents of each kind of message.

Main lemmas: `readHandle_returns` for elements, `readPublicKey_returns` and
`readRelinKey_returns` for keys, and one for the contents of each kind of message.
They are what a server or a client may assume of anything that its peer has sent.
-/

namespace CipherFlow

open Returning
open CipherFlow.Ring (Basis Poly)

/-! ## Contexts

A context is only ever refused. Accepted parameters are so small that nothing which
is reserved for a context comes near the limits. -/

/-- Primes are listed, or there are too few of them, as long as the list has room and the
stride fits a word. -/
theorem Prime.listBelow_returns {bits count degree : Nat} {exclude : List Nat}
    (fits : 8 * count < Nat.pow 2 63) (pos : degree ≠ 0) (small : 2 * degree < wordSize) :
    Returns (Prime.listBelow bits count degree exclude) fun _ => True := by
  have stride : Prime.stride degree = .ok (2 * degree) := by
    rw [Prime.stride, if_neg pos, Fault.checkSize, if_pos small]
  have reserve : Fault.reserve 8 count = .ok () := if_pos fits
  refine returns_ite (fun _ => rfl) fun _ => ?_
  refine returns_bind (P := fun _ => True) (by rw [reserve]; trivial) fun _ _ => ?_
  refine returns_ite (fun _ => trivial) fun _ => ?_
  refine returns_bind (P := fun _ => True) (by rw [stride]; trivial) fun s _ => ?_
  split
  · trivial
  · rfl

theorem Ring.Basis.ofPrimes_returns (degree : Nat) (primes : List Nat) :
    Returns (Basis.ofPrimes degree primes) fun _ => True := by
  unfold Basis.ofPrimes
  split
  · rfl
  split
  · rfl
  cases Basis.firstUnusable [] primes with
  | none => trivial
  | some p => rfl

/-- The tables of an embedding have room for every degree that is accepted. -/
theorem Slots.Embedding.ofDegree_returns [Primitives] {degree : Nat}
    (small : degree ≤ Params.maxRingDegree) :
    Returns (Slots.Embedding.ofDegree degree) fun _ => True := by
  have bound : degree ≤ 32768 := small
  have size : Fault.checkSize (2 * degree) = .ok (2 * degree) :=
    if_pos (lt_of_le_of_lt (show _ ≤ 65536 by omega) (by decide))
  have reserve : Fault.reserve 8 (degree / 2) = .ok () :=
    if_pos (lt_of_le_of_lt (show _ ≤ 262144 by omega) (by decide))
  refine returns_ite (fun _ => rfl) fun _ => ?_
  rw [size, reserve]
  trivial

theorem Context.Sized.slotCount_le {ctx : Context} (sized : ctx.Sized) : ctx.slotCount ≤ 16384 := by
  have degree : ctx.params.ringDegree ≤ 32768 := sized.params.degree
  show ctx.params.ringDegree / 2 ≤ 16384
  omega

theorem Context.Sized.capacity_le {ctx : Context} (sized : ctx.Sized) (packing : Packing) :
    packing.capacity ctx.slotCount ≤ 32768 := by
  have slots := sized.slotCount_le
  cases packing
  · show ctx.slotCount * 1 ≤ 32768
    omega
  · show ctx.slotCount * 2 ≤ 32768
    omega

/-- A context is made of parameters, or they are refused. -/
theorem Context.ofParams_returns [Primitives] (params : Params) :
    Returns (Context.ofParams params) fun ctx => Context.ofParams params = .ok ctx := by
  refine returns_mono (P := fun _ => True) ?_ fun _ eq _ => eq
  unfold Context.ofParams Scheme.checkParams
  cases accepted : params.problem? with
  | some problem => rfl
  | none =>
    have bounded := Params.bounded accepted
    have degree : params.ringDegree ≤ 32768 := bounded.degree
    have levels : params.levels ≤ 32 := bounded.levels
    have pos : params.ringDegree ≠ 0 := by
      intro zero
      simp [Params.problem?, zero] at accepted
    -- With degrees up to 32768 and at most 32 levels all sizes fit.
    have small : 2 * params.ringDegree < wordSize :=
      lt_of_le_of_lt (show _ ≤ 65536 by omega) (by decide)
    have room : 8 * params.levels < Nat.pow 2 63 :=
      lt_of_le_of_lt (show _ ≤ 256 by omega) (by decide)
    refine returns_bind (P := (· = params)) rfl fun p hp => ?_
    subst hp
    refine returns_bind (returns_mapError (Prime.listBelow_returns (by decide) pos small))
      fun base _ => ?_
    refine returns_bind (returns_mapError (Prime.listBelow_returns room pos small))
      fun rescaling _ => ?_
    refine returns_bind (returns_mapError (Ring.Basis.ofPrimes_returns _ _)) fun basis _ => ?_
    refine returns_bind (returns_mapError (Slots.Embedding.ofDegree_returns bounded.degree))
      fun _ _ => ?_
    exact returns_pure trivial

/-! ## Evaluators and tensors -/

theorem Evaluator.ofKeys_returns (ctx : Context) (publicKey : PublicKey) (relinKey : RelinKey) :
    Returns (Evaluator.ofKeys ctx publicKey relinKey) (· = ⟨ctx, publicKey, relinKey⟩) := by
  unfold Evaluator.ofKeys
  split
  · rfl
  · split
    · rfl
    · exact rfl

/-- Keys over the top basis make an evaluator. -/
theorem Evaluator.ofKeys_ok {ctx : Context} {publicKey : PublicKey} {relinKey : RelinKey}
    (overPublic : publicKey.IsOver ctx.topBasis) (overRelin : relinKey.IsOver ctx.topBasis) :
    Evaluator.ofKeys ctx publicKey relinKey = .ok ⟨ctx, publicKey, relinKey⟩ := by
  have same : publicKey.basis.primes = ctx.primes := by
    rw [PublicKey.basis, overPublic.b.basis]
    rfl
  rw [Evaluator.ofKeys, if_neg (not_not.mpr same)]
  exact if_neg (not_not.mpr overRelin.length)

theorem BatchedTensor.pack_returns (shape : Shape) (batch : Nat) :
    Returns (pack shape batch) fun _ => True := by
  unfold pack
  split
  · trivial
  · split
    · rfl
    · split
      · trivial
      · rfl

theorem BatchedTensor.ofValues_returns (type : TensorType) (batch : Nat) (values : List Element) :
    Returns (ofValues type batch values) (· = ⟨type, batch, values⟩) := by
  refine returns_mono (P := fun _ => True) ?_ fun t eq _ => (ofValues_eq_ok_iff.mp eq).2.2
  refine returns_ite (fun _ => rfl) fun _ => returns_bind (pack_returns _ _) fun packed _ => ?_
  exact returns_ite (fun _ => rfl) fun _ => trivial

namespace Wire

/-! ## Fields

Reading a field fails where the bytes end, and nowhere else. A reader that is put
together from others returns if each of them does. -/

variable {α : Type} {P : α → Prop} {ctx : Context}

theorem takeBytes_returns (count : Nat) : Returns (takeBytes count) fun _ => True := by
  induction count with
  | zero => exact returns_pure trivial
  | succ count ih =>
    intro bytes
    cases bytes with
    | nil => rfl
    | cons b bytes => exact returns_bind (ih bytes) fun _ _ => returns_pure trivial

theorem readNat_returns (width : Nat) : Returns (readNat width) fun _ => True :=
  returns_bind (takeBytes_returns width) fun _ _ => returns_pure trivial

theorem readFloat_returns : Returns readFloat fun _ => True :=
  returns_bind (readNat_returns 8) fun _ _ => returns_pure trivial

theorem readLevelId_returns : Returns readLevelId fun _ => True :=
  returns_bind (readNat_returns 8) fun _ _ => returns_bind (readNat_returns 8) fun _ _ =>
    returns_bind (readNat_returns 8) fun _ _ => returns_bind (readNat_returns 8) fun _ _ =>
      returns_pure trivial

theorem readMany_returns {read : Reader α} (h : Returns read P) (count : Nat) :
    Returns (readMany read count) fun xs => xs.length = count ∧ ∀ x ∈ xs, P x := by
  induction count with
  | zero => exact returns_pure ⟨rfl, fun x hx => nomatch hx⟩
  | succ count ih =>
    refine returns_bind h fun x hx => returns_bind ih fun xs hxs => returns_pure ?_
    exact ⟨congrArg (· + 1) hxs.1, List.forall_mem_cons.mpr ⟨hx, hxs.2⟩⟩

/-! ## Ring elements and ciphertexts

That a reader returns says nothing of what it gives. This is taken from the bytes it
accepts: what is read from them meets its conditions (`of_readHeader`,
`of_readHandle`), so here no condition has to be followed through a reader. -/

theorem channelProblem_not_fault {degree : Nat} {channels : List (List Nat)} {primes : List Nat}
    {e : Ring.Error} (h : Poly.channelProblem degree channels primes = some e) :
    Faulty.isFault e = false := by
  induction channels generalizing primes with
  | nil => exact nomatch h
  | cons c channels ih =>
    cases primes with
    | nil => exact nomatch h
    | cons q primes =>
      rw [Poly.channelProblem] at h
      split at h
      · obtain rfl := Option.some.inj h
        rfl
      · split at h
        · obtain rfl := Option.some.inj h
          rfl
        · exact ih h

theorem readResidue_returns (q : Nat) : Returns (readResidue q) fun _ => True := by
  refine returns_bind (readNat_returns 8) fun value _ => returns_ite (fun _ _ => rfl) fun _ => ?_
  exact returns_pure trivial

theorem readPoly_returns (B : Basis) : Returns (readPoly B) fun _ => True := by
  have residue : ∀ q ∈ B.primes, Returns (readMany (readResidue q) B.degree) fun _ => True :=
    fun q _ => returns_weaken (readMany_returns (readResidue_returns q) B.degree) fun _ => trivial
  refine returns_bind (returns_mapM residue) fun channels _ => returns_lift (returns_mapError ?_)
  unfold Poly.ofChannels
  split
  · rfl
  · cases problem : Poly.channelProblem B.degree channels B.primes with
    | none => trivial
    | some e => exact channelProblem_not_fault problem

/-- A header that is read is one of the context. -/
theorem readHeader_returns : Returns (readHeader ctx) fun h => IsHeader ctx h.1 h.2.1 h.2.2 := by
  refine returns_weaken (P := fun _ => True) ?_ fun {_ h _} read => (of_readHeader read).1
  refine returns_bind readLevelId_returns fun id _ => ?_
  cases ctx.levelOf id with
  | none => exact fun _ => rfl
  | some level =>
    refine returns_bind (readNat_returns 1) fun flag _ => returns_ite (fun _ _ => rfl) fun _ => ?_
    refine returns_bind (readNat_returns 8) fun count _ => returns_ite (fun _ _ => rfl) fun _ => ?_
    refine returns_bind (readNat_returns 8) fun degree _ => returns_ite (fun _ _ => rfl) fun _ => ?_
    refine returns_bind (readNat_returns 8) fun chain _ => returns_ite (fun _ _ => rfl) fun _ => ?_
    refine returns_bind readFloat_returns fun scale _ => returns_ite (fun _ _ => rfl) fun _ => ?_
    exact returns_pure trivial

/-- An element that is read is well-formed. -/
theorem readHandle_returns (sized : ctx.Sized) (packing : Packing) :
    Returns (readHandle ctx packing) (Handle.WellFormed ctx packing) := by
  refine returns_weaken (P := fun _ => True) ?_ fun read => (of_readHandle sized read).1.1
  refine returns_bind readHeader_returns fun ⟨level, count, scale⟩ header => ?_
  refine returns_ite (fun _ => returns_pure trivial) fun _ => ?_
  refine returns_bind (P := (· = ctx.basisAt level)) ?_ fun basis _ => ?_
  · exact returns_lift (returns_mapError (returns_of_ok (Context.basis_ok header.named.lt) rfl))
  · exact returns_bind (readMany_returns (readPoly_returns basis) count) fun _ _ =>
      returns_pure trivial

theorem readHandles_returns (sized : ctx.Sized) (packing : Packing) (count : Nat) :
    Returns (readHandles ctx packing count) fun hs =>
      hs.length = count ∧ ∀ h ∈ hs, h.WellFormed ctx packing :=
  readMany_returns (readHandle_returns sized packing) count

/-- The bytes of well-formed elements. -/
theorem mapM_handleBytes_ok {hs : List Handle} (h : ∀ x ∈ hs, x.level < ctx.primes.length) :
    hs.mapM (handleBytes ctx) = .ok (hs.map (writtenBytes ctx)) := by
  rw [mapM_eq_ok_iff, List.forall₂_map_right_iff, List.forall₂_same]
  exact fun x hx => handleBytes_ok (h x hx)

theorem handlesBytes_ok {hs : List Handle} (h : ∀ x ∈ hs, x.level < ctx.primes.length) :
    handlesBytes ctx hs = .ok (hs.flatMap (writtenBytes ctx)) := by
  rw [handlesBytes, mapM_handleBytes_ok h, List.flatMap]
  rfl

/-- Elements are written, or one of them is at a level that the context does not have. -/
theorem handlesBytes_returns (hs : List Handle) : Returns (handlesBytes ctx hs) fun _ => True := by
  have each : ∀ h ∈ hs, Returns (handleBytes ctx h) fun _ => True := by
    intro h _
    refine returns_bind (P := fun _ => True) (returns_mapError ?_) fun _ _ => trivial
    refine returns_bind (P := fun _ => True) ?_ fun _ _ => trivial
    unfold Context.basis
    split
    · trivial
    · rfl
  exact returns_bind (returns_mapM each) fun _ _ => trivial

/-! ## Parameters and keys -/

/-- Parameters that are read have passed the check. -/
theorem readParams_returns : Returns readParams (·.problem? = none) := by
  refine returns_weaken (P := fun _ => True) ?_
    fun read => ((readParams_accepts _ _ _).mp read).1
  refine returns_bind (readNat_returns 8) fun _ _ => returns_bind (readNat_returns 4) fun _ _ =>
    returns_bind (readNat_returns 4) fun _ _ => returns_bind (readNat_returns 8) fun _ _ =>
    returns_bind readFloat_returns fun _ _ => returns_bind (readNat_returns 8) fun _ _ =>
    returns_lift (returns_mapError ?_)
  unfold Scheme.checkParams
  split
  · rfl
  · trivial

theorem readTopLevel_returns : Returns (readTopLevel ctx) fun _ => True :=
  returns_bind readLevelId_returns fun _ _ =>
    returns_ite (fun _ => returns_pure trivial) fun _ _ => rfl

theorem readPair_returns (B : Basis) : Returns (readPair B) fun _ => True :=
  returns_bind (readPoly_returns B) fun _ _ => returns_bind (readPoly_returns B) fun _ _ =>
    returns_pure trivial

/-- A public key that is read is over the top basis. -/
theorem readPublicKey_returns (sound : ctx.Sound) (sized : ctx.Sized) :
    Returns (readPublicKey ctx) (PublicKey.IsOver ctx.topBasis) := by
  refine returns_weaken (P := fun _ => True) ?_
    fun read => ((readPublicKey_run sound sized).mp read).1
  refine returns_bind readTopLevel_returns fun basis _ =>
    returns_bind (readPair_returns basis) fun ⟨b, a⟩ _ => returns_lift (returns_mapError ?_)
  unfold PublicKey.ofParts
  split
  · trivial
  · rfl

/-- So is a relinearisation key, with a digit for each prime. -/
theorem readRelinKey_returns (sound : ctx.Sound) (sized : ctx.Sized) :
    Returns (readRelinKey ctx) (RelinKey.IsOver ctx.topBasis) := by
  refine returns_weaken (P := fun _ => True) ?_
    fun read => ((readRelinKey_run sound sized).mp read).1
  refine returns_bind readTopLevel_returns fun basis _ =>
    returns_bind (readNat_returns 8) fun count _ => returns_ite (fun _ _ => rfl) fun _ =>
    returns_bind (readMany_returns (readPair_returns basis) count) fun digits _ =>
    returns_lift (returns_mapError ?_)
  unfold RelinKey.ofDigits
  split
  · rfl
  · simp only
    split
    · rfl
    · split
      · trivial
      · rfl

end Wire

namespace Session

/-! ## Messages

A message is read to its last byte, so each kind of message can also be refused for
what is left over. -/

variable {α : Type} {P : α → Prop} {ctx : Context}

theorem lift_returns {r : Wire.Reader α} (h : Returns r P) : Returns (liftM r : Reader α) P :=
  fun bytes => returns_mapError (h bytes)

/-- A field of a message: bytes that end in it are reported as such. -/
theorem field_returns {r : Wire.Reader α} (h : Returns r P) : Returns (field r) P := by
  intro bytes
  have read := h bytes
  show Returns (field r bytes) _
  rw [field]
  cases eq : r.run bytes with
  | ok x => exact ok_of_returns read eq
  | error e =>
    have answer := error_of_returns read eq
    cases e <;> exact answer

theorem readAll_returns {r : Reader α} (h : Returns r P) (payload : Wire.Bytes) :
    Returns (readAll r payload) P := by
  refine returns_bind (h payload) fun ⟨a, rest⟩ ha => ?_
  refine returns_bind (P := fun _ => True) (returns_mapError ?_) fun _ _ => returns_pure ha
  unfold Wire.checkConsumed
  split
  · trivial
  · rfl

/-- A shape that is read has few axes. -/
theorem readShape_returns : Returns readShape (·.length ≤ maxRank) := by
  refine returns_bind (field_returns (Wire.readNat_returns 8)) fun rank _ =>
    returns_ite (fun _ _ => rfl) fun few => ?_
  refine field_returns fun bytes => returns_mono
    (Wire.readMany_returns (Wire.readNat_returns 8) rank bytes) fun _ _ read => ?_
  rw [read.1]
  exact Nat.not_lt.mp few

theorem readParameters_returns (m : Message) :
    Returns m.readParameters (·.problem? = none) :=
  readAll_returns (lift_returns Wire.readParams_returns) m.payload

theorem readEvaluationKeys_returns (sound : ctx.Sound) (sized : ctx.Sized) (m : Message) :
    Returns (m.readEvaluationKeys ctx) fun k =>
      k.1.IsOver ctx.topBasis ∧ k.2.IsOver ctx.topBasis := by
  refine readAll_returns ?_ m.payload
  refine returns_bind (lift_returns (Wire.readPublicKey_returns sound sized)) fun pk hpk => ?_
  refine returns_bind (lift_returns (Wire.readRelinKey_returns sound sized)) fun rk hrk => ?_
  exact returns_pure ⟨hpk, hrk⟩

/-- An input that fits its context: the lanes of a batch have room in a
ciphertext, and the shape has a place for each lane of each element. -/
structure Input.Fits (ctx : Context) (i : Input) : Prop where
  batch_pos : 1 ≤ i.batch
  batch_le : i.batch ≤ i.packing.capacity ctx.slotCount
  size : i.type.shape.size? = some (i.handles.length * i.batch)
  handles : ∀ h ∈ i.handles, h.WellFormed ctx i.packing

theorem readElementType_returns : Returns readElementType fun _ => True := by
  refine returns_bind (field_returns (Wire.readNat_returns 1)) fun code _ => ?_
  cases ElementType.ofCode? code with
  | none => exact fun _ => rfl
  | some t => exact returns_pure trivial

/-- An input that is read fits: what `Input.Fits` asks for has been checked on the way,
one check for each field. -/
theorem readExecute_returns (sized : ctx.Sized) (m : Message) :
    Returns (m.readExecute ctx) (Input.Fits ctx) := by
  refine readAll_returns ?_ m.payload
  refine returns_bind (field_returns (Wire.readNat_returns 1)) fun flag _ => ?_
  refine returns_bind readElementType_returns fun elementType _ => ?_
  refine returns_bind (field_returns (Wire.readNat_returns 8)) fun batch _ => ?_
  refine returns_ite (fun _ _ => rfl) fun sizes => ?_
  obtain ⟨pos, le⟩ := not_or.mp sizes
  refine returns_bind readShape_returns fun shape _ => returns_ite (fun _ _ => rfl) fun size => ?_
  refine returns_bind (lift_returns (Wire.readHandles_returns sized _ m.count))
    fun handles read => ?_
  -- The last check compared the lanes of all elements with the size of the shape.
  refine returns_pure ⟨Nat.one_le_iff_ne_zero.mpr pos, Nat.not_lt.mp le, ?_, read.2⟩
  rw [not_not.mp size, read.1]

theorem readElements_returns (sized : ctx.Sized) (packing : Packing) (count : Nat)
    (payload : Wire.Bytes) :
    Returns (readElements ctx packing count payload) fun hs =>
      hs.length = count ∧ ∀ h ∈ hs, h.WellFormed ctx packing :=
  readAll_returns (lift_returns (Wire.readHandles_returns sized packing count)) payload

theorem readResult_returns (sized : ctx.Sized) (packing : Packing) (m : Message) :
    Returns (m.readResult ctx packing) fun r =>
      r.2.length = m.count ∧ ∀ h ∈ r.2, h.WellFormed ctx packing :=
  readAll_returns (returns_bind readShape_returns fun _ _ =>
    returns_bind (lift_returns (Wire.readHandles_returns sized packing m.count)) fun _ read =>
      returns_pure read) m.payload

end Session

end CipherFlow
