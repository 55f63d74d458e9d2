import CipherFlow.Proofs.Session.Contents

/-!
# Messages that are written

What a party writes is of the kind that is asked for, and has the number of
ciphertexts that it says. The other party reads it back as it was written.
-/

namespace CipherFlow.Session

open Returning
open CipherFlow.Wire (Accepts Bytes run_check_eq_ok)

variable {α : Type} {ctx : Context} {bytes rest : Bytes}

/-! ## Parts of messages

Readers of sessions have errors of their own around those of the readers of values.
On success there is no difference, so what they accept carries over. -/

theorem field_run {r : Wire.Reader α} {x : α × Bytes} :
    (field r).run bytes = .ok x ↔ r.run bytes = .ok x := by
  show field r bytes = _ ↔ _
  rw [field]
  cases r.run bytes with
  | ok y => exact ⟨fun h => congrArg _ (Except.ok.inj h), fun h => congrArg _ (Except.ok.inj h)⟩
  | error e => cases e <;> simp only [reduceCtorEq]

theorem lift_run {r : Wire.Reader α} {x : α × Bytes} :
    (liftM r : Reader α).run bytes = .ok x ↔ r.run bytes = .ok x := by
  show (r.run bytes).mapError Error.wire = _ ↔ _
  cases r.run bytes with
  | ok y => exact ⟨fun h => congrArg _ (Except.ok.inj h), fun h => congrArg _ (Except.ok.inj h)⟩
  | error e => exact ⟨fun h => (nomatch h), fun h => (nomatch h)⟩

variable {r : Wire.Reader α} {write : α → Bytes} {P : α → Prop}

theorem field_accepts (h : Accepts r write P) : Accepts (field r) write P :=
  fun bytes x rest => field_run.trans (h bytes x rest)

theorem lift_accepts (h : Accepts r write P) : Accepts (liftM r : Reader α) write P :=
  fun bytes x rest => lift_run.trans (h bytes x rest)

/-- A shape that can be sent. -/
structure Shape.Short (s : Shape) : Prop where
  rank : s.length ≤ maxRank
  extents : ∀ d ∈ s, d < wordSize

/-- A shape is read as it was written, if it has few enough axes. -/
theorem readShape_accepts : Accepts readShape shapeBytes Shape.Short := by
  intro bytes s rest
  rw [readShape, (field_accepts Wire.readWord_accepts).run_bind]
  constructor
  · rintro ⟨rank, mid, -, rfl, eq⟩
    obtain ⟨few, eq⟩ := run_check_eq_ok.mp eq
    obtain ⟨⟨rfl, small⟩, rfl⟩ :=
      (field_accepts (Wire.readMany_accepts Wire.readWord_accepts rank) _ _ _).mp eq
    exact ⟨⟨Nat.not_lt.mp few, small⟩, by rw [shapeBytes, List.append_assoc]⟩
  · rintro ⟨⟨few, small⟩, rfl⟩
    refine ⟨s.length, _, lt_of_le_of_lt few (by decide), by rw [shapeBytes, List.append_assoc], ?_⟩
    refine run_check_eq_ok.mpr ⟨Nat.not_lt.mpr few, ?_⟩
    exact (field_accepts (Wire.readMany_accepts Wire.readWord_accepts _) _ _ _).mpr
      ⟨⟨rfl, small⟩, rfl⟩

/-- Contents are read to their end. -/
theorem readAll_eq_ok_iff {r : Reader α} {a : α} :
    readAll r bytes = .ok a ↔ r.run bytes = .ok (a, []) := by
  constructor
  · intro ok
    obtain ⟨⟨a', rest⟩, read, ok⟩ := exists_of_bind_eq_ok ok
    cases rest with
    | nil =>
      obtain rfl := Except.ok.inj ok
      exact read
    | cons b rest => exact nomatch ok
  · intro read
    rw [readAll, read]
    rfl

theorem readElementType_write (t : ElementType) :
    readElementType.run (Wire.natBytes 1 t.code ++ rest) = .ok (t, rest) := by
  have small : t.code < 256 := by cases t <;> decide
  rw [readElementType, (field_accepts Wire.readByte_accepts).bind_write small]
  simp only [ElementType.ofCode?_code]
  rfl

/-! ## Parameters and keys

With the parameters the other party makes the same chain, and only over that chain
it accepts keys. -/

/-- Parameters that meet their conditions are read as they were sent. -/
theorem Message.readParameters_parameters {p : Params} (h : p.problem? = none) :
    (Message.parameters p).readParameters = .ok p := by
  refine readAll_eq_ok_iff.mpr ?_
  have written := (lift_accepts Wire.readParams_accepts (Wire.paramsBytes p) p []).mpr
  exact written ⟨h, (List.append_nil _).symm⟩

/-- The contents of a message with keys. -/
def keysBytes (ctx : Context) (publicKey : PublicKey) (relinKey : RelinKey) : Bytes :=
  (Wire.topBytes ctx ++ Wire.pairBytes (publicKey.b, publicKey.a)) ++
    (Wire.topBytes ctx ++ Wire.wordBytes relinKey.digits.length ++
      relinKey.digits.flatMap Wire.pairBytes)

/-- Keys over the top basis can always be written. -/
theorem Message.evaluationKeys_ok (sound : ctx.Sound) (publicKey : PublicKey)
    (relinKey : RelinKey) :
    Message.evaluationKeys ctx publicKey relinKey =
      .ok ⟨.evaluationKeys, 0, keysBytes ctx publicKey relinKey⟩ := by
  rw [Message.evaluationKeys, Wire.publicKeyBytes, Wire.relinKeyBytes,
    Wire.topLevelBytes_ok sound]
  rfl

/-- Each key is read as it was sent, if the top level can be told from others,
and the second ends with the message. -/
theorem keysBytes_run (sound : ctx.Sound) (sized : ctx.Sized) (distinct : ctx.DistinctIds)
    {publicKey : PublicKey} {relinKey : RelinKey} (overPublic : publicKey.IsOver ctx.topBasis)
    (overRelin : relinKey.IsOver ctx.topBasis) :
    ∃ rest, (Wire.readPublicKey ctx).run (keysBytes ctx publicKey relinKey) =
        .ok (publicKey, rest) ∧
      (Wire.readRelinKey ctx).run rest = .ok (relinKey, []) := by
  have top := Wire.readTopLevel_accepts sound distinct
  refine ⟨Wire.topBytes ctx ++ Wire.wordBytes relinKey.digits.length ++
    relinKey.digits.flatMap Wire.pairBytes, ?_, ?_⟩
  · refine (Wire.readPublicKey_run sound sized).mpr ⟨overPublic, ?_⟩
    exact (top _ _ _).mpr ⟨rfl, by rw [keysBytes, List.append_assoc]⟩
  · refine (Wire.readRelinKey_run sound sized).mpr ⟨overRelin, ?_⟩
    exact (top _ _ _).mpr ⟨rfl, by rw [List.append_nil, List.append_assoc]⟩

theorem Message.readEvaluationKeys_ok (sound : ctx.Sound) (sized : ctx.Sized)
    (distinct : ctx.DistinctIds) {publicKey : PublicKey} {relinKey : RelinKey}
    (overPublic : publicKey.IsOver ctx.topBasis) (overRelin : relinKey.IsOver ctx.topBasis) :
    Message.readEvaluationKeys ⟨.evaluationKeys, 0, keysBytes ctx publicKey relinKey⟩ ctx =
      .ok (publicKey, relinKey) := by
  obtain ⟨rest, first, second⟩ := keysBytes_run sound sized distinct overPublic overRelin
  refine readAll_eq_ok_iff.mpr (run_bind_eq_ok.mpr ⟨_, _, lift_run.mpr first, ?_⟩)
  exact run_bind_eq_ok.mpr ⟨_, _, lift_run.mpr second, rfl⟩

/-! ## Elements

Elements name their level by a digest. A reader finds a level by it, and in a chain
whose digests differ it is the level that was meant. -/

section Elements

variable {packing : Packing} {handles : List Handle}

theorem readHandles_accepts (sized : ctx.Sized) (packing : Packing) (count : Nat) :
    Accepts (liftM (Wire.readHandles ctx packing count) : Reader (List Handle))
      (·.flatMap (Wire.writtenBytes ctx))
      fun hs => hs.length = count ∧ ∀ h ∈ hs, h.WellFormed ctx packing ∧ ctx.Named h.level :=
  lift_accepts (Wire.readMany_accepts (Wire.readHandle_accepts_named sized packing) count)

/-- Where levels have distinct identifiers, those of all elements are found. -/
theorem named_of_distinct (distinct : ctx.DistinctIds)
    (wellFormed : ∀ h ∈ handles, h.WellFormed ctx packing) :
    ∀ h ∈ handles, h.WellFormed ctx packing ∧ ctx.Named h.level :=
  fun h hh => ⟨wellFormed h hh, distinct.named (wellFormed h hh).level_lt⟩

theorem handlesBytes_ok (wellFormed : ∀ h ∈ handles, h.WellFormed ctx packing) :
    Wire.handlesBytes ctx handles = .ok (handles.flatMap (Wire.writtenBytes ctx)) :=
  Wire.handlesBytes_ok fun h hh => (wellFormed h hh).level_lt

/-- Well-formed elements are read as they were sent, if their levels are found
by their identifiers. -/
theorem readElements_ok (sized : ctx.Sized)
    (wellFormed : ∀ h ∈ handles, h.WellFormed ctx packing ∧ ctx.Named h.level) :
    readElements ctx packing handles.length (handles.flatMap (Wire.writtenBytes ctx)) =
      .ok handles :=
  readAll_eq_ok_iff.mpr ((readHandles_accepts sized packing _ _ _ _).mpr
    ⟨⟨rfl, wellFormed⟩, (List.append_nil _).symm⟩)

theorem Message.request_ok (f : Nonlinear) (wellFormed : ∀ h ∈ handles, h.WellFormed ctx packing) :
    Message.request ctx f handles = .ok ⟨requestKind f, handles.length,
      requestBytes f ++ handles.flatMap (Wire.writtenBytes ctx)⟩ := by
  rw [Message.request, handlesBytes_ok wellFormed]
  rfl

theorem Message.response_ok (wellFormed : ∀ h ∈ handles, h.WellFormed ctx packing) :
    Message.response ctx handles = .ok ⟨.reluResponse, handles.length,
      handles.flatMap (Wire.writtenBytes ctx)⟩ := by
  rw [Message.response, handlesBytes_ok wellFormed]
  rfl

theorem Message.response_returns (ctx : Context) (batch : List Handle) :
    Returns (Message.response ctx batch) fun m =>
      m.kind = .reluResponse ∧ m.count = batch.length :=
  returns_bind (returns_mapError (Wire.handlesBytes_returns batch)) fun _ _ =>
    returns_pure ⟨rfl, rfl⟩

end Elements

/-! ## Inputs

In front of the elements stand the packing, the type and the batch size. Every one
of them is checked by the reader, and passes if the input fits its context. -/

theorem Message.execute_returns (ctx : Context) (input : Input) :
    Returns (Message.execute ctx input) (·.kind = .execute) :=
  returns_bind (returns_mapError (Wire.handlesBytes_returns input.handles)) fun _ _ =>
    returns_pure rfl

/-- The contents of a message with an input. -/
def inputBytes (ctx : Context) (i : Input) : Bytes :=
  Wire.natBytes 1 (if i.packing.isComplex then 1 else 0) ++
    (Wire.natBytes 1 i.type.elementType.code ++ (Wire.wordBytes i.batch ++
      (shapeBytes i.type.shape ++ i.handles.flatMap (Wire.writtenBytes ctx))))

theorem Message.execute_ok {i : Input} (fits : i.Fits ctx) :
    Message.execute ctx i = .ok ⟨.execute, i.handles.length, inputBytes ctx i⟩ := by
  rw [Message.execute, handlesBytes_ok fits.handles, inputBytes]
  simp only [← List.append_assoc]
  rfl

/-- An input that fits its context is read as it was sent. -/
theorem Message.readExecute_ok (sized : ctx.Sized) (distinct : ctx.DistinctIds) {i : Input}
    (fits : i.Fits ctx) (short : Shape.Short i.type.shape) :
    Message.readExecute ⟨.execute, i.handles.length, inputBytes ctx i⟩ ctx = .ok i := by
  have small : i.batch < wordSize :=
    (fits.batch_le.trans (sized.capacity_le i.packing)).trans_lt (by decide)
  have flag : (if i.packing.isComplex then 1 else 0) < 256 := by split <;> decide
  have packing : Packing.ofFlag ((if i.packing.isComplex then 1 else 0) != 0) = i.packing := by
    cases i.packing <;> rfl
  have room : ¬(i.batch = 0 ∨ i.packing.capacity ctx.slotCount < i.batch) :=
    not_or.mpr ⟨Nat.one_le_iff_ne_zero.mp fits.batch_pos, Nat.not_lt.mpr fits.batch_le⟩
  have handles := (readHandles_accepts sized i.packing i.handles.length
    (i.handles.flatMap (Wire.writtenBytes ctx)) i.handles []).mpr
    ⟨⟨rfl, named_of_distinct distinct fits.handles⟩, (List.append_nil _).symm⟩
  -- Field by field, in the order of the bytes.
  refine readAll_eq_ok_iff.mpr ?_
  rw [inputBytes, (field_accepts Wire.readByte_accepts).bind_write flag]
  dsimp only
  rw [packing]
  refine run_bind_eq_ok.mpr ⟨_, _, readElementType_write _, ?_⟩
  rw [(field_accepts Wire.readWord_accepts).bind_write small, if_neg room]
  show StateT.run (readShape >>= _) _ = _
  rw [readShape_accepts.bind_write short, if_neg (not_not.mpr fits.size)]
  exact run_bind_eq_ok.mpr ⟨_, _, handles, rfl⟩

/-! ## Results

For a result the shape is all that stands in front of its elements. -/

theorem Message.result_ok {packing : Packing} {handles : List Handle} (shape : Shape)
    (wellFormed : ∀ h ∈ handles, h.WellFormed ctx packing) :
    Message.result ctx shape handles = .ok ⟨.result, handles.length,
      shapeBytes shape ++ handles.flatMap (Wire.writtenBytes ctx)⟩ := by
  rw [Message.result, handlesBytes_ok wellFormed]
  rfl

/-- A result of well-formed elements is read as it was sent. -/
theorem Message.readResult_ok (sized : ctx.Sized) (distinct : ctx.DistinctIds) {packing : Packing}
    {shape : Shape} {handles : List Handle} (short : Shape.Short shape)
    (wellFormed : ∀ h ∈ handles, h.WellFormed ctx packing) :
    Message.readResult ⟨.result, handles.length,
      shapeBytes shape ++ handles.flatMap (Wire.writtenBytes ctx)⟩ ctx packing =
        .ok (shape, handles) := by
  refine readAll_eq_ok_iff.mpr ?_
  rw [readShape_accepts.bind_write short]
  have read := (readHandles_accepts sized packing handles.length
    (handles.flatMap (Wire.writtenBytes ctx)) handles []).mpr
    ⟨⟨rfl, named_of_distinct distinct wellFormed⟩, (List.append_nil _).symm⟩
  exact run_bind_eq_ok.mpr ⟨_, _, read, rfl⟩

/-- The elements of a result take up its bytes. -/
theorem le_of_readResult {m : Message} {packing : Packing} {shape : Shape} {handles : List Handle}
    (sized : ctx.Sized) (h : m.readResult ctx packing = .ok (shape, handles)) :
    Wire.headerSize * m.count ≤ m.payload.length := by
  obtain ⟨⟨⟨shape', handles'⟩, rest⟩, read, -⟩ := exists_of_bind_eq_ok h
  obtain ⟨s, mid, shaped, read⟩ := run_bind_eq_ok.mp read
  obtain ⟨hs, mid', elements, -⟩ := run_bind_eq_ok.mp read
  obtain ⟨-, eq⟩ := (readShape_accepts _ _ _).mp shaped
  -- A header at least is read for each of them.
  have width : ∀ {bytes rest : Bytes} {x : Handle},
      (Wire.readHandle ctx packing).run bytes = .ok (x, rest) →
        rest.length + Wire.headerSize ≤ bytes.length := by
    intro bytes rest x read
    obtain ⟨⟨wellFormed, -⟩, rfl⟩ := Wire.of_readHandle sized read
    rw [List.length_append, Wire.length_writtenBytes wellFormed, Wire.handleSize]
    omega
  have all := Wire.le_of_readMany width (lift_run.mp elements)
  rw [eq, List.length_append]
  omega

end CipherFlow.Session
